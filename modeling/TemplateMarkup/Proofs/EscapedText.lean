import Mathlib.Data.List.Nodup
import Mathlib.Tactic.SplitIfs
import TemplateMarkup.Proofs.OrderedMapLookup
import TemplateMarkup.Writing.Markup

/-! Tags that are read back. What is escaped is recovered in one pass from left to right, so that
the attributes of a tag are told by its text. -/
namespace TemplateMarkup.Markup

/-- Takes back the four entities, from left to right. -/
def unescape : List Char → List Char
  | '&' :: 'a' :: 'm' :: 'p' :: ';' :: cs => '&' :: unescape cs
  | '&' :: 'l' :: 't' :: ';' :: cs => '<' :: unescape cs
  | '&' :: 'g' :: 't' :: ';' :: cs => '>' :: unescape cs
  | '&' :: 'q' :: 'u' :: 'o' :: 't' :: ';' :: cs => '"' :: unescape cs
  | c :: cs => c :: unescape cs
  | [] => []

/-- Whether a character may stand in the name of an attribute. -/
def isNameChar (c : Char) : Bool := !Text.isWhiteSpace c && !"=\"<>".toList.contains c

/-- Where in the attributes of a tag reading is, and what has been read of the one it is in. -/
inductive AttributePart
  | between
  | name (name : List Char)
  /-- Between the equals sign and the quote. -/
  | opening (name : List Char)
  | value (name value : List Char)

/-- The attributes that a text tells of, if it tells of nothing else: each is a blank, a name, and
behind an equals sign a value between quotes. -/
def readPairs : AttributePart → List Char → Option (List (String × String))
  | .between, [] => some []
  | .between, ' ' :: cs => readPairs (.name []) cs
  | .name name, c :: cs =>
    if c = '=' then readPairs (.opening name) cs
    else if isNameChar c then readPairs (.name (name ++ [c])) cs
    else none
  | .opening name, '"' :: cs => readPairs (.value name []) cs
  | .value name value, c :: cs =>
    if c = '"' then
      (readPairs .between cs).map ((String.ofList name, String.ofList (unescape value)) :: ·)
    else readPairs (.value name (value ++ [c])) cs
  | _, _ => none

/-- A style behind which more can be said: a semicolon ends it, if it says anything. -/
def ended (style : String) : String :=
  if style ≠ "" ∧ style.toList.getLast? ≠ some ';' then style ++ ";" else style

/-- What a tag shows of its attributes and its inline style: every attribute in order. An inline
style stands behind what the style attribute says, or in a last attribute of its own. -/
def shown (attributes properties : OrderedMap String String) : List (String × String) :=
  if properties.isEmpty then attributes.toList
  else if "style" ∈ attributes.keys then
    attributes.toList.map fun e =>
      (e.1, if e.1 = "style" then ended (Text.trim e.2) ++ declarations properties else e.2)
  else attributes.toList ++ [("style", declarations properties)]

theorem toList_escape (text : String) :
    (escape text).toList = text.toList.flatMap fun c => (escapeChar c).toList := by
  rw [escape, String.toList_join, List.flatMap_map]

theorem ne_of_mem_escape {text : String} {c : Char} (member : c ∈ (escape text).toList) :
    c ≠ '<' ∧ c ≠ '>' ∧ c ≠ '"' := by
  rw [toList_escape] at member
  obtain ⟨d, -, here⟩ := List.mem_flatMap.1 member
  unfold escapeChar at here
  split_ifs at here with amp less greater quote
  iterate 4
    simp only [String.reduceToList, List.mem_cons, List.not_mem_nil, or_false] at here
    grind
  rw [String.toList_singleton, List.mem_singleton] at here
  exact here ▸ ⟨less, greater, quote⟩

theorem unescape_escapeChar (c : Char) (cs : List Char) :
    unescape ((escapeChar c).toList ++ cs) = c :: unescape cs := by
  unfold escapeChar
  split_ifs with amp less greater quote
  · exact amp ▸ rfl
  · exact less ▸ rfl
  · exact greater ▸ rfl
  · exact quote ▸ rfl
  · rw [String.toList_singleton, List.singleton_append]
    conv => lhs; unfold unescape
    split <;> simp_all

theorem unescape_escape (text : String) : unescape (escape text).toList = text.toList := by
  rw [toList_escape]
  induction text.toList with
  | nil => rfl
  | cons c cs ih => rw [List.flatMap_cons, unescape_escapeChar, ih]

theorem readPairs_name {text : List Char} (clean : ∀ c ∈ text, isNameChar c = true)
    (name rest : List Char) :
    readPairs (.name name) (text ++ '=' :: rest) = readPairs (.opening (name ++ text)) rest := by
  induction text generalizing name with
  | nil => simp [readPairs]
  | cons c text ih =>
    have here := clean c (.head _)
    have other : c ≠ '=' := by
      rintro rfl
      exact absurd here (by decide)
    rw [List.cons_append, readPairs, if_neg other, if_pos here,
      ih fun d member => clean d (.tail _ member), List.append_assoc, List.singleton_append]

theorem readPairs_value {text : List Char} (clean : '"' ∉ text) (name value rest : List Char) :
    readPairs (.value name value) (text ++ '"' :: rest) = (readPairs .between rest).map
      ((String.ofList name, String.ofList (unescape (value ++ text))) :: ·) := by
  induction text generalizing value with
  | nil => simp [readPairs]
  | cons c text ih =>
    have other : c ≠ '"' := fun same => clean (same ▸ .head _)
    rw [List.cons_append, readPairs, if_neg other, ih fun member => clean (.tail _ member),
      List.append_assoc, List.singleton_append]

/-- The text of an attribute is read back, and then what stands behind it. -/
theorem readPairs_attributeText {name : String} (clean : ∀ c ∈ name.toList, isNameChar c = true)
    (value : String) (rest : List Char) :
    readPairs .between ((attributeText name value).toList ++ rest) =
      (readPairs .between rest).map ((name, value) :: ·) := by
  have text : (attributeText name value).toList ++ rest =
      ' ' :: (name.toList ++ '=' :: '"' :: ((escape value).toList ++ '"' :: rest)) := by
    simp [attributeText]
  rw [text, readPairs, readPairs_name clean, readPairs,
    readPairs_value fun member => (ne_of_mem_escape member).2.2 rfl]
  simp [unescape_escape]

theorem readPairs_join {entries : List (String × String)}
    (clean : ∀ e ∈ entries, ∀ c ∈ e.1.toList, isNameChar c = true) :
    readPairs .between (String.join (entries.map fun e => attributeText e.1 e.2)).toList =
      some entries := by
  induction entries with
  | nil => rfl
  | cons e entries ih =>
    rw [List.map_cons, String.join_cons, String.toList_append,
      readPairs_attributeText (clean e (.head _)), ih fun e member => clean e (.tail _ member)]
    rfl

section Shown

variable {attributes properties : OrderedMap String String}

theorem mergeStyle_eq (value : String) (properties : OrderedMap String String) :
    mergeStyle value properties = ended (Text.trim value) ++ declarations properties := by
  have mark (style : String) : (style.isEmpty || style.toList.getLast? == some ';') = true ↔
      ¬(style ≠ "" ∧ style.toList.getLast? ≠ some ';') := by
    simp only [Bool.or_eq_true, String.isEmpty_iff, beq_iff_eq]
    tauto
  simp only [mergeStyle, mark, ite_not, ended]
  split <;> simp

theorem attributes_eq_join : Markup.attributes attributes properties =
    String.join ((shown attributes properties).map fun e => attributeText e.1 e.2) := by
  have contains : attributes.contains "style" = true ↔ "style" ∈ attributes.keys :=
    OrderedMap.get?_isSome
  unfold Markup.attributes shown
  cases properties.isEmpty with
  | true => simp
  | false =>
    by_cases there : "style" ∈ attributes.keys
    · simp only [Bool.false_or, contains, there, if_true, mergeStyle_eq, List.map_map,
        String.append_empty, Bool.false_eq_true, if_false, Bool.not_false, and_true]
      congr 1
      refine List.map_congr_left fun e _ => ?_
      dsimp only [Function.comp_apply]
      split <;> rfl
    · have other : ∀ e ∈ attributes.toList, e.1 ≠ "style" := fun e member style =>
        there (style ▸ List.mem_map_of_mem member)
      simp only [Bool.false_or, contains, there, Bool.false_eq_true, if_false, List.map_append]
      rw [String.join_append]
      congr 2
      exact List.map_congr_left fun e member => if_neg fun style => other e member style.1

/-- No name is shown twice, and those shown are those of the attributes and that of the style. -/
theorem names_shown : ((shown attributes properties).map Prod.fst).Nodup ∧
    ∀ e ∈ shown attributes properties, e.1 ∈ attributes.keys ∨ e.1 = "style" := by
  have nodup : attributes.keys.Nodup := attributes.nodup
  have own : ∀ e ∈ attributes.toList, e.1 ∈ attributes.keys := fun e => List.mem_map_of_mem
  unfold shown
  split_ifs with empty there
  · exact ⟨nodup, fun e member => .inl (own e member)⟩
  · rw [List.map_map]
    refine ⟨nodup, fun e member => .inl ?_⟩
    obtain ⟨old, there, rfl⟩ := List.mem_map.1 member
    exact own old there
  · rw [List.map_append]
    refine ⟨nodup.append (List.nodup_singleton _) (List.disjoint_singleton.2 there), ?_⟩
    intro e member
    rcases List.mem_append.1 member with old | new
    · exact .inl (own e old)
    · exact .inr (List.mem_singleton.1 new ▸ rfl)

end Shown

/-- Escaped text holds no mark of a tag and is recovered by taking the entities back, so that the
attributes that a tag shows are read back from its text. -/
theorem attributes_readBack :
    (∀ text, (∀ c ∈ (escape text).toList, c ≠ '<' ∧ c ≠ '>' ∧ c ≠ '"') ∧
      unescape (escape text).toList = text.toList) ∧
    ∀ attributes properties : OrderedMap String String,
      (∀ name ∈ attributes.keys, ∀ c ∈ name.toList, isNameChar c = true) →
      readPairs .between (Markup.attributes attributes properties).toList =
          some (shown attributes properties) ∧
        ((shown attributes properties).map Prod.fst).Nodup := by
  refine ⟨fun text => ⟨fun c => ne_of_mem_escape, unescape_escape text⟩, ?_⟩
  intro attributes properties clean
  refine ⟨?_, names_shown.1⟩
  rw [attributes_eq_join]
  refine readPairs_join fun e member => ?_
  rcases names_shown.2 e member with own | style
  · exact clean e.1 own
  · rw [style]
    exact List.all_eq_true.1 rfl

/-- Quotes and entities in a value, and a style attribute that an inline style goes into. -/
theorem attributes_readBack_quotes :
    let attributes := OrderedMap.ofList [("title", "\"a\" &amp; <b>"), ("style", " margin: 0 ")]
    let properties := OrderedMap.ofList [("color", "red")]
    (∀ name ∈ attributes.keys, ∀ c ∈ name.toList, isNameChar c = true) ∧
      readPairs .between (Markup.attributes attributes properties).toList =
        some [("title", "\"a\" &amp; <b>"), ("style", "margin: 0;color:red;")] := by
  intro attributes properties
  have clean : ∀ name ∈ attributes.keys, ∀ c ∈ name.toList, isNameChar c = true := by
    have keys : attributes.keys = ["title", "style"] := rfl
    rw [keys]
    exact List.forall_mem_cons.2 ⟨List.all_eq_true.1 rfl,
      List.forall_mem_singleton.2 (List.all_eq_true.1 rfl)⟩
  exact ⟨clean, (attributes_readBack.2 attributes properties clean).1.trans (by decide +kernel)⟩

end TemplateMarkup.Markup
