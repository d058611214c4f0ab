import TemplateMarkup.NestedDocument
import TemplateMarkup.Proofs.PlainMarkup

/-! The sources of elements in one another: a line for each opening, a line for the text, and a line
for each closing. Their words are those of a tower of plain nodes, and each element stands on its
own line, two columns further in than the one around it. -/
namespace TemplateMarkup

/-- A text without a line feed stays on its line. -/
theorem Place.after_of_not_mem {cs : List Char} (single : '\n' ∉ cs) (p : Place) :
    (p.after cs).line = p.line ∧ (p.after cs).column = p.column + cs.length := by
  induction cs generalizing p with
  | nil => exact ⟨rfl, rfl⟩
  | cons c cs ih =>
    obtain ⟨other, single⟩ := not_or.1 (mt List.mem_cons.2 single)
    obtain ⟨line, column⟩ := ih single (p.next c)
    have next : (p.next c).line = p.line ∧ (p.next c).column = p.column + 1 := by
      rw [Place.next, if_neg (Ne.symm other)]
      exact ⟨rfl, rfl⟩
    change ((p.next c).after cs).line = _ ∧ ((p.next c).after cs).column = _
    rw [line, column, next.1, next.2, List.length_cons]
    exact ⟨rfl, by omega⟩

/-- A line feed ends the line. -/
theorem Place.after_line {cs : List Char} (single : '\n' ∉ cs) (p : Place) :
    (p.after (cs ++ ['\n'])).line = p.line + 1 ∧ (p.after (cs ++ ['\n'])).column = 1 := by
  have split : p.after (cs ++ ['\n']) = (p.after cs).next '\n' := by simp [Place.after]
  rw [split, ← (Place.after_of_not_mem single p).1]
  exact ⟨rfl, rfl⟩

namespace NestedDocument

open TokenStream

section Lines

variable {behind text : List Char} {words : List (TokenKind × String)}

def openingText : List Char := "div".toList ++ [' ', '\x7b']

def leafText : List Char := "text \x7b \"leaf\" \x7d".toList

def closingText : List Char := ['\x7d']

/-- A text on a line of its own. -/
def line (level : Nat) (text : List Char) : List Char := (indent level).toList ++ (text ++ ['\n'])

theorem toList_indent (level : Nat) : (indent level).toList = List.replicate (2 * level) ' ' :=
  String.toList_ofList

theorem toList_opening (level : Nat) : (opening level).toList = line level openingText := by
  rw [opening, String.toList_append]
  rfl

theorem toList_leaf (level : Nat) :
    (leaf level).toList = line level leafText := by
  rw [leaf, String.toList_append]
  rfl

theorem toList_closing (level : Nat) : (closing level).toList = line level closingText := by
  rw [closing, String.toList_append]
  rfl

theorem spells_spaces (n : Nat) (begins : Begins behind) :
    Spells (List.replicate n ' ') [] behind ∧ Begins (List.replicate n ' ' ++ behind) := by
  induction n with
  | zero => exact ⟨spells_nil, begins⟩
  | succ n ih =>
    exact ⟨(spells_space ih.2).append ih.1, begins_cons rfl⟩

/-- A line spells what its text spells. -/
theorem spells_line (level : Nat) (starts : Begins text) (begins : Begins behind)
    (spells : Spells text words (['\n'] ++ behind)) : Spells (line level text) words behind := by
  have feed : Spells ['\n'] [] behind := spells_blank rfl (by decide) begins
  have more : Begins (['\n'] ++ behind) := begins_cons rfl
  have rest := spells.append feed
  rw [List.append_nil] at rest
  rw [line, toList_indent]
  refine (spells_spaces (2 * level) ?_).1.append rest
  rw [List.append_assoc]
  exact starts.append more

theorem begins_line (level : Nat) (starts : Begins text) :
    Begins (line level text ++ behind) := by
  have more : Begins ('\n' :: behind) := begins_cons rfl
  rw [line, toList_indent, List.append_assoc, List.append_assoc]
  exact (spells_spaces (2 * level) (starts.append more)).2

/-- Lines one below the other, with the same text. -/
theorem spells_lines (levels : List Nat) (starts : Begins text) (begins : Begins behind)
    (spells : ∀ cs, Spells text words (['\n'] ++ cs)) :
    Spells (levels.flatMap fun level => line level text) (levels.flatMap fun _ => words) behind ∧
      Begins (levels.flatMap (fun level => line level text) ++ behind) := by
  induction levels with
  | nil => exact ⟨spells_nil, begins⟩
  | cons level levels ih =>
    refine ⟨(spells_line level starts ih.2 (spells _)).append ih.1, ?_⟩
    rw [List.flatMap_cons, List.append_assoc]
    exact begins_line level starts

abbrev openingWords : List (TokenKind × String) := [(.identifier, "div"), (.leftBrace, "\x7b")]

theorem isToken_div (cs : List Char) : Lexeme.IsToken "div".toList .identifier (' ' :: cs) := by
  refine Lexeme.isToken_word (by decide) (by decide) ?_
  intro c h
  cases h
  decide

theorem spells_brace (cs : List Char) :
    Spells [' ', '\x7b'] [(.leftBrace, "\x7b")] (['\n'] ++ cs) :=
  (spells_space (begins_cons rfl)).append (spells_mark (fun _ => rfl) rfl)

theorem spells_opening (cs : List Char) :
    Spells openingText openingWords (['\n'] ++ cs) := by
  have name : Spells "div".toList [(.identifier, "div")] ([' ', '\x7b'] ++ (['\n'] ++ cs)) :=
    spells_token (isToken_div _) rfl
  exact name.append (spells_brace cs)

theorem spells_leaf (cs : List Char) :
    Spells leafText (PlainNode.text "leaf").words (['\n'] ++ cs) := by
  have word : Spells "text".toList [(.keyword .text, "text")]
      ([' ', '\x7b', ' '] ++ (quoted "leaf" ++ [' ', '\x7d']) ++ (['\n'] ++ cs)) := by
    refine spells_word (by decide) rfl rfl fun c h => ?_
    cases h
    decide
  have close : Spells [' ', '\x7d'] [(.rightBrace, "\x7d")] (['\n'] ++ cs) :=
    (spells_space (begins_cons rfl)).append (spells_mark (fun _ => rfl) rfl)
  rw [PlainNode.words]
  exact word.append ((spells_open (begins_cons rfl)).append ((spells_quoted "leaf").append close))

theorem spells_closing (cs : List Char) :
    Spells closingText [(.rightBrace, "\x7d")] (['\n'] ++ cs) :=
  spells_mark (fun _ => rfl) rfl

theorem begins_openingText : Begins openingText := begins_cons rfl

theorem begins_leafText : Begins leafText := begins_cons rfl

end Lines

section Words

def div : PlainName := ⟨"div", rfl, rfl⟩

/-- So many elements in one another, with a text in the innermost. -/
def tower : Nat → PlainNode
  | 0 => .text "leaf"
  | depth + 1 => .element div [] [tower depth]

def content (depth : Nat) : List PlainNode := if depth = 0 then [] else [tower depth]

theorem proper_tower {depth limit : Nat} (le : depth ≤ limit) : (tower depth).Proper limit := by
  induction depth generalizing limit with
  | zero => exact .text "leaf"
  | succ depth ih =>
    obtain ⟨limit, rfl⟩ : ∃ m, limit = m + 1 := ⟨limit - 1, by omega⟩
    refine .element List.nodup_nil (fun closed => absurd closed (by decide)) ?_
    intro node member
    rw [List.mem_singleton.1 member]
    exact ih (by omega)

theorem proper_content {depth limit : Nat} (le : depth ≤ limit) :
    ∀ node ∈ content depth, node.Proper limit := by
  intro node member
  unfold content at member
  split at member
  · cases member
  · rw [List.mem_singleton.1 member]
    exact proper_tower le

theorem words_tower_succ (depth : Nat) : (tower (depth + 1)).words =
    openingWords ++ ((tower depth).words ++ [(.rightBrace, "\x7d")]) := by
  rw [tower, PlainNode.words, PlainNode.wordsAll, PlainNode.wordsAll, List.append_nil]
  rfl

theorem length_tower_succ (depth : Nat) :
    (tower (depth + 1)).words.length = 2 + (tower depth).words.length + 1 := by
  simp only [words_tower_succ, List.length_append, List.length_cons, List.length_nil]
  omega

theorem words_tower (levels : List Nat) (n : Nat) : (tower (n + levels.length)).words =
    levels.flatMap (fun _ => openingWords) ++ ((tower n).words ++
      List.replicate levels.length (.rightBrace, "\x7d")) := by
  induction levels with
  | nil => exact (List.append_nil _).symm
  | cons level levels ih =>
    rw [List.length_cons, ← Nat.add_assoc, words_tower_succ, ih, List.flatMap_cons,
      List.replicate_succ']
    simp only [List.append_assoc]

abbrev openings (levels : List Nat) : List Char :=
  levels.flatMap fun level => line level openingText

abbrev closings (levels : List Nat) : List Char :=
  levels.flatMap fun level => line level closingText

theorem spells_openings (levels : List Nat) {behind : List Char} (begins : Begins behind) :
    Spells (openings levels) (levels.flatMap fun _ => openingWords) behind ∧
      Begins (openings levels ++ behind) :=
  spells_lines levels begins_openingText begins spells_opening

theorem toList_source (depth : Nat) : (source depth).toList = openings (List.range depth) ++
    ((if depth = 0 then [] else (leaf depth).toList) ++ closings (List.range depth).reverse) := by
  rw [source, String.toList_append, String.toList_append, String.toList_join, String.toList_join,
    List.flatMap_map, List.flatMap_map, List.append_assoc]
  simp only [toList_opening, toList_closing]
  split <;> rfl

/-- What follows the openings: the text, and the closing braces. -/
theorem spells_closings (depth : Nat) (levels : List Nat) :
    Spells ((leaf depth).toList ++ closings levels)
      ((PlainNode.text "leaf").words ++ List.replicate levels.length (.rightBrace, "\x7d")) [] ∧
      Begins ((leaf depth).toList ++ closings levels) := by
  have none : Begins [] := by simp [Begins]
  obtain ⟨spells, begins⟩ := spells_lines levels (begins_cons rfl) none spells_closing
  have words : levels.flatMap (fun _ => [(TokenKind.rightBrace, "\x7d")]) =
      List.replicate levels.length (.rightBrace, "\x7d") := by
    rw [← List.map_eq_flatMap, List.map_const']
  rw [words] at spells
  rw [toList_leaf]
  exact ⟨(spells_line depth begins_leafText begins (spells_leaf _)).append spells,
    begins_line depth begins_leafText⟩

theorem spells_source (depth : Nat) :
    Spells (source depth).toList (PlainNode.wordsAll (content depth)) [] := by
  rw [toList_source]
  cases depth with
  | zero => exact spells_nil
  | succ depth =>
    obtain ⟨spells, begins⟩ := spells_closings (depth + 1) (List.range (depth + 1)).reverse
    have words : PlainNode.wordsAll (content (depth + 1)) =
        (List.range (depth + 1)).flatMap (fun _ => openingWords) ++
          ((PlainNode.text "leaf").words ++
            List.replicate (List.range (depth + 1)).reverse.length (.rightBrace, "\x7d")) := by
      have whole := words_tower (List.range (depth + 1)) 0
      rw [List.length_range, Nat.zero_add, tower] at whole
      rw [List.length_reverse, List.length_range, ← whole]
      exact List.append_nil _
    rw [words]
    refine (spells_openings _ ?_).1.append spells
    rw [List.append_nil]
    exact begins

end Words

section Places

theorem not_mem_indent (level : Nat) : '\n' ∉ (indent level).toList := by
  rw [toList_indent]
  intro member
  cases List.eq_of_mem_replicate member

theorem place_openings (n : Nat) :
    (({} : Place).after (openings (List.range n))).line = n + 1 ∧
      (({} : Place).after (openings (List.range n))).column = 1 := by
  induction n with
  | zero => exact ⟨rfl, rfl⟩
  | succ n ih =>
    have split : ({} : Place).after (openings (List.range (n + 1))) =
        (({} : Place).after (openings (List.range n))).after
          ((indent n).toList ++ openingText ++ ['\n']) := by
      rw [List.range_succ, openings, List.flatMap_append, List.flatMap_singleton, line,
        ← List.append_assoc (indent n).toList]
      exact List.foldl_append
    have single : '\n' ∉ (indent n).toList ++ openingText := by
      rw [List.mem_append]
      exact not_or.2 ⟨not_mem_indent n, by decide⟩
    rw [split, ← ih.1]
    exact Place.after_line single _

/-- The first element beyond the limit stands on a line of its own, behind its indent. -/
theorem token_beyond {limit depth : Nat} (lt : limit < depth) {stream : TokenStream}
    (tokenizes : ofSource (source depth) = .ok stream) :
    ∃ token, stream.tokens[2 * limit]? = some token ∧ token.span.line = limit + 1 ∧
      token.span.column = 2 * limit + 1 := by
  obtain ⟨more, rfl⟩ : ∃ more, depth = limit + (more + 1) := ⟨depth - limit - 1, by omega⟩
  have levels : List.range (limit + (more + 1)) =
      List.range limit ++ limit :: List.range' (limit + 1) more := by
    rw [List.range_eq_range', ← List.range'_append, ← List.range_eq_range', List.range'_succ]
    simp
  obtain ⟨spells, begins⟩ := spells_closings (limit + (more + 1))
    (List.range (limit + (more + 1))).reverse
  generalize tail_eq : (leaf (limit + (more + 1))).toList ++
    closings (List.range (limit + (more + 1))).reverse = tail at spells begins
  obtain ⟨inner, starts⟩ := spells_openings (List.range' (limit + 1) more) begins
  generalize inner_eq : openings (List.range' (limit + 1) more) = rest at inner starts
  -- behind the name of the element its line ends, and the other lines follow
  have feed : Spells ['\n'] [] (rest ++ tail) := spells_blank rfl (by decide) starts
  have after : Spells ([' ', '\x7b'] ++ (['\n'] ++ (rest ++ tail))) _ [] :=
    Spells.append (by simpa using spells_brace (rest ++ tail))
      (Spells.append (by simpa using feed) (Spells.append (by simpa using inner) spells))
  have begun : Begins ("div".toList ++ ([' ', '\x7b'] ++ (['\n'] ++ (rest ++ tail)))) :=
    begins_cons rfl
  obtain ⟨spaces, starts⟩ := spells_spaces (2 * limit) begun
  have before := (spells_openings (List.range limit) starts).1.append spaces
  have split : (source (limit + (more + 1))).toList =
      (openings (List.range limit) ++ List.replicate (2 * limit) ' ') ++
        ("div".toList ++ ([' ', '\x7b'] ++ (['\n'] ++ (rest ++ tail)))) := by
    rw [toList_source, if_neg (by omega), tail_eq, ← inner_eq, levels, openings,
      List.flatMap_append, List.flatMap_cons, line, toList_indent]
    simp only [List.append_assoc]
    rfl
  have span := Spells.span_eq tokenizes split before (isToken_div _) rfl after
  have length : ((List.range limit).flatMap (fun _ => openingWords) ++ []).length = 2 * limit := by
    simp [Nat.mul_comm]
  rw [length] at span
  obtain ⟨token, here, same⟩ := Option.map_eq_some_iff.1 span
  have place := Place.after_of_not_mem (not_mem_indent limit)
    (({} : Place).after (openings (List.range limit)))
  rw [toList_indent, List.length_replicate, (place_openings limit).1, (place_openings limit).2]
    at place
  rw [Place.after, List.foldl_append] at same
  refine ⟨token, here, ?_, ?_⟩
  · rw [same]
    exact place.1
  · rw [same, Nat.add_comm]
    exact place.2

end Places

end NestedDocument

end TemplateMarkup
