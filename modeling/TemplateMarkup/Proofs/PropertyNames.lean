import TemplateMarkup.Proofs.DrawnContent
import TemplateMarkup.Proofs.InsertedProperties

/-! Names of properties under edits and fills: which of them still wait for a value, and which have
one. -/
namespace TemplateMarkup

namespace Edit

/-- Deletes a property by its name. -/
def Deletes (name : String) : Edit → Prop
  | .deleteNames names => name ∈ names
  | _ => False

/-- Gives a name a value, where these properties are there before. -/
def Supplies (properties : OrderedMap String Value) (name : String) : Edit → Prop
  | .insert position (.properties payload) =>
    name ∈ payload.keys ∧ ∀ target ∈ position.target?, target.name ∈ properties.keys
  | _ => False

/-- Takes a name away, or puts other properties in its place. -/
def TakesOut (name : String) : Edit → Prop
  | .deleteNames names => name ∈ names
  | .insert (.replace target) (.properties payload) => target.name = name ∧ name ∉ payload.keys
  | _ => False

end Edit

namespace OrderedMap

variable {κ ν : Type} [DecidableEq κ]

theorem mem_keys_insert (m : OrderedMap κ ν) (key k : κ) (value : ν) :
    k ∈ (m.insert key value).keys ↔ k = key ∨ k ∈ m.keys := by
  rw [← get?_isSome, ← get?_isSome, get?_insert]
  by_cases same : k = key
  · simp [same]
  · simp [same]

theorem mem_keys_erase (m : OrderedMap κ ν) (key k : κ) :
    k ∈ (m.erase key).keys ↔ k ≠ key ∧ k ∈ m.keys := by
  change k ∈ (without key m.entries).map Prod.fst ↔ k ≠ key ∧ k ∈ m.entries.map Prod.fst
  rw [without, List.mem_map, List.mem_map]
  constructor
  · rintro ⟨e, member, rfl⟩
    have kept := List.mem_filter.1 member
    exact ⟨by simpa using kept.2, e, kept.1, rfl⟩
  · rintro ⟨other, e, member, rfl⟩
    exact ⟨e, List.mem_filter.2 ⟨member, by simpa using other⟩, rfl⟩

end OrderedMap

/-- Of the names that a payload does not bring, those on either side of the place stay. -/
theorem InsertPosition.Divides.stays_iff {position : InsertPosition} {front old back : List String}
    (divides : position.Divides (fun target _ key => key = target.name) front old back)
    (nodup : (front ++ old ++ back).Nodup) {payload : OrderedMap String Value} {name : String}
    (other : name ∉ payload.keys) :
    name ∈ front ∨ name ∈ back ↔ name ∈ front ++ old ++ back ∧
      ¬(Edit.insert position (.properties payload)).TakesOut name := by
  cases divides with
  | top | bottom => simp [Edit.TakesOut]
  | before here => simp [Edit.TakesOut]
  | after here => simp [Edit.TakesOut, or_assoc]
  | @replace target _ _ _ here =>
    subst here
    rw [List.append_assoc, List.singleton_append, List.nodup_middle, List.nodup_cons,
      List.mem_append, not_or] at nodup
    have away : name ∈ front ∨ name ∈ back → target.name ≠ name := by
      rintro (member | member) rfl
      · exact nodup.1.1 member
      · exact nodup.1.2 member
    simp only [List.mem_append, List.mem_singleton, Edit.TakesOut, other, not_false_eq_true,
      and_true]
    constructor
    · exact fun member => ⟨member.elim (fun h => .inl (.inl h)) .inr, away member⟩
    · rintro ⟨(member | rfl) | member, differs⟩
      · exact .inl member
      · exact absurd rfl differs
      · exact .inr member

namespace TreeContent

variable {content : TreeContent} {name : String}

/-- One change of content, told by the names that wait and those that have values. -/
structure Alters (content after : TreeContent) (name : String) (waits given : Prop) : Prop where
  type : after.type = content.type
  waits : name ∈ after.valueless ↔ waits
  given : name ∈ after.properties.keys ↔ given

theorem Alters.congr {after : TreeContent} {waits waits' given given' : Prop}
    (alters : content.Alters after name waits given) (same : waits ↔ waits')
    (same' : given ↔ given') : content.Alters after name waits' given' :=
  ⟨alters.type, alters.waits.trans same, alters.given.trans same'⟩

theorem Alters.of_bare {after : TreeContent} (same : after.bare = content.bare) :
    content.Alters after name (name ∈ content.valueless) (name ∈ content.properties.keys) where
  type := show after.bare.type = content.type by rw [same]; rfl
  waits := show name ∈ after.bare.valueless ↔ name ∈ content.valueless by rw [same]; rfl
  given := show name ∈ after.bare.properties.keys ↔ name ∈ content.properties.keys by
    rw [same]; rfl

theorem alters_deleteName (content : TreeContent) (name : String) (first : Nat) (other : String) :
    content.Alters (content.deleteName first other) name
      (name ∈ content.valueless ∧ (content.type = .element ∨ name ≠ other))
      (name ∈ content.properties.keys ∧ (content.type = .element ∨ name ≠ other)) := by
  unfold deleteName
  split
  · next element =>
    refine (Alters.of_bare (bare_deleteElement content first ⟨other, none⟩)).congr ?_ ?_
    all_goals simp [element]
  · next plain =>
    unfold deleteProperty
    split
    · refine ⟨rfl, ?_, ?_⟩
      · simp [plain]
      · dsimp only
        rw [OrderedMap.mem_keys_erase]
        simp [plain, and_comm]
    · next missing =>
      rw [Bool.or_eq_true, not_or, List.contains_iff_mem] at missing
      have unheld : other ∉ content.properties.keys :=
        fun held => missing.1 (OrderedMap.get?_isSome.2 held)
      refine (Alters.of_bare rfl).congr ?_ ?_
      · refine ⟨fun member => ⟨member, .inr ?_⟩, And.left⟩
        rintro rfl
        exact missing.2 member
      · refine ⟨fun member => ⟨member, .inr ?_⟩, And.left⟩
        rintro rfl
        exact unheld member

theorem alters_deleteNames (content : TreeContent) (name : String) (first : Nat)
    (names : List String) :
    content.Alters (names.foldl (fun content name => content.deleteName first name) content) name
      (name ∈ content.valueless ∧ (content.type = .element ∨ name ∉ names))
      (name ∈ content.properties.keys ∧ (content.type = .element ∨ name ∉ names)) := by
  induction names generalizing content with
  | nil => exact (Alters.of_bare rfl).congr (by simp) (by simp)
  | cons other names ih =>
    have step := alters_deleteName content name first other
    have rest := ih (content.deleteName first other)
    refine ⟨rest.type.trans step.type, rest.waits.trans ?_, rest.given.trans ?_⟩
    · rw [step.waits, step.type, List.mem_cons, not_or]
      tauto
    · rw [step.given, step.type, List.mem_cons, not_or]
      tauto

theorem alters_insertProperties (content : TreeContent) (name : String)
    (position : InsertPosition) (payload : OrderedMap String Value) :
    content.Alters (content.insertProperties position payload) name (name ∈ content.valueless)
      ((Edit.insert position (.properties payload)).Supplies content.properties name ∨
        name ∈ content.properties.keys ∧
          ¬(Edit.insert position (.properties payload)).TakesOut name) := by
  unfold insertProperties
  by_cases there : ∀ target ∈ position.target?, target.name ∈ content.properties.keys
  · obtain ⟨front, old, back, result, split, divides, ok, entries⟩ :=
      Content.exists_insertProperties there payload
    rw [ok]
    refine ⟨rfl, .rfl, ?_⟩
    have keys : content.properties.keys =
        front.map Prod.fst ++ old.map Prod.fst ++ back.map Prod.fst := by
      rw [OrderedMap.keys, split, List.map_append, List.map_append]
    have after : result.keys = (front.map Prod.fst).filter (· ∉ payload.keys) ++ payload.keys ++
        (back.map Prod.fst).filter (· ∉ payload.keys) := by
      rw [OrderedMap.keys, entries, List.map_append, List.map_append, OrderedMap.keys_apart,
        OrderedMap.keys_apart]
      rfl
    have nodup : content.properties.keys.Nodup := content.properties.nodup
    rw [keys] at nodup
    dsimp only
    rw [after, List.mem_append, List.mem_append, List.mem_filter, List.mem_filter,
      decide_eq_true_eq]
    by_cases brought : name ∈ payload.keys
    · exact ⟨fun _ => .inl ⟨brought, there⟩, fun _ => .inl (.inr brought)⟩
    · have stays := divides.stays_iff nodup brought
      rw [← keys] at stays
      simp only [brought, not_false_eq_true, and_true, or_false, Edit.Supplies, false_and,
        false_or, stays]
  · obtain ⟨target, points, missing⟩ : ∃ target ∈ position.target?,
        target.name ∉ content.properties.keys := by
      simpa using there
    rw [Content.insertProperties_of_missing points missing payload]
    refine (Alters.of_bare rfl).congr .rfl ?_
    constructor
    · refine fun held => .inr ⟨held, fun taken => ?_⟩
      cases position with
      | replace other =>
        cases points
        exact missing (taken.1 ▸ held)
      | _ => exact taken
    · rintro (⟨-, all⟩ | held)
      · exact absurd (all target points) missing
      · exact held.1

/-- Only insertions give a value to a name that waits, and only a replacement takes one away. -/
theorem alters_apply (content : TreeContent) (name : String)
    (trees : List NodeId → List NodeTree) (first : Nat) (edit : Edit) :
    content.Alters (content.apply trees first edit) name
      (name ∈ content.valueless ∧ (content.type = .element ∨ ¬edit.Deletes name))
      (content.type ≠ .element ∧ edit.Supplies content.properties name ∨
        name ∈ content.properties.keys ∧
          (content.type = .element ∨ ¬edit.TakesOut name)) := by
  unfold apply
  cases edit with
  | deleteNames names =>
    refine (alters_deleteNames content name first names).congr .rfl ?_
    simp [Edit.Supplies, Edit.TakesOut]
  | deleteElement target =>
    refine (Alters.of_bare (bare_deleteElement content first target)).congr ?_ ?_
    all_goals simp [Edit.Supplies, Edit.TakesOut, Edit.Deletes]
  | deleteParent type parent =>
    refine (Alters.of_bare rfl).congr ?_ ?_
    all_goals simp [Edit.Supplies, Edit.TakesOut, Edit.Deletes]
  | insert position payload =>
    cases payload with
    | elements nodes =>
      have same : (if content.type = .element then
          content.insertElements first position (trees nodes) else content).bare =
          content.bare := by
        split
        · exact bare_insertElements content first position (trees nodes)
        · rfl
      refine (Alters.of_bare same).congr ?_ ?_
      all_goals simp [Edit.Supplies, Edit.TakesOut, Edit.Deletes]
    | properties payload =>
      dsimp only
      split
      · next element =>
        refine (Alters.of_bare rfl).congr ?_ ?_
        all_goals simp [element]
      · next plain =>
        refine (alters_insertProperties content name position payload).congr ?_ ?_
        all_goals simp [plain, Edit.Deletes]

/-- Some insertion gives a name a value, and none of the edits behind it takes it out. -/
def Supplied (content : TreeContent) (trees : List NodeId → List NodeTree) (first : Nat)
    (edits : List Edit) (name : String) : Prop :=
  ∃ before edit behind, edits = before ++ edit :: behind ∧
    edit.Supplies (content.applyAll trees first before).properties name ∧
    ∀ later ∈ behind, ¬later.TakesOut name

theorem supplied_cons {trees : List NodeId → List NodeTree} {first : Nat} {edit : Edit}
    {edits : List Edit} :
    content.Supplied trees first (edit :: edits) name ↔
      edit.Supplies content.properties name ∧ (∀ later ∈ edits, ¬later.TakesOut name) ∨
      (content.apply trees first edit).Supplied trees first edits name := by
  constructor
  · rintro ⟨before, here, behind, split, supplies, stays⟩
    cases before with
    | nil =>
      cases split
      exact .inl ⟨supplies, stays⟩
    | cons _ before =>
      cases split
      exact .inr ⟨before, here, behind, rfl, supplies, stays⟩
  · rintro (⟨supplies, stays⟩ | ⟨before, here, behind, rfl, supplies, stays⟩)
    · exact ⟨[], edit, edits, rfl, supplies, stays⟩
    · exact ⟨edit :: before, here, behind, rfl, supplies, stays⟩

/-- A name waits on until it is deleted, and it has a value in the end if it was given one that
stayed. -/
theorem alters_applyAll (content : TreeContent) (name : String)
    (trees : List NodeId → List NodeTree) (first : Nat) (edits : List Edit) :
    content.Alters (content.applyAll trees first edits) name
      (name ∈ content.valueless ∧ (content.type = .element ∨ ∀ edit ∈ edits, ¬edit.Deletes name))
      (content.type ≠ .element ∧ content.Supplied trees first edits name ∨
        name ∈ content.properties.keys ∧
          (content.type = .element ∨ ∀ edit ∈ edits, ¬edit.TakesOut name)) := by
  induction edits generalizing content with
  | nil => exact (Alters.of_bare rfl).congr (by simp) (by simp [Supplied])
  | cons edit edits ih =>
    have step := alters_apply content name trees first edit
    have rest := ih (content.apply trees first edit)
    refine ⟨rest.type.trans step.type, rest.waits.trans ?_, rest.given.trans ?_⟩
    · rw [step.waits, step.type, List.forall_mem_cons]
      tauto
    · rw [step.given, step.type, List.forall_mem_cons, supplied_cons]
      tauto

theorem alters_fill (content : TreeContent) (name : String) (fills : OrderedMap String Value) :
    content.Alters (content.fill fills) name (name ∈ content.valueless ∧ name ∉ fills.keys)
      (name ∈ content.properties.keys ∨ name ∈ fills.keys) := by
  unfold fill
  change content.Alters _ name (_ ∧ name ∉ fills.toList.map Prod.fst)
    (_ ∨ name ∈ fills.toList.map Prod.fst)
  generalize fills.toList = entries
  induction entries generalizing content with
  | nil => exact (Alters.of_bare rfl).congr (by simp) (by simp)
  | cons e entries ih =>
    have rest := ih { content with
      valueless := content.valueless.filter (· ≠ e.1)
      properties := content.properties.insert e.1 e.2 }
    refine ⟨rest.type, rest.waits.trans ?_, rest.given.trans ?_⟩
    · rw [List.map_cons, List.mem_cons, List.mem_filter, decide_eq_true_eq]
      tauto
    · rw [List.map_cons, List.mem_cons, OrderedMap.mem_keys_insert]
      tauto

/-- A definition's own content and what it inherits leave no name both with and without a value. -/
theorem not_mem_keys_withOwn {inherited own : TreeContent}
    (waits : name ∈ (inherited.withOwn own).valueless) :
    name ∉ (inherited.withOwn own).properties.keys := by
  have unheld := (List.mem_filter.1 waits).2
  intro held
  have there : (inherited.withOwn own).properties.contains name = true :=
    OrderedMap.get?_isSome.2 held
  rw [Bool.not_eq_true'] at unheld
  exact Bool.false_ne_true (unheld.symm.trans there)

theorem applyAll_filter (content : TreeContent) (trees : List NodeId → List NodeTree)
    (first : Nat) (edits : List Edit) :
    content.applyAll trees first (edits.filter fun edit => !Resolve.isParentDeletion edit) =
      content.applyAll trees first edits := by
  induction edits generalizing content with
  | nil => rfl
  | cons edit edits ih =>
    cases edit with
    | deleteParent type name => exact ih content
    | _ => exact ih _

end TreeContent

end TemplateMarkup
