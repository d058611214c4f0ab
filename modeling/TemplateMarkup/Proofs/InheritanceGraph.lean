import Mathlib.Data.List.Chain
import Mathlib.Logic.Relation
import TemplateMarkup.Proofs.OrderedMapLookup
import TemplateMarkup.Proofs.ResolveSteps

/-! Inheritance as a graph on definitions, and the cycle that a search through the parents in
their order meets first. -/
namespace TemplateMarkup.SymbolTable

/-- A definition has a parent that none of its edits deletes and that looks up to `parent`. -/
def Inherits (table : SymbolTable) (child parent : DefinitionKey) : Prop :=
  ∃ definition, table.definition? child = some definition ∧
    ∃ inheritance ∈ definition.parents,
      (∀ type name, Edit.deleteParent type name ∈ definition.edits →
        ¬(inheritance.parent.type = type ∧ inheritance.parent.name = name)) ∧
      table.usageKey (Resolve.parentUsage child inheritance.parent) = some parent

def ReachesCycle (table : SymbolTable) (key : DefinitionKey) : Prop :=
  ∃ member, Relation.ReflTransGen table.Inherits key member ∧
    Relation.TransGen table.Inherits member member

/-- Every way up from a definition ends. -/
def Settles (table : SymbolTable) (key : DefinitionKey) : Prop :=
  Acc (fun parent child => table.Inherits child parent) key

variable {table : SymbolTable} {key : DefinitionKey}

theorem Settles.not_reachesCycle
    (h : table.Settles key) : ¬table.ReachesCycle key := by
  induction h with
  | intro child _ ih =>
    rintro ⟨member, reach, cycle⟩
    rcases Relation.ReflTransGen.cases_head reach with rfl | ⟨parent, step, rest⟩
    · obtain ⟨parent, step, back⟩ := Relation.TransGen.head'_iff.1 cycle
      exact ih parent step ⟨child, back, cycle⟩
    · exact ih parent step ⟨member, rest, cycle⟩

/-- The definitions that a definition inherits from, in the order in which they are taken over. -/
def parentKeys (table : SymbolTable) (definition : Definition) : List DefinitionKey :=
  (Resolve.leftParents definition.edits definition.parents).filterMap fun inheritance =>
    table.usageKey (Resolve.parentUsage definition.key inheritance.parent)

theorem mem_leftParents {edits : List Edit} {parents : List Inheritance} {p : Inheritance} :
    p ∈ Resolve.leftParents edits parents ↔
      p ∈ parents ∧ ∀ type name, Edit.deleteParent type name ∈ edits →
        ¬(p.parent.type = type ∧ p.parent.name = name) := by
  simp only [Resolve.leftParents, List.mem_filter, Bool.not_eq_true', List.any_eq_false,
    beq_iff_eq]
  constructor
  · rintro ⟨member, kept⟩
    refine ⟨member, ?_⟩
    rintro type name deleted ⟨rfl, rfl⟩
    exact kept _ deleted rfl
  · rintro ⟨member, kept⟩
    refine ⟨member, ?_⟩
    rintro edit deleted rfl
    exact kept _ _ deleted ⟨rfl, rfl⟩

/-- The table stores every definition under its own key. -/
def Keyed (table : SymbolTable) : Prop :=
  ∀ key definition, table.definition? key = some definition → definition.key = key

theorem inherits_iff (keyed : table.Keyed) {child parent : DefinitionKey}
    {definition : Definition} (h : table.definition? child = some definition) :
    table.Inherits child parent ↔ parent ∈ table.parentKeys definition := by
  simp only [parentKeys, List.mem_filterMap, mem_leftParents, keyed _ _ h]
  constructor
  · rintro ⟨d, hd, inheritance, member, kept, found⟩
    cases h.symm.trans hd
    exact ⟨inheritance, ⟨member, kept⟩, found⟩
  · rintro ⟨inheritance, ⟨member, kept⟩, found⟩
    exact ⟨definition, h, inheritance, member, kept, found⟩

theorem lookupKey_registered {name scope : String}
    {type : DefinitionType} {kind : Option DefinitionKind}
    (h : table.lookupKey name type kind scope = some key) :
    ∃ definition, table.definition? key = some definition := by
  obtain ⟨_, qualified, _, _, found, _⟩ := List.findSome?_eq_some_iff.1 h
  have present : table.definitions.contains key = true := List.find?_some found
  exact Option.isSome_iff_exists.1 present

theorem Inherits.registered {child parent : DefinitionKey}
    (h : table.Inherits child parent) :
    ∃ definition, table.definition? parent = some definition := by
  obtain ⟨_, _, _, _, _, found⟩ := h
  exact lookupKey_registered found

/-- The cycle that the search meets first below the definitions in `path`: at a definition of the
path it closes, and otherwise it goes on with the first parent that does not settle. -/
inductive FirstCycle (table : SymbolTable) :
    List DefinitionKey → DefinitionKey → List String → Prop
  | close {path : List DefinitionKey} {key : DefinitionKey} (seen : key ∈ path) :
      FirstCycle table path key (Resolve.cycleOf path key)
  | descend {path before after : List DefinitionKey} {key next : DefinitionKey}
      {definition : Definition} {names : List String} (new : key ∉ path)
      (found : table.definition? key = some definition)
      (parents : table.parentKeys definition = before ++ next :: after)
      (settled : ∀ parent ∈ before, table.Settles parent)
      (rest : FirstCycle table (path ++ [key]) next names) :
      FirstCycle table path key names

/-- A closed walk in the graph of inheritance, given by the names on it. -/
def IsCycle (table : SymbolTable) (names : List String) : Prop :=
  ∃ keys : List DefinitionKey, names = keys.map (·.name.label) ∧ 2 ≤ keys.length ∧
    keys.head? = keys.getLast? ∧ keys.IsChain table.Inherits

variable {path : List DefinitionKey}

theorem cycleOf_split (seen : key ∈ path) :
    ∃ before inner, path = before ++ key :: inner ∧
      Resolve.cycleOf path key = (key :: (inner ++ [key])).map (·.name.label) := by
  obtain ⟨i, found⟩ : ∃ i, path.findIdx? (· = key) = some i := by
    rw [← Option.isSome_iff_exists, List.findIdx?_isSome, List.any_eq_true]
    exact ⟨key, seen, by simp⟩
  obtain ⟨bound, here, _⟩ := List.findIdx?_eq_some_iff_getElem.1 found
  have here : path[i] = key := by simpa using here
  have dropped : path.drop i = key :: path.drop (i + 1) := by
    rw [List.drop_eq_getElem_cons bound, here]
  refine ⟨path.take i, path.drop (i + 1), ?_, ?_⟩
  · rw [← dropped, List.take_append_drop]
  · rw [Resolve.cycleOf, found, Option.getD_some, dropped, List.cons_append]

theorem isCycle_cycleOf
    (trail : (path ++ [key]).IsChain table.Inherits) (seen : key ∈ path) :
    table.IsCycle (Resolve.cycleOf path key) ∧ table.ReachesCycle key := by
  obtain ⟨before, inner, rfl, names⟩ := cycleOf_split seen
  rw [List.append_assoc, List.cons_append] at trail
  have chain := trail.right_of_append
  have ends : (key :: (inner ++ [key])).getLast? = some key := by
    rw [← List.cons_append, List.getLast?_concat]
  refine ⟨⟨key :: (inner ++ [key]), names, by simp, ends.symm, chain⟩, key, .refl, ?_⟩
  cases inner with
  | nil => exact .single (List.isChain_pair.1 chain)
  | cons next rest =>
    obtain ⟨step, chain⟩ := List.isChain_cons_cons.1 chain
    exact .head' step (List.relationReflTransGen_of_exists_isChain_cons _ chain (by simp))

/-- Every definition on a closed walk reaches a cycle. -/
theorem reachesCycle_of_closed {keys : List DefinitionKey}
    (chain : keys.IsChain table.Inherits) (two : 2 ≤ keys.length)
    (closed : keys.head? = keys.getLast?) (member : key ∈ keys) : table.ReachesCycle key := by
  obtain ⟨first, next, rest, rfl⟩ : ∃ first next rest, keys = first :: next :: rest := by
    cases keys with
    | nil => simp at two
    | cons first keys =>
      cases keys with
      | nil => simp at two
      | cons next rest => exact ⟨first, next, rest, rfl⟩
  obtain ⟨step, tail⟩ := List.isChain_cons_cons.1 chain
  have back : Relation.ReflTransGen table.Inherits next first := by
    refine List.relationReflTransGen_of_exists_isChain_cons rest tail ?_
    rw [List.head?_cons, List.getLast?_cons_cons, List.getLast?_eq_some_getLast (by simp)] at closed
    exact (Option.some.inj closed).symm
  obtain ⟨front, after, split⟩ := List.append_of_mem member
  have reach : Relation.ReflTransGen table.Inherits key first := by
    rw [split] at chain
    refine List.relationReflTransGen_of_exists_isChain_cons after chain.right_of_append ?_
    rw [List.head?_cons, split, List.getLast?_append_of_ne_nil _ (by simp),
      List.getLast?_eq_some_getLast (by simp)] at closed
    exact (Option.some.inj closed).symm
  exact ⟨first, reach, .head' step back⟩

theorem isChain_descend
    {next : DefinitionKey} (trail : (path ++ [key]).IsChain table.Inherits)
    (step : table.Inherits key next) : (path ++ [key] ++ [next]).IsChain table.Inherits := by
  refine trail.append (.singleton next) ?_
  intro last hlast first hfirst
  rw [List.getLast?_append_of_ne_nil _ (List.cons_ne_nil _ _), List.getLast?_singleton] at hlast
  cases hlast
  cases hfirst
  exact step

variable {names : List String}

theorem FirstCycle.isCycle (keyed : table.Keyed)
    (h : table.FirstCycle path key names) (trail : (path ++ [key]).IsChain table.Inherits) :
    table.IsCycle names ∧ table.ReachesCycle key := by
  induction h with
  | close seen => exact isCycle_cycleOf trail seen
  | @descend path before after key next definition names _ found parents _ _ ih =>
    have step : table.Inherits key next :=
      (inherits_iff keyed found).2 (by rw [parents]; simp)
    obtain ⟨cycle, member, reach, closed⟩ := ih (isChain_descend trail step)
    exact ⟨cycle, member, reach.head step, closed⟩

/-- The first parent that does not settle is the same in every search. -/
private theorem first_unsettled {settles : DefinitionKey → Prop} {next next' : DefinitionKey}
    {before after before' after' : List DefinitionKey}
    (same : before ++ next :: after = before' ++ next' :: after')
    (settled : ∀ k ∈ before, settles k) (settled' : ∀ k ∈ before', settles k)
    (open₁ : ¬settles next) (open₂ : ¬settles next') : next = next' := by
  induction before generalizing before' with
  | nil =>
    cases before' with
    | nil => exact (List.cons.inj same).1
    | cons k rest =>
      cases (List.cons.inj same).1
      exact absurd (settled' _ List.mem_cons_self) open₁
  | cons k rest ih =>
    cases before' with
    | nil =>
      cases (List.cons.inj same).1
      exact absurd (settled _ List.mem_cons_self) open₂
    | cons k' rest' =>
      exact ih (List.cons.inj same).2 (fun j hj => settled j (List.mem_cons_of_mem _ hj))
        fun j hj => settled' j (List.mem_cons_of_mem _ hj)

theorem FirstCycle.registered (first : table.FirstCycle path key names)
    (new : key ∉ path) :
    ∃ definition, table.definition? key = some definition := by
  cases first with
  | close seen => exact absurd seen new
  | descend _ found => exact ⟨_, found⟩

/-- The search meets one cycle. -/
theorem FirstCycle.unique (keyed : table.Keyed) {names' : List String}
    (h : table.FirstCycle path key names) (h' : table.FirstCycle path key names')
    (trail : (path ++ [key]).IsChain table.Inherits) : names = names' := by
  induction h generalizing names' with
  | close seen =>
    cases h' with
    | close => rfl
    | descend new => exact absurd seen new
  | @descend path before after key next definition names new found parents settled rest ih =>
    cases h' with
    | close seen => exact absurd seen new
    | @descend _ before' after' _ next' _ _ _ found' parents' settled' rest' =>
      cases found.symm.trans found'
      have step : table.Inherits key next :=
        (inherits_iff keyed found).2 (by rw [parents]; simp)
      have step' : table.Inherits key next' :=
        (inherits_iff keyed found).2 (by rw [parents']; simp)
      have opened (k : DefinitionKey) (names : List String) (hs : table.Inherits key k)
          (hk : table.FirstCycle (path ++ [key]) k names) : ¬table.Settles k := fun settles =>
        settles.not_reachesCycle (hk.isCycle keyed (isChain_descend trail hs)).2
      cases first_unsettled (parents.symm.trans parents') settled settled'
        (opened _ _ step rest) (opened _ _ step' rest')
      exact ih rest' (isChain_descend trail step)

end TemplateMarkup.SymbolTable
