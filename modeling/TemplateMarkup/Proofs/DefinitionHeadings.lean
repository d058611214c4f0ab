import TemplateMarkup.Proofs.InheritanceGraph

/-! Resolving writes over the body of a definition and leaves its heading alone, so lookups and the
graph of inheritance stay as they are. -/
namespace TemplateMarkup

/-- A definition without what resolving writes over. -/
def Definition.heading (definition : Definition) : Definition :=
  { definition with properties := {}, elements := [], valueless := [], resolution := .pending }

namespace SymbolTable

/-- Two tables that differ in the bodies of their definitions and the counts of names at most. -/
structure Resembles (table table' : SymbolTable) : Prop where
  rest : table' =
    { table with
      definitions := table'.definitions
      classCounts := table'.classCounts
      idCounts := table'.idCounts }
  keys : table'.definitions.keys = table.definitions.keys
  headings : ∀ key, (table'.definition? key).map Definition.heading =
    (table.definition? key).map Definition.heading

theorem Resembles.refl (table : SymbolTable) : table.Resembles table :=
  ⟨rfl, rfl, fun _ => rfl⟩

theorem Resembles.trans {a b c : SymbolTable} (h : a.Resembles b) (h' : b.Resembles c) :
    a.Resembles c where
  rest := by rw [h'.rest, h.rest]
  keys := h'.keys.trans h.keys
  headings key := (h'.headings key).trans (h.headings key)

theorem definition?_modifyDefinition (table : SymbolTable) (key k : DefinitionKey)
    (f : Definition → Definition) :
    (table.modifyDefinition key f).definition? k =
      if k = key then (table.definition? k).map f else table.definition? k :=
  OrderedMap.get?_modify table.definitions key k f

section Modify

variable {table : SymbolTable} {key k : DefinitionKey} {f : Definition → Definition}
  {definition : Definition}

theorem definition?_modify_self (found : table.definition? key = some definition) :
    (table.modifyDefinition key f).definition? key = some (f definition) := by
  rw [definition?_modifyDefinition, if_pos rfl, found, Option.map_some]

theorem definition?_modify_other (other : k ≠ key) :
    (table.modifyDefinition key f).definition? k = table.definition? k := by
  rw [definition?_modifyDefinition, if_neg other]

/-- What is found was changed, or was there before. -/
theorem modify_cases (found : (table.modifyDefinition key f).definition? k = some definition) :
    (k = key ∧ ∃ d, table.definition? k = some d ∧ f d = definition) ∨
      k ≠ key ∧ table.definition? k = some definition := by
  rw [definition?_modifyDefinition] at found
  split at found
  · next same => exact .inl ⟨same, Option.map_eq_some_iff.1 found⟩
  · next other => exact .inr ⟨other, found⟩

end Modify

theorem resembles_modifyDefinition (table : SymbolTable) (key : DefinitionKey)
    {f : Definition → Definition} (hf : ∀ d, (f d).heading = d.heading) :
    table.Resembles (table.modifyDefinition key f) where
  rest := rfl
  keys := OrderedMap.keys_modify _ _ _
  headings k := by
    rw [definition?_modifyDefinition]
    split
    · simp [Function.comp_def, hf]
    · rfl

theorem parentKeys_eq (table : SymbolTable) {definition original : Definition}
    (same : definition.heading = original.heading) :
    table.parentKeys definition = table.parentKeys original := by
  have key : definition.key = original.key := congrArg (·.key) same
  have edits : definition.edits = original.edits := congrArg (·.edits) same
  have parents : definition.parents = original.parents := congrArg (·.parents) same
  simp only [parentKeys, key, edits, parents]

namespace Resembles

variable {table table' : SymbolTable} (h : table.Resembles table')

include h

theorem size : table'.definitions.size = table.definitions.size := by
  rw [OrderedMap.size_eq_length_keys, h.keys, OrderedMap.size_eq_length_keys]

theorem config : table'.config = table.config := by rw [h.rest]

theorem origins : table'.origins = table.origins := by rw [h.rest]

theorem definition?_isSome (key : DefinitionKey) :
    (table'.definition? key).isSome = (table.definition? key).isSome := by
  have := congrArg Option.isSome (h.headings key)
  simpa using this

variable {key : DefinitionKey}

theorem definition?_eq_none (absent : table.definition? key = none) :
    table'.definition? key = none := by
  have same := h.definition?_isSome key
  rw [absent] at same
  simpa using same

theorem contains : table'.definitions.contains = table.definitions.contains :=
  funext h.definition?_isSome

theorem lookupKey (name : String) (type : DefinitionType) (kind : Option DefinitionKind)
    (scope : String) :
    table'.lookupKey name type kind scope = table.lookupKey name type kind scope := by
  rw [SymbolTable.lookupKey, h.contains, SymbolTable.lookupKey]

theorem usageKey (usage : Usage) : table'.usageKey usage = table.usageKey usage :=
  h.lookupKey _ _ _ _

/-- A definition in one table stands in the other with the same heading. -/
theorem exists_heading {definition : Definition}
    (found : table'.definition? key = some definition) :
    ∃ original, table.definition? key = some original ∧
      definition.heading = original.heading := by
  have same := h.headings key
  rw [found, Option.map_some] at same
  obtain ⟨original, hd, heading⟩ := Option.map_eq_some_iff.1 same.symm
  exact ⟨original, hd, heading.symm⟩

theorem exists_heading' {original : Definition} (found : table.definition? key = some original) :
    ∃ definition, table'.definition? key = some definition ∧
      definition.heading = original.heading := by
  have same := h.headings key
  rw [found, Option.map_some] at same
  exact Option.map_eq_some_iff.1 same

theorem keyed (keyed : table.Keyed) : table'.Keyed := by
  intro key definition found
  obtain ⟨original, hd, same⟩ := h.exists_heading found
  exact (congrArg (·.key) same).trans (keyed key original hd)

theorem parentKeys (definition : Definition) :
    table'.parentKeys definition = table.parentKeys definition := by
  simp only [SymbolTable.parentKeys, h.usageKey]

theorem inherits (keyed : table.Keyed) : table'.Inherits = table.Inherits := by
  have keyed' := h.keyed keyed
  funext child parent
  apply propext
  constructor
  · intro step
    have ⟨definition, found, _⟩ := step
    obtain ⟨original, registered, same⟩ := h.exists_heading found
    rwa [inherits_iff keyed registered, ← table.parentKeys_eq same, ← h.parentKeys,
      ← inherits_iff keyed' found]
  · intro step
    have ⟨original, registered, _⟩ := step
    obtain ⟨definition, found, same⟩ := h.exists_heading' registered
    rwa [inherits_iff keyed' found, h.parentKeys, table.parentKeys_eq same,
      ← inherits_iff keyed registered]

end Resembles

/-- No definition has been worked out, and each stands under its own key. -/
structure Unresolved (table : SymbolTable) : Prop where
  keyed : table.Keyed
  pending : ∀ key definition, table.definition? key = some definition →
    definition.resolution = .pending

theorem unresolved_of_entries {table : SymbolTable}
    (h : ∀ e ∈ table.definitions.entries, e.2.key = e.1 ∧ e.2.resolution = .pending) :
    table.Unresolved where
  keyed _ _ found := (h _ (OrderedMap.mem_entries_of_get? found)).1
  pending _ _ found := (h _ (OrderedMap.mem_entries_of_get? found)).2

end SymbolTable

end TemplateMarkup
