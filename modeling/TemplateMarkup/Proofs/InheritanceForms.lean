import TemplateMarkup.Proofs.InheritedContent

/-! A parent may be inherited from by name or composed in. The two forms differ in what a warning
says, and in nothing that a definition comes to. -/
namespace TemplateMarkup

namespace OrderedMap

variable {κ ν : Type}

/-- Changes all values. -/
def mapValues (f : ν → ν) (m : OrderedMap κ ν) : OrderedMap κ ν :=
  ⟨m.entries.map fun e => (e.1, f e.2), by simpa [Function.comp_def] using m.nodup⟩

theorem values_mapValues (f : ν → ν) (m : OrderedMap κ ν) :
    (m.mapValues f).values = m.values.map f := by
  simp [mapValues, values]

theorem get?_mapValues [DecidableEq κ] (f : ν → ν) (m : OrderedMap κ ν) (key : κ) :
    (m.mapValues f).get? key = (m.get? key).map f := by
  change lookupEntry key (m.entries.map fun e => (e.1, f e.2)) = (lookupEntry key m.entries).map f
  generalize m.entries = entries
  induction entries with
  | nil => rfl
  | cons e entries ih =>
    obtain ⟨k, value⟩ := e
    rw [List.map_cons, lookupEntry, lookupEntry, ih]
    split <;> rfl

end OrderedMap

/-- A parent, whichever its form. -/
def Inheritance.formless (inheritance : Inheritance) : Inheritance :=
  { inheritance with explicit := false }

/-- A definition, whichever the forms of its parents. -/
def Definition.formless (definition : Definition) : Definition :=
  { definition with parents := definition.parents.map Inheritance.formless }

namespace Document

/-- A document, whichever the forms of the parents in it. -/
def formless (document : Document) : Document :=
  { document with symbols := { document.symbols with
      definitions := document.symbols.definitions.mapValues Definition.formless } }

variable {document other : Document} {key : DefinitionKey}

theorem definition?_formless (document : Document) (key : DefinitionKey) :
    document.formless.symbols.definition? key =
      (document.symbols.definition? key).map Definition.formless :=
  OrderedMap.get?_mapValues _ _ _

theorem usageKey_formless (document : Document) (usage : Usage) :
    document.formless.symbols.usageKey usage = document.symbols.usageKey usage := by
  have contains : document.formless.symbols.definitions.contains =
      document.symbols.definitions.contains := by
    funext key
    have same := congrArg Option.isSome (document.definition?_formless key)
    rwa [Option.isSome_map] at same
  unfold SymbolTable.usageKey SymbolTable.lookupKey
  rw [contains]

theorem owned_formless (document : Document) :
    document.formless.symbols.owned = document.symbols.owned := by
  unfold SymbolTable.owned
  rw [show document.formless.symbols.definitions.values =
    document.symbols.definitions.values.map Definition.formless from
      OrderedMap.values_mapValues _ _, List.flatMap_map]
  rfl

theorem leftParents_formless (edits : List Edit) (parents : List Inheritance) :
    Resolve.leftParents edits (parents.map Inheritance.formless) =
      (Resolve.leftParents edits parents).map Inheritance.formless := by
  unfold Resolve.leftParents
  rw [List.filter_map]
  rfl

/-- The form of a parent has no part in what a definition means. -/
theorem meaning_formless (document : Document) (fuel : Nat) (key : DefinitionKey) :
    document.formless.meaning fuel key = document.meaning fuel key := by
  induction fuel generalizing key with
  | zero => rfl
  | succ fuel ih =>
    have step (content : TreeContent) (inheritance : Inheritance) :
        document.formless.inheritFrom (document.formless.meaning fuel) key content
            inheritance.formless =
          document.inheritFrom (document.meaning fuel) key content inheritance := by
      unfold inheritFrom
      simp only [usageKey_formless, ih]
      rfl
    rw [meaning, meaning, definition?_formless]
    cases document.symbols.definition? key with
    | none => rfl
    | some definition =>
      have parents : Resolve.leftParents definition.formless.edits definition.formless.parents =
          (Resolve.leftParents definition.edits definition.parents).map Inheritance.formless :=
        leftParents_formless definition.edits definition.parents
      simp only [Option.map_some, Option.bind_eq_bind, Option.bind_some]
      rw [parents, List.foldlM_map]
      simp only [step]
      rfl

theorem inherits_formless (document : Document) :
    document.formless.symbols.Inherits = document.symbols.Inherits := by
  funext child parent
  apply propext
  unfold SymbolTable.Inherits
  simp only [usageKey_formless, definition?_formless, Option.map_eq_some_iff]
  constructor
  · rintro ⟨_, ⟨definition, found, rfl⟩, _, member, kept, up⟩
    obtain ⟨inheritance, inside, rfl⟩ := List.mem_map.1 member
    exact ⟨definition, found, inheritance, inside, kept, up⟩
  · rintro ⟨definition, found, inheritance, member, kept, up⟩
    exact ⟨_, ⟨definition, found, rfl⟩, _, List.mem_map_of_mem member, kept, up⟩

section Alike

variable (alike : other.formless = document.formless)

include alike

/-- The same definition stands in both documents, but for the forms of its parents. -/
theorem exists_of_formless_eq {definition : Definition}
    (found : other.symbols.definition? key = some definition) :
    ∃ twin, document.symbols.definition? key = some twin ∧
      definition.formless = twin.formless := by
  have same := document.definition?_formless key
  rw [← alike, definition?_formless, found, Option.map_some] at same
  obtain ⟨twin, there, eq⟩ := Option.map_eq_some_iff.1 same.symm
  exact ⟨twin, there, eq.symm⟩

theorem forest_of_formless_eq : other.forest = document.forest :=
  congrArg (·.forest) alike

theorem brings_of_formless_eq {id : NodeId} (brings : other.Brings id) : document.Brings id := by
  rcases brings with ⟨usage, occurs, member⟩ | ⟨key, definition, found, member⟩
  · refine .inl ⟨usage, ?_, member⟩
    rcases occurs with ⟨node, slot, there, inside⟩ | ⟨key, definition, found, p, up, rfl⟩
    · rw [forest_of_formless_eq alike] at there
      exact .inl ⟨node, slot, there, inside⟩
    · obtain ⟨twin, there, same⟩ := exists_of_formless_eq alike found
      have parents : definition.parents.map Inheritance.formless =
          twin.parents.map Inheritance.formless := congrArg (·.parents) same
      obtain ⟨q, inside, eq⟩ := List.mem_map.1 (parents ▸ List.mem_map_of_mem up)
      exact .inr ⟨key, twin, there, q, inside, congrArg (·.parent) eq⟩
  · obtain ⟨twin, there, same⟩ := exists_of_formless_eq alike found
    refine .inr ⟨key, twin, there, ?_⟩
    rwa [show twin.edits = definition.edits from congrArg (·.edits) same.symm]

theorem unresolved_of_formless_eq (unresolved : document.symbols.Unresolved) :
    other.symbols.Unresolved where
  keyed := by
    intro key definition found
    obtain ⟨twin, there, same⟩ := exists_of_formless_eq alike found
    exact (congrArg (·.key) same).trans (unresolved.keyed key twin there)
  pending := by
    intro key definition found
    obtain ⟨twin, there, same⟩ := exists_of_formless_eq alike found
    exact (congrArg (·.resolution) same).trans (unresolved.pending key twin there)

theorem stored_of_formless_eq (unresolved : document.symbols.Unresolved)
    (stored : Stored document document) : Stored other other := by
  have forest := forest_of_formless_eq alike
  have owned : other.symbols.owned = document.symbols.owned := by
    rw [← owned_formless, alike, owned_formless]
  refine ⟨.refl _, ?_, ?_, ?_, ?_⟩
  · rw [forest]
    exact stored.grown
  · rw [forest, owned]
    exact stored.roots
  · intro id brings
    obtain ⟨root, outside, -⟩ := stored.brought id (brings_of_formless_eq alike brings)
    rw [forest, owned]
    exact ⟨root, outside, rfl⟩
  · intro key definition found
    obtain ⟨twin, there, same⟩ := exists_of_formless_eq alike found
    have pending := (unresolved_of_formless_eq alike unresolved).pending key definition found
    have tells := stored.tells key twin there
    unfold Tells at tells ⊢
    rw [if_neg (by simp [unresolved.pending key twin there])] at tells
    rw [if_neg (by simp [pending])]
    refine ⟨by rw [found, ← pending], rfl, rfl, ?_⟩
    have elements : definition.elements = twin.elements := congrArg (·.elements) same
    unfold bodyOf
    rw [forest, elements]
    exact tells.2.elements

theorem succeeds_of_formless_eq {view : TreeContent}
    (succeeds : Resolve.Succeeds document key view) : Resolve.Succeeds other key view := by
  obtain ⟨⟨fuel, known⟩, settles⟩ := succeeds
  constructor
  · refine ⟨fuel, ?_⟩
    rw [← meaning_formless, alike, meaning_formless, known]
  · unfold SymbolTable.Settles at settles ⊢
    rwa [← inherits_formless, alike, inherits_formless]

end Alike

end Document

namespace Resolve

/-- A definition without edits comes to its own content and what its parents give, those that are
defined, in the order in which they are declared: its own values win over those of the parents and
later parents over earlier ones, keys stand where they first occur, names wait that have no value in
the end, and the elements of the parents follow its own as new subtrees that nothing else holds. It
comes to the same whichever of the parents are inherited from and whichever composed in. -/
theorem resolve_madeOf {document : Document} (unresolved : document.symbols.Unresolved)
    (stored : Stored document document) (earlier : List Demand) {key : DefinitionKey}
    {definition : Definition} (found : document.symbols.definition? key = some definition)
    (plain : definition.edits = []) {s' : ResolveState}
    (ended : resolve key (Demand.runAll earlier { document }) = .ok () s') :
    let received (p : Inheritance) :=
      received? (parentUsage key p.parent) (Demand.runAll earlier { document })
    (∀ p ∈ definition.parents, (received p).isSome =
      (document.symbols.usageKey (parentUsage key p.parent)).isSome) ∧
    ∃ resolved, s'.document.symbols.definition? key = some resolved ∧
      s'.document.forest.Roots s'.document.symbols.owned ∧
      definition.MadeOf (definition.parents.filterMap received) document.forest resolved
        s'.document.forest ∧
      ∀ other : Document, other.formless = document.formless → ∀ demands : List Demand,
        ∃ t twin, resolve key (Demand.runAll demands { document := other }) = .ok () t ∧
          t.document.symbols.definition? key = some twin ∧
          twin.reading t.document.forest = resolved.reading s'.document.forest := by
  intro received
  obtain ⟨defined, resolved, there, roots, made⟩ :=
    madeOf_of_ok unresolved stored earlier found plain ended
  refine ⟨defined, resolved, there, roots, made, fun other alike demands => ?_⟩
  have outcome {d : Document} (unresolved : d.symbols.Unresolved) (stored : Stored d d)
      (calls : List Demand) :
      Answers d key (Demand.runAll calls { document := d })
        (resolve key (Demand.runAll calls { document := d })) :=
    resolve_answers unresolved.keyed key (Demand.standing_runAll unresolved.keyed
      ⟨stored, rests_of_unresolved unresolved⟩ calls)
  have answers := outcome unresolved stored earlier
  rw [ended] at answers
  obtain ⟨-, view, record, succeeds, there', shown⟩ := answers
  cases there.symm.trans there'
  have succeeds' := Document.succeeds_of_formless_eq alike succeeds
  have unresolved' := Document.unresolved_of_formless_eq alike unresolved
  have answers' := outcome unresolved' (Document.stored_of_formless_eq alike unresolved stored)
    demands
  cases run : resolve key (Demand.runAll demands { document := other }) with
  | error e t =>
    rw [run] at answers'
    exact absurd answers'.2 (succeeds'.not_fails unresolved'.keyed)
  | ok _ t =>
    rw [run] at answers'
    obtain ⟨-, view', twin, succeeds'', found', shown'⟩ := answers'
    cases succeeds'.means.unique succeeds''.means
    refine ⟨t, twin, rfl, found', ?_⟩
    unfold Definition.reading
    rw [shown.properties, shown.valueless, shown.elements, shown'.properties, shown'.valueless,
      shown'.elements]

/-- A parent that is inherited from, one that is composed in and fills a name, and one that is not
defined. -/
theorem resolve_madeOf_three :
    let source := "[Custom] @Style A \x7b a: 1; b; c; \x7d [Custom] @Style B \x7b b: 2; " ++
      "a: 3; d; \x7d [Custom] @Style C \x7b inherit @Style A; @Style B \x7b d: 4; \x7d " ++
      "@Style D; e: 5; \x7d"
    let key : DefinitionKey := ⟨.custom, .style, ⟨"", "C"⟩⟩
    ∃ stream, (TokenStream.ofSource source).toOption = some stream ∧
      let document := (ParseResult.ofTokens source stream.tokens {} {}).document
      document.symbols.Unresolved ∧ Stored document document ∧
      ∃ definition s' resolved, document.symbols.definition? key = some definition ∧
        definition.edits = [] ∧ resolve key { document } = .ok () s' ∧
        s'.document.symbols.definition? key = some resolved ∧
        resolved.properties.toList = [("a", .literal "3"), ("b", .literal "2"),
          ("d", .literal "4"), ("e", .literal "5")] ∧
        resolved.valueless = ["c"] ∧
        definition.MadeOf (definition.parents.filterMap fun p =>
          received? (parentUsage key p.parent) { document }) document.forest resolved
          s'.document.forest := by
  intro source key
  have read : (TokenStream.ofSource source).toOption.map (fun stream =>
      ((ParseResult.ofTokens source stream.tokens {} {}).document.symbols.definition? key).map
        (·.edits.isEmpty)) = some (some true) := by
    decide +kernel
  have run : (TokenStream.ofSource source).toOption.map (fun stream =>
      let document := (ParseResult.ofTokens source stream.tokens {} {}).document
      let ended := resolve key { document }
      ((errorOf? ended).isNone,
        ((stateAfter ended).document.symbols.definition? key).map fun d =>
          (d.properties.toList, d.valueless))) =
      some (true, some ([("a", .literal "3"), ("b", .literal "2"), ("d", .literal "4"),
        ("e", .literal "5")], ["c"])) := by
    decide +kernel
  obtain ⟨stream, tokens, read⟩ := Option.map_eq_some_iff.1 read
  obtain ⟨definition, found, plain⟩ := Option.map_eq_some_iff.1 read
  rw [tokens, Option.map_some] at run
  simp only [Option.some.injEq, Prod.mk.injEq, Option.map_eq_some_iff] at run
  obtain ⟨succeeds, resolved, there, properties, waits⟩ := run
  have sound := ParseResult.sound_ofTokens source stream.tokens {} {}
  cases ended : resolve key
      { document := (ParseResult.ofTokens source stream.tokens {} {}).document } with
  | error e s' =>
    rw [ended] at succeeds
    cases succeeds
  | ok _ s' =>
    rw [ended] at there
    obtain ⟨-, record, there', -, made, -⟩ :=
      resolve_madeOf sound.unresolved sound.stored [] found (List.isEmpty_iff.1 plain) ended
    cases there.symm.trans there'
    exact ⟨stream, tokens, sound.unresolved, sound.stored, definition, s', resolved, found,
      List.isEmpty_iff.1 plain, ended, there, properties, waits, made⟩

end Resolve

end TemplateMarkup
