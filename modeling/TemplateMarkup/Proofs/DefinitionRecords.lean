import TemplateMarkup.Proofs.Confluence

/-! What calls of resolving do to the records of definitions. A call that fails halfway has
worked some definitions out and left the others as they were; it leaves none in between. -/
namespace TemplateMarkup

namespace Resolve
open SymbolTable

variable {original : Document} {s s' : ResolveState} {key : DefinitionKey}
  {resolve : DefinitionKey → Resolve Unit}

/-- How a call may end that began in `s`: no definition is underway, each one is left or worked
out, and a cycle that is reported is there. -/
structure Orderly (original : Document) (s : ResolveState) {α : Type}
    (r : EStateM.Result ResolveError ResolveState α) : Prop where
  standing : Standing original (stateAfter r)
  proceeds : s.document.Proceeds (stateAfter r).document
  cyclic : ∀ names, errorOf? r = some (.cyclicInheritance names) →
    ∃ key, original.symbols.FirstCycle [] key names

/-- A call that ends so whenever it is made between calls. -/
def Atomic (original : Document) {α : Type} (x : Resolve α) : Prop :=
  ∀ s, Standing original s → Orderly original s (x s)

variable {α β : Type}

theorem Orderly.after {r : EStateM.Result ResolveError ResolveState α}
    (orderly : Orderly original s' r) (proceeds : s.document.Proceeds s'.document) :
    Orderly original s r :=
  ⟨orderly.standing, proceeds.trans orderly.proceeds, orderly.cyclic⟩

theorem orderly_ok (a : α) (standing : Standing original s')
    (proceeds : s.document.Proceeds s'.document) : Orderly original s (.ok a s') :=
  ⟨standing, proceeds, by simp [errorOf?]⟩

theorem Orderly.error {e : ResolveError}
    (ended : Orderly original s (.error e s' : EStateM.Result ResolveError ResolveState α)) :
    Orderly original s (.error e s' : EStateM.Result ResolveError ResolveState β) :=
  ⟨ended.standing, ended.proceeds, ended.cyclic⟩

theorem orderly_undefined (type : DefinitionType) (name : String) (standing : Standing original s')
    (proceeds : s.document.Proceeds s'.document) :
    Orderly original s
      (.error (.undefinedReference type name) s' : EStateM.Result ResolveError ResolveState α) :=
  ⟨standing, proceeds, by simp [errorOf?]⟩

theorem atomic_pure (a : α) : Atomic original (pure a) := fun s standing =>
  orderly_ok a standing (.refl s.document)

theorem atomic_warn (warning : ResolveWarning) : Atomic original (warn warning) :=
  fun s standing => orderly_ok () ⟨standing.stored, standing.rests⟩ (.refl s.document)

theorem Atomic.bind {x : Resolve α} {f : α → Resolve β} (first : Atomic original x)
    (later : ∀ a, Atomic original (f a)) : Atomic original (x >>= f) := by
  intro s standing
  have ended := first s standing
  rw [bind_apply]
  cases run : x s with
  | ok a s' =>
    rw [run] at ended
    exact (later a s' ended.standing).after ended.proceeds
  | error e s' =>
    rw [run] at ended
    exact ended.error

theorem atomic_resolve (keyed : original.symbols.Keyed) (key : DefinitionKey) :
    Atomic original (Resolve.resolve key) := by
  intro s standing
  have answers := resolve_answers keyed key standing
  have ends : Ends original key s (Resolve.resolve key s) :=
    resolveFrom_ends keyed (s.document.symbols.definitions.size + 1) [] key standing.stored
  cases run : Resolve.resolve key s with
  | ok _ s' =>
    rw [run] at answers ends
    exact orderly_ok () answers.1.standing ends.1.proceeds
  | error e s' =>
    rw [run] at answers ends
    obtain ⟨follows, absent | first⟩ := answers
    · exact orderly_undefined _ _ follows.standing ends.1.proceeds
    · refine ⟨follows.standing, ends.1.proceeds, fun names failed => ?_⟩
      cases failed
      exact ⟨key, first⟩

theorem standing_receive (standing : Standing original s) (usage : Usage)
    (definition : Definition) : Standing original (receive usage definition s).2 := by
  have turns := receive_turns standing.stored.grown usage definition
  have symbols := receive_symbols usage definition s
  refine ⟨?_, ?_⟩
  · have extended := standing.stored.extend turns
    rwa [← symbols] at extended
  · rw [symbols]
    exact standing.rests

theorem atomic_instantiate (keyed : original.symbols.Keyed) (usage : Usage) :
    Atomic original (instantiate usage) := by
  intro s standing
  have received : Orderly original s (instantiateWith Resolve.resolve usage s) := by
    rw [instantiateWith_apply]
    cases s.document.symbols.usageKey usage with
    | none => exact orderly_undefined _ _ standing (.refl s.document)
    | some key =>
      have ended := atomic_resolve keyed key s standing
      dsimp only
      cases run : Resolve.resolve key s with
      | error e s' =>
        rw [run] at ended
        exact ended.error
      | ok _ s' =>
        rw [run] at ended
        dsimp only
        cases s'.document.symbols.definition? key with
        | none => exact orderly_undefined _ _ ended.standing ended.proceeds
        | some definition =>
          have proceeds := Document.Proceeds.of_turns ended.standing.stored
            (receive_turns ended.standing.stored.grown usage definition)
            (receive_symbols usage definition s')
          exact orderly_ok _ (standing_receive ended.standing usage definition)
            (ended.proceeds.trans proceeds)
  obtain ⟨warnings, run⟩ := instantiate_apply usage s
  rw [run]
  cases ended : instantiateWith Resolve.resolve usage s with
  | error e s' =>
    rw [ended] at received
    exact received.error
  | ok content s' =>
    rw [ended] at received
    exact orderly_ok _ ⟨received.standing.stored, received.standing.rests⟩ received.proceeds

theorem atomic_propertiesOf (keyed : original.symbols.Keyed) (key : DefinitionKey) :
    Atomic original (propertiesOf key) := by
  intro s standing
  have ended := atomic_resolve keyed key s standing
  rw [propertiesOf_apply]
  cases run : Resolve.resolve key s with
  | error e s' =>
    rw [run] at ended
    exact ended.error
  | ok _ s' =>
    rw [run] at ended
    exact orderly_ok _ ended.standing ended.proceeds

theorem stepwise_atomic (keyed : original.symbols.Keyed) : Stepwise (Atomic original) where
  pure := atomic_pure
  bind := .bind
  warn := atomic_warn
  group _ _ each s standing := each _ s standing
  propertiesOf := atomic_propertiesOf keyed

/-- A definition that reaches a cycle is never worked out. -/
theorem leaves_of_reachesCycle (standing : Standing original s')
    (proceeds : s.document.Proceeds s'.document) (reaches : original.symbols.ReachesCycle key) :
    s.document.Leaves s'.document key := by
  rcases proceeds key with left | out
  · exact left
  · exact absurd reaches (standing.rests.settled key out.isDone).not_reachesCycle

end Resolve

open Resolve

/-- A call of resolving, with any arguments at all: a usage may bring nodes from anywhere. -/
inductive Demand
  | resolve (key : DefinitionKey)
  | instantiate (usage : Usage)
  | renderValue (value : Value)
  | resolveVar (ref : VarRef)

namespace Demand

/-- The error that a computation ends with, if any, and the state that it leaves. -/
def outcome {α : Type} (r : EStateM.Result ResolveError ResolveState α) :
    Option ResolveError × ResolveState := (errorOf? r, stateAfter r)

def run : Demand → ResolveState → Option ResolveError × ResolveState
  | resolve key, s => outcome (Resolve.resolve key s)
  | instantiate usage, s => outcome (Resolve.instantiate usage s)
  | renderValue value, s => outcome (Resolve.renderValue value s)
  | resolveVar ref, s => outcome (Resolve.resolveVar ref s)

def runAll (demands : List Demand) (s : ResolveState) : ResolveState :=
  demands.foldl (fun s demand => (demand.run s).2) s

variable {original : Document} {s : ResolveState}

theorem run_orderly (keyed : original.symbols.Keyed) (standing : Standing original s)
    (demand : Demand) :
    Standing original (demand.run s).2 ∧ s.document.Proceeds (demand.run s).2.document ∧
      ∀ names, (demand.run s).1 = some (.cyclicInheritance names) →
        ∃ key, original.symbols.FirstCycle [] key names := by
  cases demand with
  | resolve key =>
    have ended := atomic_resolve keyed key s standing
    exact ⟨ended.standing, ended.proceeds, ended.cyclic⟩
  | instantiate usage =>
    have ended := atomic_instantiate keyed usage s standing
    exact ⟨ended.standing, ended.proceeds, ended.cyclic⟩
  | renderValue value =>
    have ended := (stepwise_atomic keyed).renderValue value s standing
    exact ⟨ended.standing, ended.proceeds, ended.cyclic⟩
  | resolveVar ref =>
    have ended := (stepwise_atomic keyed).resolveVar ref s standing
    exact ⟨ended.standing, ended.proceeds, ended.cyclic⟩

theorem standing_runAll (keyed : original.symbols.Keyed) (standing : Standing original s)
    (demands : List Demand) : Standing original (runAll demands s) := by
  induction demands generalizing s with
  | nil => exact standing
  | cons demand demands ih => exact ih (demand.run_orderly keyed standing).1

/-- However a call ends, no definition is underway after it, and each one has the record and the
subtrees that it had or has been worked out. A definition that cannot be worked out is left as it
was, and so is every definition on a cycle that is reported. -/
theorem run_leaves_or_worksOut (source : String) (tokens : List Token) (config : Config)
    (options : ParseOptions) (earlier : List Demand) (demand : Demand) :
    let document := (ParseResult.ofTokens source tokens { config } options).document
    let s := runAll earlier { document }
    let ended := demand.run s
    (∀ key definition, ended.2.document.symbols.definition? key = some definition →
      definition.resolution ≠ .underway) ∧
    (∀ key, s.document.Leaves ended.2.document key ∨ s.document.WorksOut ended.2.document key) ∧
    (∀ key e, errorOf? (Resolve.resolve key s) = some e →
      s.document.Leaves ended.2.document key) ∧
    ∀ names, ended.1 = some (.cyclicInheritance names) →
      ∃ keys : List DefinitionKey, names = keys.map (·.name.label) ∧ 2 ≤ keys.length ∧
        keys.head? = keys.getLast? ∧ keys.IsChain s.document.symbols.Inherits ∧
        ∀ key ∈ keys, s.document.Leaves ended.2.document key := by
  intro document s ended
  have sound : document.Sound [Forest.root] [] :=
    ParseResult.sound_ofTokens source tokens config options
  have keyed := sound.unresolved.keyed
  have standing : Standing document s := standing_runAll keyed sound.standing earlier
  obtain ⟨standing', proceeds, cyclic⟩ := demand.run_orderly keyed standing
  refine ⟨fun key definition found => ?_, proceeds, fun key e failed => ?_,
    fun names failed => ?_⟩
  · have outside := standing'.rests.underway key definition found
    simpa using outside
  · obtain ⟨t, run⟩ := eq_error_of_errorOf? failed
    have answers := resolve_answers keyed key standing
    rw [run] at answers
    obtain ⟨-, absent | first⟩ := answers
    · -- nothing is registered under the key, before or after
      rcases proceeds key with left | ⟨definition, _, _, _, found, -⟩
      · exact left
      · obtain ⟨_, there, -⟩ := standing.rests.resembles.exists_heading found
        rw [absent] at there
        cases there
    · exact leaves_of_reachesCycle standing' proceeds (first.isCycle keyed (.singleton key)).2
  · obtain ⟨key, first⟩ := cyclic names failed
    obtain ⟨keys, same, two, closed, chain⟩ := (first.isCycle keyed (.singleton key)).1
    refine ⟨keys, same, two, closed, ?_, fun member inside => ?_⟩
    · rwa [standing.rests.resembles.inherits keyed]
    · exact leaves_of_reachesCycle standing' proceeds
        (SymbolTable.reachesCycle_of_closed chain two closed inside)

/-- The first of two templates that inherit from each other also inherits from a third, which
stays worked out when the first fails. -/
theorem run_leaves_or_worksOut_ring :
    let source := "[Template] @Element Base \x7b i \x7b \x7d \x7d " ++
      "[Template] @Element Wall \x7b b \x7b \x7d inherit @Element Base; " ++
      "inherit @Element Roof; \x7d [Template] @Element Roof \x7b inherit @Element Wall; \x7d"
    let key (name : String) : DefinitionKey := ⟨.template, .element, ⟨"", name⟩⟩
    ∃ stream, (TokenStream.ofSource source).toOption = some stream ∧
      let document := (ParseResult.ofTokens source stream.tokens {} {}).document
      let ended := (resolve (key "Wall")).run { document }
      ended.1 = some (.cyclicInheritance ["Wall", "Roof", "Wall"]) ∧
        errorOf? (Resolve.resolve (key "Roof") { document }) ≠ none ∧
        document.Leaves ended.2.document (key "Wall") ∧
        document.Leaves ended.2.document (key "Roof") ∧
        document.WorksOut ended.2.document (key "Base") := by
  intro source key
  have run : (TokenStream.ofSource source).toOption.map (fun stream =>
        let document := (ParseResult.ofTokens source stream.tokens {} {}).document
        let ended := (resolve (key "Wall")).run { document }
        (ended.1, errorOf? (Resolve.resolve (key "Roof") { document }),
          (document.symbols.definition? (key "Base")).map Definition.resolution,
          (ended.2.document.symbols.definition? (key "Base")).map Definition.resolution)) =
      some (some (.cyclicInheritance ["Wall", "Roof", "Wall"]),
        some (.cyclicInheritance ["Roof", "Wall", "Roof"]), some .pending, some .done) := by
    decide +kernel
  obtain ⟨stream, tokens, run⟩ := Option.map_eq_some_iff.1 run
  simp only [Prod.mk.injEq] at run
  obtain ⟨wall, roof, before, after⟩ := run
  obtain ⟨-, each, failed, -⟩ :=
    run_leaves_or_worksOut source stream.tokens {} {} [] (resolve (key "Wall"))
  refine ⟨stream, tokens, wall, by rw [roof]; simp, failed (key "Wall") _ wall,
    failed (key "Roof") _ roof, ?_⟩
  rcases each (key "Base") with left | out
  · have same := congrArg (Option.map Definition.resolution) left.record
    cases before.symm.trans (same.symm.trans after)
  · exact out

end Demand

end TemplateMarkup
