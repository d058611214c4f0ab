import TemplateMarkup.Proofs.PlantedTrees
import TemplateMarkup.Proofs.ResolveOutcomes

/-! Calls of resolving that follow one another. What a call answers is the same after any calls
before it. -/
namespace TemplateMarkup

/-- A usage that content is asked for: one that is written in the document, or one that a caller
makes, with trees for its insertions to bring. -/
inductive Request (document : Document)
  | written (usage : Usage) (occurs : document.Occurs usage)
  | made (usage : Usage) (edits : List NewEdit)

/-- One call of resolving. -/
inductive Call (document : Document)
  | resolve (key : DefinitionKey)
  | instantiate (request : Request document)
  | renderValue (value : Value)
  | resolveVar (ref : VarRef)

/-- Content as it is compared: with trees in the place of nodes. -/
structure Reading where
  properties : OrderedMap String Value
  valueless : List String
  elements : List (Option NodeTree)

/-- What a call answers. -/
inductive Answer
  | failure (error : ResolveError)
  /-- The content of a definition that has been worked out. -/
  | definition (reading : Option Reading)
  | content (reading : Reading)
  | text (text : String)
  | variable (text : Option String)

/-- The answer and the state that are left, where `read` tells what a success gives. -/
def Answer.ofResult {α : Type} (read : α → ResolveState → Answer) :
    EStateM.Result ResolveError ResolveState α → Answer × ResolveState
  | .ok a s => (read a s, s)
  | .error e s => (.failure e, s)

variable {document : Document}

namespace Request

/-- The usage with its nodes in a forest. -/
def prepare : Request document → Forest → Usage × Forest
  | written usage _, f => (usage, f)
  | made usage news, f =>
    let (edits, f) := NewEdit.plantAll news f
    ({ usage with edits }, f)

/-- What becomes of the content of the definition that is asked for. -/
def received (first : Nat) (kind : DefinitionKind) (view : TreeContent) :
    Request document → TreeContent
  | written usage _ => view.received document.forest.treesOf first usage kind
  | made usage news =>
    let filled := TreeContent.fill usage.fills { view with type := usage.type }
    if kind = .custom then news.foldl (NewEdit.apply first) filled else filled

end Request

namespace Call

/-- Makes a call. -/
def run : Call document → ResolveState → Answer × ResolveState
  | resolve key, s =>
    Answer.ofResult (fun _ s' => .definition ((s'.document.symbols.definition? key).map
      fun definition =>
        { properties := definition.properties
          valueless := definition.valueless
          elements := definition.elements.map s'.document.forest.tree? })) (Resolve.resolve key s)
  | instantiate request, s =>
    let (usage, forest) := request.prepare s.document.forest
    Answer.ofResult (fun content s' => .content
        { properties := content.properties
          valueless := content.valueless
          elements := content.elements.map s'.document.forest.tree? })
      (Resolve.instantiate usage { s with document := { s.document with forest } })
  | renderValue value, s => Answer.ofResult (fun text _ => .text text) (Resolve.renderValue value s)
  | resolveVar ref, s => Answer.ofResult (fun text _ => .variable text) (Resolve.resolveVar ref s)

/-- Makes calls one after the other. -/
def runAll (calls : List (Call document)) (s : ResolveState) : ResolveState :=
  calls.foldl (fun s call => (call.run s).2) s

end Call

open Resolve

namespace Request

/-- What is asked for, apart from the edits. -/
def usage : Request document → Usage
  | written usage _ => usage
  | made usage _ => usage

theorem prepare_usage (request : Request document) (f : Forest) :
    (request.prepare f).1 = { request.usage with edits := (request.prepare f).1.edits } := by
  cases request <;> rfl

theorem usageKey_prepare (request : Request document) (f : Forest) :
    document.symbols.usageKey (request.prepare f).1 =
      document.symbols.usageKey request.usage := by
  rw [prepare_usage]
  rfl

/-- Preparing a usage adds the nodes that its edits bring, and nothing else. -/
theorem prepare_keeps {s : ResolveState} (standing : Standing document s)
    (request : Request document) :
    ∃ own reference, s.document.forest.Turns [] (request.prepare s.document.forest).2 own ∧
      Forest.Keeps reference (request.prepare s.document.forest).2 s.document.symbols.owned
        (request.prepare s.document.forest).1.payload ∧
      ∀ first kind view, view.received reference.treesOf first
        (request.prepare s.document.forest).1 kind = request.received first kind view := by
  have stored := standing.stored
  cases request with
  | written usage occurs =>
    refine ⟨[], document.forest, .refl stored.grown [], ?_, fun first kind view => rfl⟩
    exact fun id member => stored.brought id (.inl ⟨usage, occurs, member⟩)
  | made usage news =>
    obtain ⟨turns, realizes⟩ := stored.grown.plantEdits news
    have roots := turns.roots s.document.symbols.owned stored.roots
    refine ⟨_, (NewEdit.plantAll news s.document.forest).2, turns, ?_, ?_⟩
    · intro id member
      refine ⟨roots.left.isRoot id member, fun owned => ?_, rfl⟩
      exact (List.nodup_append.1 roots.nodup).2.2 id member id owned rfl
    · intro first kind view
      unfold TreeContent.received Request.received prepare
      dsimp only
      rw [applyAll_of_realizes realizes]

/-- What a request gives: the content of the definition as the request has it, or the failure of
the definition. -/
def Gives (request : Request document) :
    EStateM.Result ResolveError ResolveState Content → Prop
  | .ok content s' => Standing document s' ∧ ∃ key view,
      document.symbols.usageKey request.usage = some key ∧ Succeeds document key view ∧
      ({ properties := content.properties
         valueless := content.valueless
         elements := content.elements.map s'.document.forest.tree? } : Reading) =
        let result := request.received document.symbols.config.indexInitialCount key.kind view
        { properties := result.properties, valueless := [], elements := result.elements.map some }
  | .error e s' => Standing document s' ∧ Denied document request.usage e

theorem gives (keyed : document.symbols.Keyed) {s : ResolveState}
    (standing : Standing document s) (request : Request document) :
    request.Gives (instantiate (request.prepare s.document.forest).1
      { s with document :=
        { s.document with forest := (request.prepare s.document.forest).2 } }) := by
  obtain ⟨own, reference, turns, keeps, received⟩ := request.prepare_keeps standing
  have prepared : Standing document { s with document :=
      { s.document with forest := (request.prepare s.document.forest).2 } } :=
    standing.extend turns
  have receives := instantiateWith_receives keyed prepared keeps
  obtain ⟨warnings, run⟩ := instantiate_apply (request.prepare s.document.forest).1
    { s with document := { s.document with forest := (request.prepare s.document.forest).2 } }
  rw [run]
  cases ended : instantiateWith resolve (request.prepare s.document.forest).1
      { s with document :=
        { s.document with forest := (request.prepare s.document.forest).2 } } with
  | ok content s' =>
    rw [ended] at receives
    obtain ⟨follows, key, view, found, succeeds, shown⟩ := receives
    rw [received] at shown
    rw [usageKey_prepare] at found
    refine ⟨(follows.warned warnings).standing, key, view, found, succeeds, ?_⟩
    dsimp only
    rw [shown.properties, shown.elements]
  | error e s' =>
    rw [ended] at receives
    obtain ⟨follows, failure⟩ := receives
    rw [Denied, usageKey_prepare, prepare_usage] at failure
    exact ⟨follows.standing, failure⟩

end Request

namespace Call

variable {s t : ResolveState}

private theorem resolve_agree (keyed : document.symbols.Keyed) (key : DefinitionKey)
    (hs : Standing document s) (ht : Standing document t) :
    ((resolve key : Call document).run s).1 = ((resolve key : Call document).run t).1 ∧
      Standing document ((resolve key : Call document).run s).2 := by
  have answers := resolve_answers keyed key hs
  have answers' := resolve_answers keyed key ht
  unfold run
  dsimp only
  generalize Resolve.resolve key s = result at answers ⊢
  generalize Resolve.resolve key t = result' at answers' ⊢
  cases result with
  | ok _ s' =>
    obtain ⟨follows, view, definition, succeeds, found, shown⟩ := answers
    cases result' with
    | ok _ t' =>
      obtain ⟨_, view', definition', succeeds', found', shown'⟩ := answers'
      refine ⟨?_, follows.standing⟩
      dsimp only [Answer.ofResult]
      rw [found, found', Option.map_some, Option.map_some, shown.properties, shown'.properties,
        shown.valueless, shown'.valueless, shown.elements, shown'.elements,
        succeeds.means.unique succeeds'.means]
    | error e' t' => exact absurd answers'.2 (succeeds.not_fails keyed)
  | error e s' =>
    cases result' with
    | ok _ t' =>
      obtain ⟨_, view', _, succeeds', -⟩ := answers'
      exact absurd answers.2 (succeeds'.not_fails keyed)
    | error e' t' =>
      exact ⟨congrArg Answer.failure (answers.2.unique keyed answers'.2), answers.1.standing⟩

private theorem instantiate_agree (keyed : document.symbols.Keyed) (request : Request document)
    (hs : Standing document s) (ht : Standing document t) :
    ((instantiate request).run s).1 = ((instantiate request).run t).1 ∧
      Standing document ((instantiate request).run s).2 := by
  have gives := request.gives keyed hs
  have gives' := request.gives keyed ht
  unfold run
  dsimp only
  generalize Resolve.instantiate (request.prepare s.document.forest).1 { s with document :=
    { s.document with forest := (request.prepare s.document.forest).2 } } = result at gives ⊢
  generalize Resolve.instantiate (request.prepare t.document.forest).1 { t with document :=
    { t.document with forest := (request.prepare t.document.forest).2 } } = result' at gives' ⊢
  cases result with
  | ok content s' =>
    obtain ⟨standing, key, view, found, succeeds, reading⟩ := gives
    cases result' with
    | ok content' t' =>
      obtain ⟨_, key', view', found', succeeds', reading'⟩ := gives'
      cases found.symm.trans found'
      cases succeeds.means.unique succeeds'.means
      exact ⟨congrArg Answer.content (reading.trans reading'.symm), standing⟩
    | error e' t' => exact absurd gives'.2 (succeeds.not_denied keyed found)
  | error e s' =>
    obtain ⟨standing, failure⟩ := gives
    cases result' with
    | ok content' t' =>
      obtain ⟨_, key', view', found', succeeds', -⟩ := gives'
      exact absurd failure (succeeds'.not_denied keyed found')
    | error e' t' =>
      exact ⟨congrArg Answer.failure (failure.unique keyed gives'.2), standing⟩

private theorem steady_agree {α : Type} {x : Resolve α} (steady : Steady document x)
    (answer : α → Answer) (hs : Standing document s) (ht : Standing document t) :
    (Answer.ofResult (fun a _ => answer a) (x s)).1 =
        (Answer.ofResult (fun a _ => answer a) (x t)).1 ∧
      Standing document (Answer.ofResult (fun a _ => answer a) (x s)).2 := by
  have agree := steady s t hs ht
  generalize x s = result at agree ⊢
  generalize x t = result' at agree ⊢
  cases result with
  | ok a s' =>
    cases result' with
    | ok b t' => exact ⟨congrArg answer agree.1, agree.2.1.standing⟩
    | error e' t' => exact agree.elim
  | error e s' =>
    cases result' with
    | ok b t' => exact agree.elim
    | error e' t' =>
      exact ⟨congrArg Answer.failure agree.1, agree.2.1.standing⟩

/-- A call answers the same in any two states between calls, and leaves such a state behind. -/
theorem run_agree (keyed : document.symbols.Keyed) (call : Call document)
    (hs : Standing document s) (ht : Standing document t) :
    (call.run s).1 = (call.run t).1 ∧ Standing document (call.run s).2 := by
  cases call with
  | resolve key => exact resolve_agree keyed key hs ht
  | instantiate request => exact instantiate_agree keyed request hs ht
  | renderValue value => exact steady_agree (steady_renderValue keyed value) .text hs ht
  | resolveVar ref => exact steady_agree (steady_resolveVar keyed ref) .variable hs ht

theorem standing_runAll (keyed : document.symbols.Keyed) (calls : List (Call document))
    (hs : Standing document s) : Standing document (runAll calls s) := by
  induction calls generalizing s with
  | nil => exact hs
  | cons call calls ih => exact ih (call.run_agree keyed hs hs).2

end Call

end TemplateMarkup
