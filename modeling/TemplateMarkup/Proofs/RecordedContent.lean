import TemplateMarkup.Proofs.DefinitionRecords
import TemplateMarkup.Proofs.DrawnContent

/-! What the records of definitions hold in any document at all. Whatever its forest is like, the
properties that a definition means get into its record, and a definition without edits keeps its own
elements and gets new ones behind them. -/
namespace TemplateMarkup

namespace Document

variable (original : Document)

/-- What is on record of a definition. -/
def Files (key : DefinitionKey) (record : Definition) : Prop :=
  if record.resolution = .done then
    ∃ own view, original.symbols.definition? key = some own ∧ original.Means key view ∧
      record.properties = view.properties ∧ record.valueless = view.valueless ∧
      (own.edits = [] → ∃ copies, record.elements = own.elements ++ copies ∧
        ∀ id ∈ copies, original.forest.slots.size ≤ id.index)
  else
    original.symbols.definition? key = some { record with resolution := .pending }

end Document

/-- A document in which some definitions of `original` have been worked out. -/
structure Recorded (original document : Document) : Prop where
  resembles : original.symbols.Resembles document.symbols
  size : original.forest.slots.size ≤ document.forest.slots.size
  files : ∀ key record, document.symbols.definition? key = some record →
    original.Files key record

namespace Recorded

variable {original document : Document} {key : DefinitionKey} {record : Definition}

theorem of_unresolved (unresolved : original.symbols.Unresolved) : Recorded original original where
  resembles := .refl _
  size := Nat.le_refl _
  files := by
    intro key record found
    have pending := unresolved.pending key record found
    unfold Document.Files
    rw [if_neg (by simp [pending]), found, ← pending]

variable (recorded : Recorded original document)

include recorded

theorem of_size {forest : Forest} (size : original.forest.slots.size ≤ forest.slots.size) :
    Recorded original { document with forest } := ⟨recorded.resembles, size, recorded.files⟩

/-- One record changes. -/
theorem modify {f : Definition → Definition}
    (heading : ∀ d, (f d).heading = d.heading)
    (found : document.symbols.definition? key = some record)
    (files : original.Files key (f record)) :
    Recorded original { document with symbols := document.symbols.modifyDefinition key f } where
  resembles := recorded.resembles.trans (SymbolTable.resembles_modifyDefinition _ _ heading)
  size := recorded.size
  files := by
    intro k d there
    rcases SymbolTable.modify_cases there with ⟨rfl, _, here, rfl⟩ | ⟨-, there⟩
    · cases found.symm.trans here
      exact files
    · exact recorded.files k d there

theorem mark (found : document.symbols.definition? key = some record)
    (notDone : record.resolution ≠ .done) {resolution : Resolution} (short : resolution ≠ .done) :
    Recorded original { document with
      symbols := document.symbols.modifyDefinition key fun d => { d with resolution } } := by
  refine recorded.modify (fun _ => rfl) found ?_
  have files := recorded.files key record found
  unfold Document.Files at files ⊢
  rw [if_neg notDone] at files
  rw [if_neg short]
  exact files

theorem eq_of_pending (found : document.symbols.definition? key = some record)
    (pending : record.resolution = .pending) : original.symbols.definition? key = some record := by
  have files := recorded.files key record found
  unfold Document.Files at files
  rw [if_neg (by simp [pending]), ← pending] at files
  exact files

theorem of_isDone (found : document.symbols.definition? key = some record)
    (isDone : record.resolution = .done) :
    ∃ own view, original.symbols.definition? key = some own ∧ original.Means key view ∧
      record.properties = view.properties ∧ record.valueless = view.valueless ∧
      (own.edits = [] → ∃ copies, record.elements = own.elements ++ copies ∧
        ∀ id ∈ copies, original.forest.slots.size ≤ id.index) := by
  have files := recorded.files key record found
  unfold Document.Files at files
  rwa [if_pos isDone] at files

end Recorded

namespace Resolve

variable {original : Document} {s s' s'' : ResolveState} {content : Content} {view : TreeContent}

/-- More definitions are on record, and those underway are still underway. -/
structure Passes (original : Document) (s s' : ResolveState) : Prop where
  recorded : Recorded original s'.document
  underway : ∀ key definition, s.document.symbols.definition? key = some definition →
    definition.resolution = .underway → s'.document.symbols.definition? key = some definition

theorem Passes.refl (recorded : Recorded original s.document) : Passes original s s :=
  ⟨recorded, fun _ _ found _ => found⟩

theorem Passes.trans (first : Passes original s s') (second : Passes original s' s'') :
    Passes original s s'' :=
  ⟨second.recorded, fun key definition found marked =>
    second.underway key definition (first.underway key definition found marked) marked⟩

/-- What is warned of does not matter. -/
theorem Passes.warned (passes : Passes original s s') (warnings : List ResolveWarning) :
    Passes original s { s' with warnings } := ⟨passes.recorded, passes.underway⟩

theorem Passes.receive {usage : Usage} {definition : Definition} (passes : Passes original s s')
    (size : original.forest.slots.size ≤
      (receive usage definition s').2.document.forest.slots.size) :
    Passes original s (Resolve.receive usage definition s').2 := by
  have symbols := receive_symbols usage definition s'
  refine ⟨⟨?_, size, ?_⟩, ?_⟩
  · rw [symbols]
    exact passes.recorded.resembles
  · rw [symbols]
    exact passes.recorded.files
  · rw [symbols]
    exact passes.underway

/-- How working out `key` may end. -/
def Registers (original : Document) (key : DefinitionKey) (s : ResolveState) :
    EStateM.Result ResolveError ResolveState Unit → Prop
  | .ok _ s' => Passes original s s' ∧ IsDone s'.document.symbols key
  | .error e s' => Passes original s s' ∧
      ∀ type name, e = .undefinedReference type name → s.document.symbols.definition? key = none

/-- How taking over parents may end, if the properties are to become those of one of `views`. -/
def Gathers (original : Document) (s : ResolveState) (views : TreeContent → Prop) :
    EStateM.Result ResolveError ResolveState Content → Prop
  | .ok content s' => Passes original s s' ∧
      ∃ view, views view ∧ content.Draws original.forest.slots.size view
  | .error e s' => Passes original s s' ∧ ∀ type name, e ≠ .undefinedReference type name

variable {resolve : DefinitionKey → Resolve Unit}

theorem inherit_gathers (keyed : original.symbols.Keyed)
    (resolves : ∀ next (t : ResolveState), Recorded original t.document →
      Registers original next t (resolve next t))
    (inheritance : Inheritance) (key : DefinitionKey) (recorded : Recorded original s.document)
    (draws : content.Draws original.forest.slots.size view) :
    Gathers original s
      (fun after => ∃ fuel,
        original.inheritFrom (original.meaning fuel) key view inheritance = some after)
      (inherit resolve key content inheritance s) := by
  unfold inherit Document.inheritFrom
  rw [instantiateWith_apply, recorded.resembles.usageKey]
  cases found : original.symbols.usageKey (parentUsage key inheritance.parent) with
  | none => exact ⟨(Passes.refl recorded).warned _, view, ⟨0, by simp only [found]⟩, draws⟩
  | some parent =>
    obtain ⟨_, registered⟩ := SymbolTable.lookupKey_registered found
    have ends := resolves parent s recorded
    dsimp only
    revert ends
    cases resolve parent s with
    | error e t =>
      rintro ⟨passes, missing⟩
      have known : ∀ type name, e ≠ .undefinedReference type name := by
        intro type name same
        obtain ⟨d, there, -⟩ := recorded.resembles.exists_heading' registered
        rw [missing type name same] at there
        cases there
      cases e with
      | undefinedReference type name => exact absurd rfl (known type name)
      | cyclicInheritance names => exact ⟨passes, known⟩
    | ok _ t =>
      rintro ⟨passes, definition, there, isDone⟩
      dsimp only
      rw [there]
      obtain ⟨_, parentView, -, ⟨fuel, means⟩, properties, valueless, -⟩ :=
        passes.recorded.of_isDone there isDone
      have ownKey := passes.recorded.resembles.keyed keyed parent definition there
      obtain ⟨received, size⟩ := receive_draws (parentUsage key inheritance.parent)
        passes.recorded.size properties valueless original.forest.treesOf
        original.symbols.config.indexInitialCount
      refine ⟨passes.receive size, _, ⟨fuel, ?_⟩, draws.merge received⟩
      simp only [found, means, Option.map_some, ownKey]

theorem inheritAll_gathers (keyed : original.symbols.Keyed)
    (resolves : ∀ next (t : ResolveState), Recorded original t.document →
      Registers original next t (resolve next t))
    (parents : List Inheritance) (key : DefinitionKey) (recorded : Recorded original s.document)
    (draws : content.Draws original.forest.slots.size view) :
    Gathers original s
      (fun after => ∃ fuel,
        parents.foldlM (original.inheritFrom (original.meaning fuel) key) view = some after)
      (parents.foldlM (inherit resolve key) content s) := by
  induction parents generalizing content s view with
  | nil => exact ⟨.refl recorded, view, ⟨0, rfl⟩, draws⟩
  | cons p parents ih =>
    have first := inherit_gathers keyed resolves p key recorded draws
    rw [List.foldlM_cons, bind_apply]
    revert first
    cases inherit resolve key content p s with
    | error e t =>
      exact id
    | ok content' t =>
      rintro ⟨passes, view', ⟨n, taken⟩, draws'⟩
      have rest := ih passes.recorded draws'
      dsimp only
      revert rest
      cases parents.foldlM (inherit resolve key) content' t with
      | error e t' =>
        intro rest
        exact ⟨passes.trans rest.1, rest.2⟩
      | ok content'' t' =>
        rintro ⟨passes', view'', ⟨m, others⟩, draws''⟩
        refine ⟨passes.trans passes', view'', ⟨n + m, ?_⟩, draws''⟩
        rw [List.foldlM_cons, Document.inheritFrom_mono
          (fun _ _ => Document.meaning_mono (Nat.le_add_right n m)) taken]
        exact Document.inheritAll_mono
          (fun _ _ => Document.meaning_mono (Nat.le_add_left m n)) others

/-- What a definition makes of what it inherits may go on record. -/
theorem files_complete {key : DefinitionKey} {definition : Definition} {fuel : Nat}
    {inherited : Content} (registered : original.symbols.definition? key = some definition)
    (gathered : (leftParents definition.edits definition.parents).foldlM
      (original.inheritFrom (original.meaning fuel) key) { type := key.type } = some view)
    (draws : inherited.Draws original.forest.slots.size view)
    (recorded : Recorded original s.document) (record : Definition) :
    original.forest.slots.size ≤
        (complete definition inherited s).2.document.forest.slots.size ∧
      original.Files key { record with
        properties := (complete definition inherited s).1.properties
        elements := (complete definition inherited s).1.elements
        valueless := (complete definition inherited s).1.valueless
        resolution := .done } := by
  have start : EditState.Draws
      { content := withOwn inherited definition
        forest := s.document.forest
        warnings := s.warnings } 0 original.forest.slots.size
      (view.withOwn (original.bodyOf definition)) :=
    ⟨draws.withOwn original definition, recorded.size, Nat.zero_le _⟩
  have edited := start.applyAll original.forest.treesOf
    s.document.symbols.config.indexInitialCount original.symbols.config.indexInitialCount
    (.definition definition.key) (definition.edits.filter fun e => !isParentDeletion e)
  refine ⟨edited.size_le, ?_⟩
  unfold Document.Files
  rw [if_pos rfl]
  refine ⟨definition, original.completed definition view, registered, ⟨fuel + 1, ?_⟩,
    edited.content.properties, edited.content.valueless, fun plain => ?_⟩
  · exact Document.meaning_eq_some.2 ⟨definition, view, registered, gathered, rfl⟩
  · refine ⟨inherited.elements, ?_, draws.fresh⟩
    change (complete definition inherited s).1.elements = _
    rw [complete, plain]
    rfl

section Pending

variable {key : DefinitionKey} {definition : Definition} {warnings : List ResolveWarning}
  (found : s.document.symbols.definition? key = some definition)
  (pending : definition.resolution = .pending)

include found

/-- The mark is there when the parents have been taken over. -/
theorem Passes.marked
    (passes : Passes original { s.setResolution key .underway with warnings } s') :
    s'.document.symbols.definition? key = some { definition with resolution := .underway } := by
  exact passes.underway key _ (SymbolTable.definition?_modify_self found) rfl

include pending

/-- A definition that was marked as underway gets another mark. -/
theorem Passes.close {last : ResolveState}
    (passes : Passes original { s.setResolution key .underway with warnings } s')
    (recorded : Recorded original last.document)
    (others : ∀ k, k ≠ key →
      last.document.symbols.definition? k = s'.document.symbols.definition? k) :
    Passes original s last := by
  refine ⟨recorded, fun k d there underway => ?_⟩
  by_cases same : k = key
  · subst same
    cases found.symm.trans there
    rw [pending] at underway
    cases underway
  · rw [others k same]
    refine passes.underway k d ?_ underway
    exact (SymbolTable.definition?_modify_other same).trans there

end Pending

/-- Working out a definition puts what it means on record. -/
theorem resolveFrom_registers (keyed : original.symbols.Keyed) (fuel : Nat)
    (path : List DefinitionKey) (key : DefinitionKey) {s : ResolveState}
    (recorded : Recorded original s.document) :
    Registers original key s (resolveFrom fuel path key s) := by
  induction fuel generalizing path key s with
  | zero => exact ⟨⟨recorded, fun _ _ found _ => found⟩, by simp⟩
  | succ fuel ih =>
    unfold resolveFrom
    cases found : s.document.symbols.definition? key with
    | none => exact ⟨.refl recorded, fun _ _ _ => found⟩
    | some definition =>
      dsimp only
      cases pending : definition.resolution with
      | done => exact ⟨.refl recorded, definition, found, pending⟩
      | underway => exact ⟨.refl recorded, by simp⟩
      | pending =>
        have ownKey := recorded.resembles.keyed keyed key definition found
        have registered := recorded.eq_of_pending found pending
        obtain ⟨warnings, content⟩ := contentOf_apply (resolveFrom fuel (path ++ [key]))
          definition (s.setResolution key .underway)
        have start : Recorded original { s.setResolution key .underway with warnings }.document :=
          recorded.mark found (by simp [pending]) (by simp)
        have empty : Content.Draws { type := key.type } original.forest.slots.size
            { type := key.type } := ⟨rfl, rfl, rfl, by simp⟩
        have gathered := inheritAll_gathers keyed (fun next t => ih (path ++ [key]) next)
          (leftParents definition.edits definition.parents) key start empty
        dsimp only
        rw [content, ownKey]
        cases run : (leftParents definition.edits definition.parents).foldlM
            (inherit (resolveFrom fuel (path ++ [key])) key) { type := key.type }
            { s.setResolution key .underway with warnings } with
        | error e t =>
          rw [run] at gathered
          obtain ⟨passes, known⟩ := gathered
          have marked := passes.marked found
          refine ⟨passes.close found pending ?_ fun k other => ?_, fun type name same => ?_⟩
          · exact passes.recorded.mark marked (by simp) (by simp)
          · exact SymbolTable.definition?_modify_other other
          · exact absurd same (known type name)
        | ok inherited t =>
          rw [run] at gathered
          obtain ⟨passes, view, ⟨n, parents⟩, draws⟩ := gathered
          have marked := passes.marked found
          obtain ⟨size, files⟩ := files_complete registered parents draws passes.recorded
            { definition with resolution := .underway }
          refine ⟨passes.close found pending ?_ fun k other => ?_, isDone_modify marked rfl⟩
          · exact (passes.recorded.of_size size).modify (fun _ => rfl) marked files
          · exact SymbolTable.definition?_modify_other other

/-- What a usage receives, when its definition is worked out for it. -/
theorem instantiateWith_draws (keyed : original.symbols.Keyed) (usage : Usage)
    (recorded : Recorded original s.document) :
    Recorded original (stateAfter (instantiateWith Resolve.resolve usage s)).document ∧
      ∀ content s', instantiateWith Resolve.resolve usage s = .ok content s' →
        ∃ key view, original.symbols.usageKey usage = some key ∧ original.Means key view ∧
          content.Draws original.forest.slots.size (view.received original.forest.treesOf
            original.symbols.config.indexInitialCount usage key.kind) := by
  rw [instantiateWith_apply, recorded.resembles.usageKey]
  cases found : original.symbols.usageKey usage with
  | none => exact ⟨recorded, by simp⟩
  | some key =>
    have registers : Registers original key s (Resolve.resolve key s) :=
      resolveFrom_registers keyed _ [] key recorded
    dsimp only
    revert registers
    cases Resolve.resolve key s with
    | error e t =>
      intro registers
      exact ⟨registers.1.recorded, by simp⟩
    | ok _ t =>
      rintro ⟨passes, definition, there, isDone⟩
      obtain ⟨_, view, -, means, properties, valueless, -⟩ :=
        passes.recorded.of_isDone there isDone
      have ownKey := passes.recorded.resembles.keyed keyed key definition there
      obtain ⟨received, size⟩ := receive_draws usage passes.recorded.size properties
        valueless original.forest.treesOf original.symbols.config.indexInitialCount
      dsimp only
      rw [there]
      refine ⟨(passes.receive size).recorded, fun content s' ended => ?_⟩
      cases ended
      rw [ownKey] at received
      exact ⟨key, view, rfl, means, received⟩

section Keeps

variable {α β : Type}

/-- Some definitions of `original` are on record, and none is underway. -/
structure Filed (original document : Document) : Prop where
  recorded : Recorded original document
  rests : Rests original.symbols document.symbols

/-- However a computation ends, what is on record stays so. -/
def Keeps (original : Document) (x : Resolve α) : Prop :=
  ∀ s, Filed original s.document → Filed original (stateAfter (x s)).document

theorem keeps_pure (a : α) : Keeps original (pure a) := fun _ filed => filed

theorem keeps_warn (warning : ResolveWarning) : Keeps original (warn warning) :=
  fun _ filed => filed

theorem keeps_symbols : Keeps original symbols := fun _ filed => filed

theorem Keeps.bind {x : Resolve α} {f : α → Resolve β} (first : Keeps original x)
    (later : ∀ a, Keeps original (f a)) : Keeps original (x >>= f) := by
  intro s filed
  have here := first s filed
  rw [bind_apply]
  revert here
  cases x s with
  | ok a s' =>
    intro here
    exact later a s' here
  | error e s' =>
    exact id

section

variable (keyed : original.symbols.Keyed)

include keyed

theorem keeps_resolve (key : DefinitionKey) : Keeps original (Resolve.resolve key) := by
  intro s filed
  have registers : Registers original key s (Resolve.resolve key s) :=
    resolveFrom_registers keyed _ [] key filed.recorded
  refine ⟨?_, rests_resolve keyed key filed.rests⟩
  cases run : Resolve.resolve key s with
  | ok | error =>
    rw [run] at registers
    exact registers.1.recorded

theorem rests_instantiateWith (usage : Usage) (rests : Rests original.symbols s.document.symbols) :
    Rests original.symbols
      (stateAfter (instantiateWith Resolve.resolve usage s)).document.symbols := by
  rw [instantiateWith_apply]
  cases s.document.symbols.usageKey usage with
  | none => exact rests
  | some key =>
    have later := rests_resolve keyed key rests
    dsimp only
    revert later
    cases Resolve.resolve key s with
    | error e s' =>
      exact id
    | ok _ s' =>
      intro later
      dsimp only
      cases s'.document.symbols.definition? key with
      | none => exact later
      | some definition =>
        dsimp only [stateAfter]
        rw [receive_symbols]
        exact later

theorem keeps_instantiate (usage : Usage) : Keeps original (instantiate usage) := by
  have received : Keeps original (instantiateWith Resolve.resolve usage) := fun _ filed =>
    ⟨(instantiateWith_draws keyed usage filed.recorded).1,
      rests_instantiateWith keyed usage filed.rests⟩
  refine received.bind fun content => Keeps.bind (fun s filed => ?_) fun _ => keeps_pure _
  obtain ⟨warnings, told⟩ := unfilled_apply usage content.valueless s
  rw [told]
  exact filed

theorem stepwise_keeps : Stepwise (Keeps original) where
  pure := keeps_pure
  bind := .bind
  warn := keeps_warn
  group _ _ each s filed := each _ s filed
  propertiesOf key := (keeps_resolve keyed key).bind fun _ =>
    keeps_symbols.bind fun _ => keeps_pure _

end

end Keeps

end Resolve

variable {document : Document}

section

variable (unresolved : document.symbols.Unresolved)

include unresolved

open Resolve in
theorem Resolve.filed_of_unresolved : Filed document document :=
  ⟨.of_unresolved unresolved, rests_of_unresolved unresolved⟩

/-- Whatever is asked for, in any document in which nothing has been worked out. -/
theorem Demand.filed_runAll (demands : List Demand) :
    Resolve.Filed document (runAll demands { document }).document := by
  have step (demand : Demand) (s : ResolveState) (filed : Resolve.Filed document s.document) :
      Resolve.Filed document (demand.run s).2.document := by
    have keyed := unresolved.keyed
    cases demand with
    | resolve key => exact Resolve.keeps_resolve keyed key s filed
    | instantiate usage => exact Resolve.keeps_instantiate keyed usage s filed
    | renderValue value =>
      exact (Resolve.stepwise_keeps keyed).renderValue value s filed
    | resolveVar ref => exact (Resolve.stepwise_keeps keyed).resolveVar ref s filed
  have run (s : ResolveState) (filed : Resolve.Filed document s.document) :
      Resolve.Filed document (runAll demands s).document := by
    induction demands generalizing s with
    | nil => exact filed
    | cons demand demands ih => exact ih _ (step demand s filed)
  exact run _ (Resolve.filed_of_unresolved unresolved)

theorem Demand.recorded_runAll (demands : List Demand) :
    Recorded document (runAll demands { document }).document :=
  (filed_runAll unresolved demands).recorded

end

end TemplateMarkup
