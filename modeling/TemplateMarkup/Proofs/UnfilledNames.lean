import TemplateMarkup.Proofs.PropertyNames
import TemplateMarkup.Proofs.RecordedContent

/-! Properties that are reported to have no value. Inherited values, own values and fills take a name
off the list of those that wait; an insertion gives it a value and leaves it on the list. -/
namespace TemplateMarkup

namespace Document

/-- What a definition has before its own edits: what it inherits, with its own content. -/
def Begins (document : Document) (key : DefinitionKey) (definition : Definition)
    (start : TreeContent) : Prop :=
  ∃ fuel inherited, (Resolve.leftParents definition.edits definition.parents).foldlM
    (document.inheritFrom (document.meaning fuel) key) { type := key.type } = some inherited ∧
    start = inherited.withOwn (document.bodyOf definition)

variable {document : Document} {key : DefinitionKey}

theorem type_of_inheritAll {meaning : DefinitionKey → Option TreeContent}
    {parents : List Inheritance} {content result : TreeContent}
    (h : parents.foldlM (document.inheritFrom meaning key) content = some result) :
    result.type = content.type := by
  induction parents generalizing content with
  | nil => cases h; rfl
  | cons inheritance parents ih =>
    rw [List.foldlM_cons] at h
    obtain ⟨next, step, rest⟩ := Option.bind_eq_some_iff.1 h
    refine (ih rest).trans ?_
    unfold inheritFrom at step
    dsimp only at step
    split at step
    · cases step
      rfl
    · obtain ⟨received, -, rfl⟩ := Option.map_eq_some_iff.1 step
      rfl

theorem Begins.type {definition : Definition} {start : TreeContent}
    (begins : document.Begins key definition start) : start.type = key.type := by
  obtain ⟨fuel, inherited, gathered, rfl⟩ := begins
  exact type_of_inheritAll gathered

theorem Means.begins {view : TreeContent} (means : document.Means key view) :
    ∃ definition start, document.symbols.definition? key = some definition ∧
      document.Begins key definition start ∧
      view = start.applyAll document.forest.treesOf document.symbols.config.indexInitialCount
        definition.edits := by
  obtain ⟨fuel, known⟩ := means
  cases fuel with
  | zero => cases known
  | succ fuel =>
    obtain ⟨definition, inherited, found, gathered, rfl⟩ := meaning_eq_some.1 known
    refine ⟨definition, _, found, ⟨fuel, inherited, gathered, rfl⟩, ?_⟩
    exact TreeContent.applyAll_filter _ _ _ _

end Document

/-- More warnings, none of which tells of a property without a value or of a variable. -/
def ResolveWarning.AddsOthers (before after : List ResolveWarning) : Prop :=
  ∃ more, after = more ++ before ∧ ∀ warning ∈ more, warning.isOther = true

namespace ResolveWarning.AddsOthers

variable {a b c : List ResolveWarning}

theorem refl (a : List ResolveWarning) : AddsOthers a a := ⟨[], rfl, by simp⟩

theorem one {warning : ResolveWarning} (other : warning.isOther = true) :
    AddsOthers a (warning :: a) := ⟨[warning], rfl, by simpa using other⟩

theorem trans (first : AddsOthers a b) (second : AddsOthers b c) : AddsOthers a c := by
  obtain ⟨more, rfl, others⟩ := first
  obtain ⟨more', rfl, others'⟩ := second
  refine ⟨more' ++ more, (List.append_assoc _ _ _).symm, fun warning member => ?_⟩
  rcases List.mem_append.1 member with member | member
  · exact others' warning member
  · exact others warning member

end ResolveWarning.AddsOthers

namespace EditState

open ResolveWarning

variable (state : EditState) (first : Nat) (site : EditSite)

theorem addsOthers_deleteName (name : String) :
    AddsOthers state.warnings (state.deleteName first site name).warnings := by
  unfold deleteName deleteFirstElement deleteProperty
  split
  · split
    · exact .refl _
    · exact .one rfl
  · dsimp only
    split
    · exact .refl _
    · exact .one rfl

theorem addsOthers_insertElements (position : InsertPosition) (nodes : List NodeId) :
    AddsOthers state.warnings (state.insertElements first site position nodes).warnings := by
  unfold insertElements
  cases position with
  | top | bottom => exact .refl _
  | before target | after target | replace target =>
    dsimp only
    split
    · exact .refl _
    · exact .one rfl

theorem addsOthers_apply (edit : Edit) :
    AddsOthers state.warnings (state.apply first site edit).warnings := by
  unfold apply
  cases edit with
  | deleteNames names =>
    dsimp only
    induction names generalizing state with
    | nil => exact .refl _
    | cons name names ih => exact (state.addsOthers_deleteName first site name).trans (ih _)
  | deleteElement target =>
    dsimp only [deleteElement]
    split
    · exact .refl _
    · exact .one rfl
  | deleteParent type name => exact .one rfl
  | insert position payload =>
    cases payload with
    | elements nodes =>
      dsimp only
      split
      · exact state.addsOthers_insertElements first site position nodes
      · exact .one rfl
    | properties properties =>
      dsimp only [insertProperties]
      split
      · exact .one rfl
      · split
        · exact .refl _
        · exact .one rfl

theorem addsOthers_applyAll (edits : List Edit) :
    AddsOthers state.warnings (state.applyAll first site edits).warnings := by
  induction edits generalizing state with
  | nil => exact .refl _
  | cons edit edits ih => exact (state.addsOthers_apply first site edit).trans (ih _)

end EditState

namespace Resolve

open ResolveWarning

/-- Working out a definition tells neither of properties without a value nor of variables. -/
theorem course_addsOthers :
    Course fun s s' : ResolveState => AddsOthers s.warnings s'.warnings where
  refl s := .refl s.warnings
  trans := .trans
  warn _ _ := .one
  edit site edits content s := EditState.addsOthers_applyAll
    { content, forest := s.document.forest, warnings := s.warnings } _ site edits
  copy _ s := .refl s.warnings
  exhaust s := .refl s.warnings
  mark s _ _ := .refl s.warnings
  store s _ _ := .refl s.warnings

theorem unfilled_told (usage : Usage) (names : List String) (s : ResolveState) :
    (names.forM fun name => warn (.unfilled usage name)) s =
      .ok () { s with
        warnings := (names.map (ResolveWarning.unfilled usage)).reverse ++ s.warnings } := by
  induction names generalizing s with
  | nil => rfl
  | cons name names ih =>
    refine (ih { s with warnings := .unfilled usage name :: s.warnings }).trans ?_
    simp

/-- What is told of a usage, apart from what was told while its definition was worked out. -/
theorem instantiate_told {usage : Usage} {s s' : ResolveState} {content : Content}
    (ended : instantiate usage s = .ok content s') :
    ∃ received t more, instantiateWith resolve usage s = .ok received t ∧
      content = { received with valueless := [] } ∧ s'.warnings = more ++ s.warnings ∧
      ∀ name, ResolveWarning.unfilled usage name ∈ more ↔ name ∈ received.valueless := by
  have silent := course_addsOthers.instantiateWith course_addsOthers.resolve usage s
  unfold instantiate at ended
  rw [bind_apply] at ended
  cases run : instantiateWith resolve usage s with
  | error e t =>
    rw [run] at ended
    cases ended
  | ok received t =>
    rw [run] at ended silent
    dsimp only at ended
    rw [bind_apply, unfilled_told] at ended
    cases ended
    obtain ⟨others, told, none⟩ := silent
    refine ⟨received, t, (received.valueless.map (ResolveWarning.unfilled usage)).reverse ++ others,
      rfl, rfl, ?_, fun name => ?_⟩
    · dsimp only
      rw [show t.warnings = others ++ s.warnings from told, List.append_assoc]
    · have absent : ResolveWarning.unfilled usage name ∉ others := by
        intro member
        cases none _ member
      simp [absent]

end Resolve

/-- The edits of a usage that are applied: only custom definitions can be edited. -/
def Usage.applied (usage : Usage) (kind : DefinitionKind) : List Edit :=
  if kind = .custom then usage.edits else []

theorem TreeContent.received_eq {content : TreeContent} {usage : Usage}
    (type : content.type = usage.type) (trees : List NodeId → List NodeTree) (first : Nat)
    (kind : DefinitionKind) :
    content.received trees first usage kind =
      (content.fill usage.fills).applyAll trees first (usage.applied kind) := by
  unfold received Usage.applied
  rw [← type]
  split <;> rfl

namespace Resolve

/-- A name is reported if it waits for a value, no fill gives it one and no edit deletes it. It is
missing from the properties all the same unless an insertion, of the definition or of the usage,
gives it a value that stays. -/
theorem instantiate_unfilled_iff {document : Document} (unresolved : document.symbols.Unresolved)
    (earlier : List Demand) (usage : Usage) {content : Content} {s' : ResolveState}
    (ended : instantiate usage (Demand.runAll earlier { document }) = .ok content s') :
    let trees := document.forest.treesOf
    let first := document.symbols.config.indexInitialCount
    ∃ key definition start reported, document.symbols.usageKey usage = some key ∧
      document.symbols.definition? key = some definition ∧
      document.Begins key definition start ∧
      s'.warnings = reported ++ (Demand.runAll earlier { document }).warnings ∧
      ∀ name,
        (.unfilled usage name ∈ reported ↔ name ∈ start.valueless ∧ name ∉ usage.fills.keys ∧
          (key.type = .element ∨
            ∀ edit ∈ definition.edits ++ usage.applied key.kind, ¬edit.Deletes name)) ∧
        (.unfilled usage name ∈ reported → (name ∈ content.properties.keys ↔
          key.type ≠ .element ∧ (
            start.Supplied trees first definition.edits name ∧
                (∀ edit ∈ usage.applied key.kind, ¬edit.TakesOut name) ∨
              ((start.applyAll trees first definition.edits).fill usage.fills).Supplied trees first
                (usage.applied key.kind) name))) := by
  intro trees first
  have recorded := Demand.recorded_runAll unresolved earlier
  obtain ⟨received, t, reported, run, rfl, told, waits⟩ := instantiate_told ended
  obtain ⟨key, view, found, means, draws⟩ :=
    (instantiateWith_draws unresolved.keyed usage recorded).2 received t run
  obtain ⟨definition, start, registered, begins, rfl⟩ := means.begins
  refine ⟨key, definition, start, reported, found, registered, begins, told, fun name => ?_⟩
  have own := start.alters_applyAll name trees first definition.edits
  have filled := (start.applyAll trees first definition.edits).alters_fill name usage.fills
  have edited := ((start.applyAll trees first definition.edits).fill usage.fills).alters_applyAll
    name trees first (usage.applied key.kind)
  have type : start.type = key.type := begins.type
  rw [TreeContent.received_eq (own.type.trans (type.trans (SymbolTable.type_of_usageKey found)))]
    at draws
  have reported_iff : .unfilled usage name ∈ reported ↔ name ∈ start.valueless ∧
      name ∉ usage.fills.keys ∧ (key.type = .element ∨
        ∀ edit ∈ definition.edits ++ usage.applied key.kind, ¬edit.Deletes name) := by
    rw [waits, draws.valueless, edited.waits, filled.waits, own.waits, filled.type, own.type, type,
      List.forall_mem_append]
    tauto
  refine ⟨reported_iff, fun member => ?_⟩
  obtain ⟨waiting, unfilled, -⟩ := reported_iff.1 member
  have absent : name ∉ start.properties.keys := by
    obtain ⟨fuel, inherited, gathered, rfl⟩ := begins
    exact TreeContent.not_mem_keys_withOwn waiting
  change name ∈ received.properties.keys ↔ _
  rw [draws.properties, edited.given, filled.given, own.given, filled.type, own.type, type]
  tauto

/-- A style that inserts the property that it waits for: the property is there, and is reported to
be missing. -/
theorem instantiate_unfilled_iff_inserted :
    let source := "[Custom] @Style Box \x7b color; insert at top \x7b color: red; \x7d \x7d"
    let usage : Usage := { type := .style, name := "Box" }
    ∃ stream, (TokenStream.ofSource source).toOption = some stream ∧
      let document := (ParseResult.ofTokens source stream.tokens {} {}).document
      document.symbols.Unresolved ∧ ∃ content s', instantiate usage { document } = .ok content s' ∧
        s'.warnings = [.unfilled usage "color"] ∧ content.properties.keys = ["color"] ∧
        ∃ key definition start, document.Begins key definition start ∧
          start.Supplied document.forest.treesOf document.symbols.config.indexInitialCount
            definition.edits "color" := by
  intro source usage
  have run : (TokenStream.ofSource source).toOption.map (fun stream =>
      let document := (ParseResult.ofTokens source stream.tokens {} {}).document
      ((valueOf? (instantiate usage { document })).map (·.properties.keys),
        (stateAfter (instantiate usage { document })).warnings)) =
      some (some ["color"], [.unfilled usage "color"]) := by
    decide +kernel
  obtain ⟨stream, tokens, run⟩ := Option.map_eq_some_iff.1 run
  obtain ⟨received, told⟩ := Prod.mk.inj run
  have unresolved := (ParseResult.sound_ofTokens source stream.tokens {} {}).unresolved
  refine ⟨stream, tokens, unresolved, ?_⟩
  obtain ⟨content, ended, keys⟩ := Option.map_eq_some_iff.1 received
  obtain ⟨s', given⟩ := eq_ok_of_valueOf? ended
  have told : s'.warnings = [.unfilled usage "color"] := by rwa [given] at told
  obtain ⟨key, definition, start, reported, -, -, begins, warnings, each⟩ :=
    instantiate_unfilled_iff unresolved [] usage given
  have member : .unfilled usage "color" ∈ reported := by
    have all : s'.warnings = reported := warnings.trans (List.append_nil reported)
    rw [← all, told]
    exact .head _
  have present := ((each "color").2 member).1 (by rw [keys]; exact .head _)
  refine ⟨content, s', given, told, keys, key, definition, start, begins, ?_⟩
  rcases present.2 with supplied | ⟨before, edit, behind, split, -⟩
  · exact supplied.1
  · have none : usage.applied key.kind = [] := ite_self []
    rw [none] at split
    cases before <;> cases split

end Resolve

end TemplateMarkup
