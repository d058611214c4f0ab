import Mathlib.Tactic.Choose
import TemplateMarkup.Proofs.UnfilledNames

/-! Values with their variables put in. Up to the limit on how far one reference leads to the next
this is the whole substitution; a reference beyond it keeps its own text and is told of. -/
namespace TemplateMarkup

namespace Value

def partWith (texts : VarRef → String) : ValuePart → String
  | .text text => text
  | .var ref => texts ref

/-- The text of a value with a text for each of its references. -/
def textWith (texts : VarRef → String) (value : Value) : String :=
  Text.trim (String.join (value.parts.map (partWith texts)))

theorem textWith_congr {value : Value} {texts texts' : VarRef → String}
    (same : ∀ ref ∈ value.vars, texts ref = texts' ref) :
    value.textWith texts = value.textWith texts' := by
  unfold textWith
  congr 2
  refine List.map_congr_left fun part member => ?_
  cases part with
  | text text => rfl
  | var ref => exact same ref (List.mem_filterMap.2 ⟨.var ref, member, rfl⟩)

end Value

namespace Document

variable (document : Document)

/-- The group of a reference, and the value that the variable has in it. -/
def Variable (ref : VarRef) (key : DefinitionKey) (value : Value) : Prop :=
  document.symbols.lookupKey ref.group .var none ref.scope = some key ∧
    ∃ view, document.Means key view ∧ view.properties.get? ref.name = some value

/-- A reference that is answered by the value of its variable. -/
def Follows (ref : VarRef) (value : Value) : Prop :=
  ∃ key, document.Variable ref key value ∧ ¬(key.kind = .custom ∧ ref.override.isSome)

/-- What stands for a reference in the whole substitution. -/
inductive Expands : VarRef → String → Prop
  | raw {ref : VarRef} : (∀ key value, ¬document.Variable ref key value) → Expands ref ref.raw
  | override {ref : VarRef} {key : DefinitionKey} {value : Value} {text : String} :
      document.Variable ref key value → key.kind = .custom → ref.override = some text →
      Expands ref text
  | value {ref : VarRef} {value : Value} (texts : VarRef → String) :
      document.Follows ref value → (∀ next ∈ value.vars, Expands next (texts next)) →
      Expands ref (value.textWith texts)

/-- What stands for a reference when so many more may be followed, with the references that are cut
off, in their order. -/
inductive ExpandsIn : Nat → VarRef → String → List VarRef → Prop
  | raw {levels : Nat} {ref : VarRef} : (∀ key value, ¬document.Variable ref key value) →
      ExpandsIn levels ref ref.raw []
  | override {levels : Nat} {ref : VarRef} {key : DefinitionKey} {value : Value} {text : String} :
      document.Variable ref key value → key.kind = .custom → ref.override = some text →
      ExpandsIn levels ref text []
  | value {levels : Nat} {ref : VarRef} {value : Value} (texts : VarRef → String)
      (cuts : VarRef → List VarRef) : document.Follows ref value →
      (∀ next ∈ value.vars, ExpandsIn levels next (texts next) (cuts next)) →
      ExpandsIn (levels + 1) ref (value.textWith texts) (value.vars.flatMap cuts)
  | cut {ref : VarRef} {value : Value} : document.Follows ref value →
      ExpandsIn 0 ref ref.raw [ref]

/-- The whole substitution of a value. -/
def RendersTo (value : Value) (text : String) : Prop :=
  ∃ texts, (∀ ref ∈ value.vars, document.Expands ref (texts ref)) ∧ text = value.textWith texts

/-- The substitution of a value when references may be followed so far. -/
def RendersIn (levels : Nat) (value : Value) (text : String) (cut : List VarRef) : Prop :=
  ∃ texts cuts, (∀ ref ∈ value.vars, document.ExpandsIn levels ref (texts ref) (cuts ref)) ∧
    text = value.textWith texts ∧ cut = value.vars.flatMap cuts

/-- A reference that is followed leads to the last one of a chain, so many further on. -/
inductive LeadsIn : Nat → VarRef → VarRef → Prop
  | here (ref : VarRef) : LeadsIn 0 ref ref
  | step {n : Nat} {ref next last : VarRef} {value : Value} : document.Follows ref value →
      next ∈ value.vars → LeadsIn n next last → LeadsIn (n + 1) ref last

variable {document} {ref : VarRef} {key key' : DefinitionKey} {value value' : Value}

theorem Variable.unique (h : document.Variable ref key value)
    (h' : document.Variable ref key' value') : key = key' ∧ value = value' := by
  obtain ⟨found, view, means, there⟩ := h
  obtain ⟨found', view', means', there'⟩ := h'
  cases found.symm.trans found'
  cases means.unique means'
  exact ⟨rfl, Option.some.inj (there.symm.trans there')⟩

theorem Follows.unique (h : document.Follows ref value) (h' : document.Follows ref value') :
    value = value' := by
  obtain ⟨_, found, -⟩ := h
  obtain ⟨_, found', -⟩ := h'
  exact (found.unique found').2

variable {text : String}

theorem Follows.not_override (h : document.Follows ref value)
    (found : document.Variable ref key value') (custom : key.kind = .custom)
    (given : ref.override = some text) : False := by
  obtain ⟨_, found', plain⟩ := h
  cases (found.unique found').1
  exact plain ⟨custom, by simp [given]⟩

theorem Expands.unique {text' : String} (h : document.Expands ref text)
    (h' : document.Expands ref text') : text = text' := by
  induction h generalizing text' with
  | raw none =>
    cases h' with
    | raw => rfl
    | override found => exact absurd found (none _ _)
    | value texts follows => exact absurd follows.choose_spec.1 (none _ _)
  | override found custom given =>
    cases h' with
    | raw none => exact absurd found (none _ _)
    | override _ _ given' => exact Option.some.inj (given.symm.trans given')
    | value texts follows => exact (follows.not_override found custom given).elim
  | value texts follows _ ih =>
    cases h' with
    | raw none => exact absurd follows.choose_spec.1 (none _ _)
    | override found custom given => exact (follows.not_override found custom given).elim
    | value texts' follows' each =>
      cases follows.unique follows'
      exact Value.textWith_congr fun next member => ih next member (each next member)

variable {levels : Nat}

/-- The references that are cut off are those that would be followed at the end of a chain of full
length. -/
theorem ExpandsIn.mem_cut {cut : List VarRef}
    (h : document.ExpandsIn levels ref text cut) (last : VarRef) :
    last ∈ cut ↔ document.LeadsIn levels ref last ∧ ∃ value, document.Follows last value := by
  induction h with
  | @raw levels ref none =>
    refine iff_of_false (by simp) ?_
    rintro ⟨leads, value, follows⟩
    cases leads with
    | here => exact none _ _ follows.choose_spec.1
    | step follows => exact none _ _ follows.choose_spec.1
  | override found custom given =>
    refine iff_of_false (by simp) ?_
    rintro ⟨leads, value, follows⟩
    cases leads with
    | here => exact follows.not_override found custom given
    | step follows => exact follows.not_override found custom given
  | @value levels ref value texts cuts follows each ih =>
    rw [List.mem_flatMap]
    constructor
    · rintro ⟨next, member, there⟩
      obtain ⟨leads, followed⟩ := (ih next member).1 there
      exact ⟨.step follows member leads, followed⟩
    · rintro ⟨leads, followed⟩
      cases leads with
      | step follows' member leads =>
        cases follows.unique follows'
        exact ⟨_, member, (ih _ member).2 ⟨leads, followed⟩⟩
  | cut follows =>
    rw [List.mem_singleton]
    constructor
    · rintro rfl
      exact ⟨.here _, _, follows⟩
    · rintro ⟨leads, -⟩
      cases leads
      rfl

theorem ExpandsIn.expands
    (h : document.ExpandsIn levels ref text []) : document.Expands ref text := by
  generalize none : ([] : List VarRef) = cut at h
  induction h with
  | raw absent => exact .raw absent
  | override found custom given => exact .override found custom given
  | value texts cuts follows each ih =>
    refine .value texts follows fun next member => ih next member ?_
    exact (List.flatMap_eq_nil_iff.1 none.symm next member).symm
  | cut => cases none

theorem RendersIn.mem_cut {cut : List VarRef}
    (h : document.RendersIn levels value text cut) (last : VarRef) :
    last ∈ cut ↔ (∃ first ∈ value.vars, document.LeadsIn levels first last) ∧
      ∃ value, document.Follows last value := by
  obtain ⟨texts, cuts, each, -, rfl⟩ := h
  rw [List.mem_flatMap]
  constructor
  · rintro ⟨first, member, there⟩
    obtain ⟨leads, followed⟩ := ((each first member).mem_cut last).1 there
    exact ⟨⟨first, member, leads⟩, followed⟩
  · rintro ⟨⟨first, member, leads⟩, followed⟩
    exact ⟨first, member, ((each first member).mem_cut last).2 ⟨leads, followed⟩⟩

theorem RendersIn.rendersTo
    (h : document.RendersIn levels value text []) : document.RendersTo value text := by
  obtain ⟨texts, cuts, each, same, none⟩ := h
  refine ⟨texts, fun ref member => ?_, same⟩
  have here := each ref member
  rw [List.flatMap_eq_nil_iff.1 none.symm ref member] at here
  exact here.expands

end Document

/-- The reference that a warning says leads too far. -/
def ResolveWarning.tooDeep? : ResolveWarning → Option VarRef
  | .variableTooDeep ref => some ref
  | _ => none

/-- The references that some warnings say lead too far. -/
def ResolveWarning.tooDeep (warnings : List ResolveWarning) : List VarRef :=
  warnings.filterMap tooDeep?

theorem ResolveWarning.AddsOthers.tooDeep {a b : List ResolveWarning} (adds : AddsOthers a b) :
    ResolveWarning.tooDeep b = ResolveWarning.tooDeep a := by
  obtain ⟨more, rfl, others⟩ := adds
  have none : more.filterMap tooDeep? = [] := by
    refine List.filterMap_eq_nil_iff.2 fun warning member => ?_
    have other := others warning member
    cases warning with
    | variableTooDeep ref => cases other
    | _ => rfl
  rw [ResolveWarning.tooDeep, List.filterMap_append, none]
  rfl

namespace Resolve

variable {α β : Type} {document : Document}

/-- Whatever has been worked out, a computation gives this result and tells of these references. -/
def Gives (document : Document) (x : Resolve α) (a : α) (told : List VarRef) : Prop :=
  ∀ s, Filed document s.document → ∃ s', x s = .ok a s' ∧ Filed document s'.document ∧
    ResolveWarning.tooDeep s'.warnings = told.reverse ++ ResolveWarning.tooDeep s.warnings

theorem gives_pure (a : α) : Gives document (pure a) a [] := fun s filed => ⟨s, rfl, filed, rfl⟩

theorem gives_warn (warning : ResolveWarning) :
    Gives document (warn warning) () warning.tooDeep?.toList := by
  intro s filed
  refine ⟨_, rfl, filed, ?_⟩
  change ResolveWarning.tooDeep (warning :: s.warnings) = _
  rw [ResolveWarning.tooDeep, List.filterMap_cons]
  cases warning.tooDeep? <;> rfl

theorem Gives.bind {x : Resolve α} {f : α → Resolve β} {a : α} {b : β} {told told' : List VarRef}
    (first : Gives document x a told) (later : Gives document (f a) b told') :
    Gives document (x >>= f) b (told ++ told') := by
  intro s filed
  obtain ⟨middle, run, filed', adds⟩ := first s filed
  obtain ⟨last, run', filed'', adds'⟩ := later middle filed'
  refine ⟨last, ?_, filed'', ?_⟩
  · rw [bind_apply, run]
    exact run'
  · rw [adds', adds, List.reverse_append, List.append_assoc]

theorem gives_mapM {f : α → Resolve β} {g : α → β} {told : α → List VarRef} {items : List α}
    (each : ∀ a ∈ items, Gives document (f a) (g a) (told a)) :
    Gives document (items.mapM f) (items.map g) (items.flatMap told) := by
  induction items with
  | nil => exact gives_pure []
  | cons a items ih =>
    rw [List.mapM_cons, List.flatMap_cons, ← List.append_nil (items.flatMap told)]
    refine (each a (.head _)).bind ((ih fun a member => each a (.tail _ member)).bind ?_)
    exact gives_pure (g a :: items.map g)

/-- The references in one part of a value. -/
def refsOf : ValuePart → List VarRef
  | .text _ => []
  | .var ref => [ref]

theorem vars_eq_flatMap (value : Value) : value.vars = value.parts.flatMap refsOf := by
  rw [Value.vars, List.filterMap_eq_flatMap_toList]
  congr 1
  funext part
  cases part <;> rfl

/-- Once its references are known, so is the text of a value. -/
theorem gives_renderWith {resolveVar : VarRef → Resolve (Option String)} {value : Value}
    {answers : VarRef → Option String} {cuts : VarRef → List VarRef}
    (each : ∀ ref ∈ value.vars, Gives document (resolveVar ref) (answers ref) (cuts ref)) :
    Gives document (renderWith resolveVar value)
      (value.textWith fun ref => (answers ref).getD ref.raw) (value.vars.flatMap cuts) := by
  have told : value.vars.flatMap cuts =
      (value.parts.flatMap fun part => (refsOf part).flatMap cuts) ++ [] := by
    rw [vars_eq_flatMap, List.flatMap_assoc, List.append_nil]
  rw [told]
  refine Gives.bind (a := value.parts.map (Value.partWith fun ref => (answers ref).getD ref.raw))
    (gives_mapM fun part member => ?_) (gives_pure _)
  cases part with
  | text text => exact gives_pure text
  | var ref =>
    have there : ref ∈ value.vars := List.mem_filterMap.2 ⟨.var ref, member, rfl⟩
    have one : (refsOf (.var ref)).flatMap cuts = cuts ref ++ [] := by simp [refsOf]
    rw [one]
    exact (each ref there).bind (gives_pure _)

/-- Without a cycle among its parents a definition has a meaning, and working it out gives it the
properties that it means. -/
theorem gives_propertiesOf (unresolved : document.symbols.Unresolved) {key : DefinitionKey}
    (registered : ∃ definition, document.symbols.definition? key = some definition)
    (acyclic : ¬document.symbols.ReachesCycle key) :
    ∃ view, document.Means key view ∧
      Gives document (propertiesOf key) (some view.properties) [] := by
  have keyed := unresolved.keyed
  have worked (s : ResolveState) (filed : Filed document s.document) :
      ∃ view s', document.Means key view ∧ propertiesOf key s = .ok (some view.properties) s' ∧
        Filed document s'.document ∧
        ResolveWarning.tooDeep s'.warnings = ResolveWarning.tooDeep s.warnings := by
    have searched := resolve_searched keyed filed.rests registered
    have registers : Registers document key s (resolve key s) :=
      resolveFrom_registers keyed _ [] key filed.recorded
    have kept := keeps_resolve keyed key s filed
    have silent := (course_addsOthers.resolve key s).tooDeep
    rw [propertiesOf_apply]
    cases run : resolve key s with
    | error e s' =>
      rw [run] at searched
      obtain ⟨-, -, names, -, first⟩ := searched
      exact absurd (first.isCycle keyed (.singleton key)).2 acyclic
    | ok _ s' =>
      rw [run] at registers kept silent
      obtain ⟨passes, record, found, isDone⟩ := registers
      obtain ⟨_, view, -, means, properties, -⟩ := passes.recorded.of_isDone found isDone
      refine ⟨view, s', means, ?_, kept, silent⟩
      dsimp only
      rw [found, Option.map_some, properties]
  obtain ⟨view, _, means, -⟩ := worked { document } (filed_of_unresolved unresolved)
  refine ⟨view, means, fun s filed => ?_⟩
  obtain ⟨view', s', means', run, filed', told⟩ := worked s filed
  cases means.unique means'
  exact ⟨s', run, filed', told⟩

/-- What stands for a reference that is followed, where `render` gives the text of its value. -/
def followed (render : Option (Value → Resolve String)) (ref : VarRef) (value : Value) :
    Resolve (Option String) :=
  match render with
  | some render => do return some (← render value)
  | none => do
    warn (.variableTooDeep ref)
    return none

section Answers

variable {render : Option (Value → Resolve String)} {key : DefinitionKey} {ref : VarRef}
  {value : Value} {answer : Option String} {told : List VarRef}

theorem gives_varText (plain : ¬(key.kind = .custom ∧ ref.override.isSome))
    (rest : Gives document (followed render ref value) answer told) :
    Gives document (varText render key ref value) answer told := by
  unfold varText
  split
  · next given custom => exact absurd ⟨custom, by simp [given]⟩ plain
  · have warned : Gives document
        (warn (.templateOverride ref) >>= fun _ => followed render ref value) answer told :=
      (gives_warn _).bind rest
    cases render with
    | some | none =>
      dsimp only
      split
      · exact warned
      · exact rest

theorem gives_resolveVarWith {properties : OrderedMap String Value}
    (found : document.symbols.lookupKey ref.group .var none ref.scope = some key)
    (group : Gives document (propertiesOf key) (some properties) [])
    (rest : Gives document (variableIn render key ref properties) answer told) :
    Gives document (resolveVarWith render ref) answer told := by
  intro s filed
  rw [resolveVarWith_apply, filed.recorded.resembles.lookupKey, found]
  exact Gives.bind group rest s filed

end Answers

/-- What a reference stands for is known if that of one that is followed is. -/
theorem gives_reference (unresolved : document.symbols.Unresolved) {levels : Nat} (ref : VarRef)
    (acyclic : ∀ n last key, document.LeadsIn n ref last →
      document.symbols.lookupKey last.group .var none last.scope = some key →
      ¬document.symbols.ReachesCycle key)
    {render : Option (Value → Resolve String)}
    (follow : ∀ value, document.Follows ref value → ∃ answer cut,
      Gives document (followed render ref value) answer cut ∧
        document.ExpandsIn levels ref (answer.getD ref.raw) cut) :
    ∃ answer cut, Gives document (resolveVarWith render ref) answer cut ∧
      document.ExpandsIn levels ref (answer.getD ref.raw) cut := by
  cases found : document.symbols.lookupKey ref.group .var none ref.scope with
  | none =>
    refine ⟨none, [], fun s filed => ⟨s, ?_, filed, rfl⟩, .raw ?_⟩
    · rw [resolveVarWith_apply, filed.recorded.resembles.lookupKey, found]
      rfl
    · rintro key value ⟨here, -⟩
      cases found.symm.trans here
  | some key =>
    obtain ⟨view, means, group⟩ := gives_propertiesOf unresolved
      (SymbolTable.lookupKey_registered found) (acyclic 0 ref key (.here ref) found)
    cases there : view.properties.get? ref.name with
    | none =>
      refine ⟨none, [], gives_resolveVarWith found group ?_, .raw ?_⟩
      · rw [variableIn, there]
        exact (gives_warn (.noVariable key ref.name)).bind (gives_pure none)
      · rintro key' value ⟨here, view', means', there'⟩
        cases found.symm.trans here
        cases means.unique means'
        cases there.symm.trans there'
    | some value =>
      have variable' : document.Variable ref key value := ⟨found, view, means, there⟩
      by_cases overridden : key.kind = .custom ∧ ref.override.isSome
      · obtain ⟨custom, given⟩ := overridden
        obtain ⟨text, given⟩ := Option.isSome_iff_exists.1 given
        refine ⟨some text, [], gives_resolveVarWith found group ?_,
          .override variable' custom given⟩
        simp only [variableIn, there, varText, given, custom]
        exact gives_pure _
      · obtain ⟨answer, cut, gives, expands⟩ := follow value ⟨key, variable', overridden⟩
        refine ⟨answer, cut, gives_resolveVarWith found group ?_, expands⟩
        rw [variableIn, there]
        exact gives_varText overridden gives

/-- What a reference stands for is known, whatever has been worked out. -/
theorem gives_resolveVarAt (unresolved : document.symbols.Unresolved) (levels : Nat) (ref : VarRef)
    (acyclic : ∀ n last key, document.LeadsIn n ref last →
      document.symbols.lookupKey last.group .var none last.scope = some key →
      ¬document.symbols.ReachesCycle key) :
    ∃ answer cut, Gives document (resolveVarAt levels ref) answer cut ∧
      document.ExpandsIn levels ref (answer.getD ref.raw) cut := by
  induction levels generalizing ref with
  | zero =>
    exact gives_reference unresolved ref acyclic fun value follows =>
      ⟨none, [ref], (gives_warn (.variableTooDeep ref)).bind (gives_pure none), .cut follows⟩
  | succ levels ih =>
    refine gives_reference unresolved ref acyclic fun value follows => ?_
    have each : ∀ next, next ∈ value.vars → ∃ answer cut,
        Gives document (resolveVarAt levels next) answer cut ∧
          document.ExpandsIn levels next (answer.getD next.raw) cut := fun next member =>
      ih next fun n last key leads => acyclic (n + 1) last key (.step follows member leads)
    choose! answers cuts gives expands using each
    refine ⟨some (value.textWith fun next => (answers next).getD next.raw),
      value.vars.flatMap cuts, ?_, .value _ cuts follows expands⟩
    rw [← List.append_nil (value.vars.flatMap cuts)]
    exact Gives.bind (gives_renderWith gives) (gives_pure _)

/-- Where no group on the way has a cycle among its parents, rendering a value puts in its
variables, with references being followed through at most 16 others: one in the seventeenth place of
a chain keeps its own text if it would be followed, and is told of once for each place where it
stands. If there is none the substitution is whole, and nothing is told of. -/
theorem renderValue_rendersIn {document : Document} (unresolved : document.symbols.Unresolved)
    (earlier : List Demand) (value : Value)
    (acyclic : ∀ first ∈ value.vars, ∀ n last key, document.LeadsIn n first last →
      document.symbols.lookupKey last.group .var none last.scope = some key →
      ¬document.symbols.ReachesCycle key) :
    let s := Demand.runAll earlier { document }
    ∃ text s' cut, renderValue value s = .ok text s' ∧
      ResolveWarning.tooDeep s'.warnings = cut.reverse ++ ResolveWarning.tooDeep s.warnings ∧
      document.RendersIn 16 value text cut ∧
      (∀ last, last ∈ cut ↔ (∃ first ∈ value.vars, document.LeadsIn 16 first last) ∧
        ∃ value, document.Follows last value) ∧
      ((∀ first ∈ value.vars, ∀ last, document.LeadsIn 16 first last →
          ¬∃ value, document.Follows last value) →
        document.RendersTo value text ∧
          ResolveWarning.tooDeep s'.warnings = ResolveWarning.tooDeep s.warnings) := by
  intro s
  have each : ∀ ref, ref ∈ value.vars → ∃ answer cut,
      Gives document (resolveVar ref) answer cut ∧
        document.ExpandsIn 16 ref (answer.getD ref.raw) cut := fun ref member =>
    gives_resolveVarAt unresolved maxVarDepth ref (acyclic ref member)
  choose! answers cuts gives expands using each
  obtain ⟨s', run, -, told⟩ := gives_renderWith gives s (Demand.filed_runAll unresolved earlier)
  have renders : document.RendersIn 16 value
      (value.textWith fun ref => (answers ref).getD ref.raw) (value.vars.flatMap cuts) :=
    ⟨_, cuts, expands, rfl, rfl⟩
  refine ⟨_, s', _, run, told, renders, renders.mem_cut, fun short => ?_⟩
  have none : value.vars.flatMap cuts = [] := by
    refine List.eq_nil_iff_forall_not_mem.2 fun last member => ?_
    obtain ⟨⟨first, there, leads⟩, follows⟩ := (renders.mem_cut last).1 member
    exact short first there last leads follows
  rw [none] at renders told
  exact ⟨renders.rendersTo, told⟩

/-- A group whose only variable refers to itself. -/
def echoTable : SymbolTable :=
  let ref : VarRef := ⟨"Echo", "x", none, "", "Echo(x)"⟩
  (({} : SymbolTable).register
    { key := ⟨.template, .var, ⟨"", "Echo"⟩⟩
      properties := ({} : OrderedMap String Value).insert "x" ⟨[.text "(", .var ref, .text ")"]⟩ }).2

/-- A variable that refers to itself is put in sixteen times. -/
theorem renderValue_rendersIn_echo :
    let ref : VarRef := ⟨"Echo", "x", none, "", "Echo(x)"⟩
    let document : Document := { symbols := echoTable }
    ∃ text s', renderValue ⟨[.var ref]⟩ { document } = .ok text s' ∧
      text = "((((((((((((((((Echo(x)))))))))))))))))" ∧
      ResolveWarning.tooDeep s'.warnings = [ref] ∧ document.RendersIn 16 ⟨[.var ref]⟩ text [ref] ∧
      document.LeadsIn 16 ref ref := by
  intro ref document
  have unresolved : document.symbols.Unresolved :=
    SymbolTable.unresolved_of_entries (by decide)
  have acyclic (key : DefinitionKey) : ¬document.symbols.ReachesCycle key := by
    rintro ⟨member, -, cycle⟩
    obtain ⟨_, ⟨definition, found, inheritance, there, -⟩, -⟩ :=
      Relation.TransGen.head'_iff.1 cycle
    have none : ∀ e ∈ document.symbols.definitions.entries, e.2.parents = [] := by decide
    rw [none _ (OrderedMap.mem_entries_of_get? found)] at there
    cases there
  have shown : valueOf? (renderValue ⟨[.var ref]⟩ { document }) =
      some "((((((((((((((((Echo(x)))))))))))))))))" := by decide +kernel
  have warned : ResolveWarning.tooDeep
      (stateAfter (renderValue ⟨[.var ref]⟩ { document })).warnings = [ref] := by decide +kernel
  obtain ⟨text, s', cut, run, told, renders, cuts, -⟩ :=
    renderValue_rendersIn unresolved [] ⟨[.var ref]⟩ fun _ _ _ _ key _ _ => acyclic key
  change renderValue ⟨[.var ref]⟩ { document } = .ok text s' at run
  rw [run] at shown warned
  have one : cut = [ref] := by
    have all : [ref] = cut.reverse ++ [] := warned.symm.trans told
    rw [List.append_nil] at all
    exact List.reverse_eq_iff.1 all.symm
  subst one
  obtain ⟨⟨first, member, leads⟩, -⟩ := (cuts ref).1 (.head _)
  cases List.mem_singleton.1 member
  exact ⟨text, s', run, Option.some.inj shown, warned, renders, leads⟩

end Resolve

end TemplateMarkup
