import TemplateMarkup.Proofs.ResolvedContent

/-! What the calls of resolving give depends on the document as it was read, and not on the calls
before. -/
namespace TemplateMarkup.Resolve
open SymbolTable

/-- A state between calls: what has been worked out of `original` is stored, and nothing is
underway. -/
structure Standing (original : Document) (s : ResolveState) : Prop where
  stored : Stored original s.document
  rests : Rests original.symbols s.document.symbols

/-- A call between two such states. It may leave new subtrees at hand. -/
structure Follows (original : Document) (s s' : ResolveState) (held : List NodeId) : Prop where
  standing : Standing original s'
  turns : s.document.forest.Turns s.document.symbols.owned s'.document.forest
    (s'.document.symbols.owned ++ held)
  fresh : ∀ id ∈ held, s.document.forest.slots.size ≤ id.index
  redefines : Redefines s s'

/-- The way in which working out a definition fails. -/
inductive Fails (original : Document) (key : DefinitionKey) : ResolveError → Prop
  | missing (absent : original.symbols.definition? key = none) :
      Fails original key (.undefinedReference key.type key.name.label)
  | cyclic {names : List String} (first : original.symbols.FirstCycle [] key names) :
      Fails original key (.cyclicInheritance names)

/-- A definition has a meaning, and every way up from it ends. -/
structure Succeeds (original : Document) (key : DefinitionKey) (view : TreeContent) : Prop where
  means : original.Means key view
  settles : original.symbols.Settles key

variable {original : Document} {s t u : ResolveState} {key : DefinitionKey}
  {view view' : TreeContent} {e e' : ResolveError} {held : List NodeId}

theorem Follows.refl (standing : Standing original s) : Follows original s s [] :=
  ⟨standing, (Advances.refl standing.stored).turns, by simp, .refl s⟩

theorem Follows.trans (standing : Standing original s) (first : Follows original s t [])
    (second : Follows original t u held) : Follows original s u held := by
  have start := first.turns
  rw [List.append_nil] at start
  exact ⟨second.standing, start.trans second.turns standing.stored.roots, fun id member =>
    Nat.le_trans start.size_le (second.fresh id member), first.redefines.trans second.redefines⟩

theorem Follows.warned (follows : Follows original s t held) (warnings : List ResolveWarning) :
    Follows original s { t with warnings } held :=
  ⟨⟨follows.standing.stored, follows.standing.rests⟩, follows.turns, follows.fresh,
    follows.redefines⟩

/-- Subtrees may be added between calls. -/
theorem Standing.extend {g : Forest} {own : List NodeId} (standing : Standing original s)
    (turns : s.document.forest.Turns [] g own) :
    Standing original { s with document := { s.document with forest := g } } :=
  ⟨standing.stored.extend turns, standing.rests⟩

section

variable (keyed : original.symbols.Keyed)

include keyed

theorem Fails.unique (h : Fails original key e) (h' : Fails original key e') : e = e' := by
  cases h with
  | missing absent =>
    cases h' with
    | missing _ => rfl
    | cyclic first =>
      obtain ⟨_, found⟩ := first.registered (by simp)
      rw [absent] at found
      cases found
  | cyclic first =>
    cases h' with
    | missing absent =>
      obtain ⟨_, found⟩ := first.registered (by simp)
      rw [absent] at found
      cases found
    | cyclic first' => rw [first.unique keyed first' (.singleton key)]

theorem Succeeds.not_fails (h : Succeeds original key view) : ¬Fails original key e := by
  rintro (absent | first)
  · obtain ⟨_, found⟩ := h.means.registered
    rw [absent] at found
    cases found
  · exact h.settles.not_reachesCycle (first.isCycle keyed (.singleton key)).2

/-- How a call that works out `key` ends. -/
def Answers (original : Document) (key : DefinitionKey) (s : ResolveState) :
    EStateM.Result ResolveError ResolveState Unit → Prop
  | .ok _ s' => Follows original s s' [] ∧
      ∃ view definition, Succeeds original key view ∧
        s'.document.symbols.definition? key = some definition ∧
        definition.Shows s'.document.forest view
  | .error e s' => Follows original s s' [] ∧ Fails original key e

theorem resolve_answers (key : DefinitionKey) (standing : Standing original s) :
    Answers original key s (resolve key s) := by
  have ends := resolveFrom_ends keyed (s.document.symbols.definitions.size + 1) [] key
    standing.stored
  have rests := rests_resolve keyed key standing.rests
  have redefines := course_redefines.resolve key s
  cases registered : original.symbols.definition? key with
  | none =>
    have absent : s.document.symbols.definition? key = none := by
      have same := standing.rests.resembles.definition?_isSome key
      rw [registered] at same
      simpa using same
    rw [resolve_unregistered absent]
    exact ⟨.refl standing, .missing registered⟩
  | some definition =>
    have searched := resolve_searched keyed standing.rests ⟨definition, registered⟩
    change Ends original key s (resolve key s) at ends
    cases run : resolve key s with
    | error e s' =>
      rw [run] at ends searched rests redefines
      obtain ⟨_, _, names, rfl, first⟩ := searched
      exact ⟨⟨⟨ends.1.stored, rests⟩, ends.1.turns, by simp, redefines⟩, .cyclic first⟩
    | ok _ s' =>
      rw [run] at ends searched rests redefines
      obtain ⟨advances, d, found, isDone⟩ := ends
      obtain ⟨view, means, shown⟩ := advances.stored.means_of_isDone found isDone
      have settles := searched.1.settled key ⟨d, found, isDone⟩
      exact ⟨⟨⟨advances.stored, rests⟩, advances.turns, by simp, redefines⟩, view, d,
        ⟨means, settles⟩, found, shown⟩

/-- Why a usage cannot receive anything. -/
def Denied (original : Document) (usage : Usage) (e : ResolveError) : Prop :=
  original.symbols.usageKey usage = none ∧ e = .undefinedReference usage.type usage.name ∨
    ∃ key, original.symbols.usageKey usage = some key ∧ Fails original key e

variable {usage : Usage}

theorem Denied.unique (h : Denied original usage e) (h' : Denied original usage e') : e = e' := by
  rcases h with ⟨absent, rfl⟩ | ⟨key, found, fails⟩
  · rcases h' with ⟨-, rfl⟩ | ⟨key', found', -⟩
    · rfl
    · rw [absent] at found'
      cases found'
  · rcases h' with ⟨absent, -⟩ | ⟨key', found', fails'⟩
    · rw [absent] at found
      cases found
    · cases found.symm.trans found'
      exact fails.unique keyed fails'

theorem Succeeds.not_denied (h : Succeeds original key view)
    (found : original.symbols.usageKey usage = some key) : ¬Denied original usage e := by
  rintro (⟨absent, -⟩ | ⟨key', found', fails⟩)
  · rw [absent] at found
    cases found
  · cases found.symm.trans found'
    exact h.not_fails keyed fails

/-- What a call gives that a usage is the argument of; `reference` has the trees that its edits
bring. -/
def Receives (original : Document) (reference : Forest) (usage : Usage) (s : ResolveState) :
    EStateM.Result ResolveError ResolveState Content → Prop
  | .ok content s' => Follows original s s' content.elements ∧ ∃ key view,
      original.symbols.usageKey usage = some key ∧ Succeeds original key view ∧
      content.Shows s'.document.forest (view.received reference.treesOf
        original.symbols.config.indexInitialCount usage key.kind)
  | .error e s' => Follows original s s' [] ∧ Denied original usage e

theorem instantiateWith_receives {reference : Forest} (standing : Standing original s)
    (keeps : Forest.Keeps reference s.document.forest s.document.symbols.owned usage.payload) :
    Receives original reference usage s (instantiateWith resolve usage s) := by
  rw [instantiateWith_apply, standing.rests.resembles.usageKey]
  cases found : original.symbols.usageKey usage with
  | none => exact ⟨.refl standing, .inl ⟨found, rfl⟩⟩
  | some key =>
    have answers := resolve_answers keyed key standing
    dsimp only
    revert answers
    cases resolve key s with
    | error e s' =>
      intro answers
      exact ⟨answers.1, .inr ⟨key, found, answers.2⟩⟩
    | ok _ s' =>
      rintro ⟨follows, view, definition, succeeds, there, shown⟩
      have standing' := follows.standing
      have ownKey := standing'.rests.resembles.keyed keyed key definition there
      have kept := (keeps.turns standing.stored.grown standing.stored.roots follows.turns).apart
        (List.nil_subset _)
      obtain ⟨turns, received⟩ := receive_shows standing'.stored.grown shown kept
      rw [standing'.rests.resembles.config, ownKey] at received
      dsimp only
      rw [there]
      refine ⟨⟨⟨?_, ?_⟩, ?_, fun id member => ?_, follows.redefines.trans (.of_eq ?_)⟩, key, view,
        found, succeeds, received⟩
      · have extended := standing'.stored.extend turns
        rwa [← receive_symbols usage definition s'] at extended
      · rw [receive_symbols]
        exact standing'.rests
      · have framed := (turns.frame s'.document.symbols.owned).perm (.refl _)
          List.perm_append_comm
        have start := follows.turns
        rw [List.append_nil] at start
        rw [receive_symbols]
        exact start.trans framed standing.stored.roots
      · rcases turns.fresh id member with old | new
        · cases old
        · exact Nat.le_trans follows.turns.size_le new
      · exact receive_symbols usage definition s'

end

/-- Telling of properties without a value only adds warnings. -/
theorem unfilled_apply (usage : Usage) (names : List String) (s : ResolveState) :
    ∃ warnings, (names.forM fun name => warn (.unfilled usage name)) s =
      .ok () { s with warnings } := by
  induction names generalizing s with
  | nil => exact ⟨s.warnings, rfl⟩
  | cons name names ih => exact ih { s with warnings := .unfilled usage name :: s.warnings }

theorem instantiate_apply (usage : Usage) (s : ResolveState) :
    ∃ warnings, instantiate usage s =
      match instantiateWith resolve usage s with
      | .error e s' => .error e s'
      | .ok content s' => .ok { content with valueless := [] } { s' with warnings } := by
  unfold instantiate
  rw [bind_apply]
  cases instantiateWith resolve usage s with
  | error e s' => exact ⟨[], rfl⟩
  | ok content s' =>
    obtain ⟨warnings, told⟩ := unfilled_apply usage content.valueless s'
    refine ⟨warnings, ?_⟩
    dsimp only
    rw [bind_apply, told]
    rfl

/-- Two ends with the same outcome, of calls in `s` and in `t`. -/
def Agree (original : Document) (s t : ResolveState) {α : Type} :
    EStateM.Result ResolveError ResolveState α → EStateM.Result ResolveError ResolveState α → Prop
  | .ok a s', .ok b t' => a = b ∧ Follows original s s' [] ∧ Follows original t t' []
  | .error e s', .error e' t' => e = e' ∧ Follows original s s' [] ∧ Follows original t t' []
  | _, _ => False

/-- A call that gives the same wherever it is made. -/
def Steady (original : Document) {α : Type} (x : Resolve α) : Prop :=
  ∀ s t, Standing original s → Standing original t → Agree original s t (x s) (x t)

section Steady

variable {α β : Type}

theorem steady_pure (a : α) : Steady original (pure a) :=
  fun _ _ hs ht => ⟨rfl, .refl hs, .refl ht⟩

theorem steady_warn (warning : ResolveWarning) : Steady original (warn warning) :=
  fun _ _ hs ht => ⟨rfl, (Follows.refl hs).warned _, (Follows.refl ht).warned _⟩

theorem Agree.after {s' t' : ResolveState} {r r' : EStateM.Result ResolveError ResolveState α}
    (agree : Agree original s' t' r r') (hs : Standing original s) (ht : Standing original t)
    (first : Follows original s s' []) (first' : Follows original t t' []) :
    Agree original s t r r' := by
  cases r <;> cases r'
  · exact ⟨agree.1, first.trans hs agree.2.1, first'.trans ht agree.2.2⟩
  · exact agree
  · exact agree
  · exact ⟨agree.1, first.trans hs agree.2.1, first'.trans ht agree.2.2⟩

theorem Steady.bind {x : Resolve α} {f : α → Resolve β} (first : Steady original x)
    (later : ∀ a, Steady original (f a)) : Steady original (x >>= f) := by
  intro s t hs ht
  have agree := first s t hs ht
  rw [bind_apply, bind_apply]
  generalize x s = result at agree ⊢
  generalize x t = result' at agree ⊢
  cases result with
  | ok a s' =>
    cases result' with
    | ok b t' =>
      obtain ⟨rfl, hs', ht'⟩ := agree
      exact (later a s' t' hs'.standing ht'.standing).after hs ht hs' ht'
    | error e' t' => exact agree.elim
  | error e s' =>
    cases result' with
    | ok b t' => exact agree.elim
    | error e' t' => exact agree

end Steady

/-- The properties of a definition, once it has been worked out. -/
def propertiesOf (key : DefinitionKey) : Resolve (Option (OrderedMap String Value)) := do
  resolve key
  return ((← symbols).definition? key).map Definition.properties

theorem propertiesOf_apply (key : DefinitionKey) (s : ResolveState) :
    propertiesOf key s = match resolve key s with
      | .ok _ s' => .ok ((s'.document.symbols.definition? key).map Definition.properties) s'
      | .error e s' => .error e s' := by
  unfold propertiesOf
  rw [bind_apply]
  cases resolve key s <;> rfl

/-- What a reference stands for in a group with these properties. -/
def variableIn (render : Option (Value → Resolve String)) (key : DefinitionKey) (ref : VarRef)
    (properties : OrderedMap String Value) : Resolve (Option String) :=
  match properties.get? ref.name with
  | none => do
    warn (.noVariable key ref.name)
    return none
  | some value => varText render key ref value

/-- What a reference stands for where `found` is its group. -/
def variableOf (render : Option (Value → Resolve String)) (ref : VarRef)
    (found : Option DefinitionKey) : Resolve (Option String) :=
  match found with
  | none => pure none
  | some key => propertiesOf key >>= fun
    | none => pure none
    | some properties => variableIn render key ref properties

theorem resolveVarWith_apply (render : Option (Value → Resolve String)) (ref : VarRef)
    (s : ResolveState) :
    resolveVarWith render ref s =
      variableOf render ref (s.document.symbols.lookupKey ref.group .var none ref.scope) s := by
  unfold resolveVarWith
  rw [bind_apply, symbols_apply]
  dsimp only
  cases s.document.symbols.lookupKey ref.group .var none ref.scope with
  | none => rfl
  | some key =>
    dsimp only [variableOf]
    rw [bind_apply, bind_apply, propertiesOf_apply]
    cases resolve key s with
    | error e s' => rfl
    | ok _ s' =>
      dsimp only
      rw [bind_apply, symbols_apply]
      dsimp only
      cases s'.document.symbols.definition? key <;> rfl

/-- A property of computations that holds of the whole where it holds of the steps, and that holds
of the steps by which values are rendered. -/
structure Stepwise (P : ∀ {α : Type}, Resolve α → Prop) : Prop where
  pure : ∀ {α : Type} (a : α), P (pure a)
  bind : ∀ {α β : Type} {x : Resolve α} {f : α → Resolve β}, P x → (∀ a, P (f a)) → P (x >>= f)
  warn : ∀ warning, P (warn warning)
  group : ∀ (ref : VarRef) {f : Option DefinitionKey → Resolve (Option String)},
    (∀ found, P (f found)) →
      P fun s => f (s.document.symbols.lookupKey ref.group .var none ref.scope) s
  propertiesOf : ∀ key, P (propertiesOf key)

namespace Stepwise

variable {P : ∀ {α : Type}, Resolve α → Prop} {α β : Type}

variable (stepwise : Stepwise P)

include stepwise

theorem mapM {f : α → Resolve β} (each : ∀ a, P (f a)) (items : List α) : P (items.mapM f) := by
  induction items with
  | nil => exact stepwise.pure []
  | cons a items ih =>
    rw [List.mapM_cons]
    exact stepwise.bind (each a) fun b => stepwise.bind ih fun bs => stepwise.pure (b :: bs)

theorem varText {render : Option (Value → Resolve String)}
    (each : ∀ r ∈ render, ∀ value, P (r value)) (key : DefinitionKey) (ref : VarRef)
    (value : Value) : P (varText render key ref value) := by
  unfold Resolve.varText
  split
  · exact stepwise.pure _
  · cases render with
    | some r =>
      have text := stepwise.bind (each r rfl value) fun text => stepwise.pure (some text)
      dsimp only
      split
      · exact stepwise.bind (stepwise.warn _) fun _ => text
      · exact text
    | none =>
      have deep := stepwise.bind (stepwise.warn (.variableTooDeep ref)) fun _ =>
        stepwise.pure (none : Option String)
      dsimp only
      split
      · exact stepwise.bind (stepwise.warn _) fun _ => deep
      · exact deep

theorem resolveVarWith {render : Option (Value → Resolve String)}
    (each : ∀ r ∈ render, ∀ value, P (r value)) (ref : VarRef) : P (resolveVarWith render ref) := by
  rw [funext (resolveVarWith_apply render ref)]
  refine stepwise.group ref fun found => ?_
  cases found with
  | none => exact stepwise.pure none
  | some key =>
    refine stepwise.bind (stepwise.propertiesOf key) fun found => ?_
    cases found with
    | none => exact stepwise.pure none
    | some properties =>
      dsimp only [variableIn]
      cases properties.get? ref.name with
      | none => exact stepwise.bind (stepwise.warn _) fun _ => stepwise.pure none
      | some value => exact stepwise.varText each key ref value

theorem renderWith {resolveVar : VarRef → Resolve (Option String)}
    (each : ∀ ref, P (resolveVar ref)) (value : Value) : P (renderWith resolveVar value) := by
  refine stepwise.bind (stepwise.mapM (fun part => ?_) value.parts) fun texts => stepwise.pure _
  cases part with
  | text text => exact stepwise.pure text
  | var ref => exact stepwise.bind (each ref) fun text => stepwise.pure _

theorem resolveVar (ref : VarRef) : P (resolveVar ref) := by
  unfold Resolve.resolveVar
  generalize maxVarDepth = levels
  induction levels generalizing ref with
  | zero => exact stepwise.resolveVarWith (by simp) ref
  | succ levels ih =>
    refine stepwise.resolveVarWith (fun r member value => ?_) ref
    cases Option.mem_some.1 member
    exact stepwise.renderWith ih value

theorem renderValue (value : Value) : P (renderValue value) :=
  stepwise.renderWith stepwise.resolveVar value

end Stepwise

section

variable (keyed : original.symbols.Keyed)

include keyed

theorem steady_propertiesOf (key : DefinitionKey) : Steady original (propertiesOf key) := by
  intro s t hs ht
  have answers := resolve_answers keyed key hs
  have answers' := resolve_answers keyed key ht
  rw [propertiesOf_apply, propertiesOf_apply]
  generalize resolve key s = result at answers ⊢
  generalize resolve key t = result' at answers' ⊢
  cases result with
  | ok _ s' =>
    obtain ⟨hs', view, definition, succeeds, found, shown⟩ := answers
    cases result' with
    | ok _ t' =>
      obtain ⟨ht', view', definition', succeeds', found', shown'⟩ := answers'
      have same := succeeds.means.unique succeeds'.means
      refine ⟨?_, hs', ht'⟩
      rw [found, found', Option.map_some, Option.map_some, shown.properties, shown'.properties,
        same]
    | error e t' => exact succeeds.not_fails keyed answers'.2
  | error e s' =>
    cases result' with
    | ok _ t' =>
      obtain ⟨_, view', _, succeeds', -⟩ := answers'
      exact succeeds'.not_fails keyed answers.2
    | error e' t' =>
      exact ⟨answers.2.unique keyed answers'.2, answers.1, answers'.1⟩

theorem stepwise_steady : Stepwise (Steady original) where
  pure := steady_pure
  bind := .bind
  warn := steady_warn
  group ref f each s t hs ht := by
    dsimp only
    rw [hs.rests.resembles.lookupKey, ht.rests.resembles.lookupKey]
    exact each _ s t hs ht
  propertiesOf := steady_propertiesOf keyed

theorem steady_resolveVar (ref : VarRef) : Steady original (resolveVar ref) :=
  (stepwise_steady keyed).resolveVar ref

theorem steady_renderValue (value : Value) : Steady original (renderValue value) :=
  (stepwise_steady keyed).renderValue value

end

end TemplateMarkup.Resolve
