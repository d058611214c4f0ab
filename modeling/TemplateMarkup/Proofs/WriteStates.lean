import TemplateMarkup.Proofs.DefinedTrees
import TemplateMarkup.Proofs.NamedElements
import TemplateMarkup.Proofs.ResolveOutcomes
import TemplateMarkup.Writing.Documents

/-! Documents while they are written. Style blocks, script blocks and lookups work beside the tree
and leave it as it is, and what they come to depends only on what has been gathered before. -/
namespace TemplateMarkup

/-- What has been gathered, apart from the document and the warnings. -/
structure Tally where
  counts : NameCounts
  css : List String
  js : List String
  fragments : List ScriptFragment
  errors : List WriteError

def WriteState.tally (s : WriteState) : Tally :=
  { counts := s.document.symbols.counts
    css := s.css
    js := s.js
    fragments := s.fragments
    errors := s.errors }

theorem StyleItem.mem_usagesIn {items : List StyleItem} {usage : Usage} :
    usage ∈ StyleItem.usagesIn items ↔ ∃ item ∈ items, usage ∈ item.usages := by
  induction items with
  | nil => simp [usagesIn]
  | cons item items ih => simp [usagesIn, ih]

mutual

/-- Changes the usages in an item of a style block. -/
def StyleItem.mapUsages (g : Usage → Usage) : StyleItem → StyleItem
  | .property name value => .property name value
  | .rule selector items => .rule selector (StyleItem.mapUsagesIn g items)
  | .usage used => .usage (g used)
  | .raw text => .raw text

def StyleItem.mapUsagesIn (g : Usage → Usage) : List StyleItem → List StyleItem
  | [] => []
  | item :: items => item.mapUsages g :: StyleItem.mapUsagesIn g items

end

theorem StyleItem.mapUsagesIn_eq (g : Usage → Usage) (items : List StyleItem) :
    StyleItem.mapUsagesIn g items = items.map (StyleItem.mapUsages g) := by
  induction items with
  | nil => rfl
  | cons item items ih => rw [mapUsagesIn, ih, List.map_cons]

def StyleBlock.mapUsages (g : Usage → Usage) (block : StyleBlock) : StyleBlock :=
  ⟨block.items.map (StyleItem.mapUsages g)⟩

theorem StyleBlock.items_mapUsages (g : Usage → Usage) (blocks : List StyleBlock) :
    (blocks.map (StyleBlock.mapUsages g)).flatMap StyleBlock.items =
      (blocks.flatMap StyleBlock.items).map (StyleItem.mapUsages g) := by
  rw [List.flatMap_map, List.map_flatMap]
  rfl

/-- Changes the usages in a node. -/
def Node.mapUsages (g : Usage → Usage) (node : Node) : Node :=
  match node.kind with
  | .usage usage => { node with kind := .usage (g usage) }
  | .style block => { node with kind := .style (block.mapUsages g) }
  | _ => node

/-- The edits of a usage bring nodes that those of a document bring. -/
def Usage.Brought (original : Document) (usage : Usage) : Prop :=
  ∀ id ∈ usage.payload, original.Brings id

/-- The text of a comment and its place. -/
def Node.comment? (node : Node) : Option (String × Span) :=
  match node.kind with
  | .comment => some (node.content, node.span)
  | _ => none

/-- The usages of a node bring what those of a document bring, and a comment is one of the
document. -/
structure Node.Brought (original : Document) (node : Node) : Prop where
  usages : ∀ usage ∈ node.usages, usage.Brought original
  comment : ∀ comment ∈ node.comment?, ∃ id old, original.forest.get? id = some old ∧
    old.comment? = some comment

namespace Write
open Resolve

/-- A document that is being written: its definitions are those of `original`, and its tree is
beside them. -/
structure Ready (original document : Document) : Prop where
  standing : Standing original { document }
  top : document.forest.IsRoot Forest.root
  apart : Forest.root ∉ document.symbols.owned
  outside : ¬original.Brings Forest.root

/-- No error that was told of and no name that was given is taken back. -/
structure Grows (s s' : WriteState) : Prop where
  errors : s.errors <+: s'.errors
  size_le : s.document.forest.slots.size ≤ s'.document.forest.slots.size

/-- Work beside the tree, on the way from `s` to `s'`. -/
structure Beside (original : Document) (s s' : WriteState) : Prop extends Grows s s' where
  ready : Ready original s'.document
  spares : s.document.forest.Spares s'.document.forest Forest.root

/-- A part of writing that works beside the tree, and comes to the same wherever the same has been
gathered. -/
structure Calm {α : Type} (original : Document) (x : Write α) : Prop where
  beside : ∀ s, Ready original s.document → Beside original s (x s).2
  even : ∀ s t, Ready original s.document → Ready original t.document → s.tally = t.tally →
    (x s).1 = (x t).1 ∧ (x s).2.tally = (x t).2.tally

variable {α β : Type} {original document : Document} {s s' s'' : WriteState}

theorem Ready.grown (ready : Ready original document) : document.forest.Grown :=
  ready.standing.stored.grown

/-- The tree changes, but nothing outside it that matters. -/
theorem Ready.sparing {g : Forest} (ready : Ready original document) (grown : g.Grown)
    (top : g.IsRoot Forest.root)
    (spares : ∀ id, document.forest.IsRoot id → id ≠ Forest.root →
      id ∈ document.symbols.owned ∨ original.Brings id → document.forest.Spares g id) :
    Ready original { document with forest := g } where
  standing := by
    refine ⟨ready.standing.stored.sparing grown fun id isRoot used => ?_, ready.standing.rests⟩
    refine spares id isRoot ?_ used
    rintro rfl
    exact used.elim ready.apart ready.outside
  top := top
  apart := ready.apart
  outside := ready.outside

theorem Grows.refl (s : WriteState) : Grows s s := ⟨List.prefix_rfl, Nat.le_refl _⟩

theorem Grows.trans (first : Grows s s') (second : Grows s' s'') : Grows s s'' :=
  ⟨first.errors.trans second.errors, Nat.le_trans first.size_le second.size_le⟩

theorem Beside.refl (ready : Ready original s.document) : Beside original s s :=
  ⟨.refl s, ready, .refl _ _⟩

theorem Beside.trans (first : Beside original s s') (second : Beside original s' s'') :
    Beside original s s'' :=
  ⟨first.toGrows.trans second.toGrows, second.ready, first.spares.trans second.spares⟩

theorem bind_apply (x : Write α) (f : α → Write β) (s : WriteState) :
    (x >>= f) s = f (x s).1 (x s).2 := rfl

theorem forest_apply (s : WriteState) : forest s = (s.document.forest, s) := rfl

theorem calm_pure (a : α) : Calm original (pure a) :=
  ⟨fun _ ready => .refl ready, fun _ _ _ _ same => ⟨rfl, same⟩⟩

theorem Calm.after {x : Write α} (calm : Calm original x) (before : Beside original s s') :
    Beside original s (x s').2 := before.trans (calm.beside s' before.ready)

theorem Calm.bind {x : Write α} {f : α → Write β} (first : Calm original x)
    (rest : ∀ a, Calm original (f a)) : Calm original (x >>= f) where
  beside s ready := (rest (x s).1).after (first.beside s ready)
  even s t hs ht same := by
    obtain ⟨value, after⟩ := first.even s t hs ht same
    rw [bind_apply, bind_apply, ← value]
    exact (rest (x s).1).even _ _ (first.beside s hs).ready (first.beside t ht).ready after

theorem Calm.ite {c : Prop} [Decidable c] {x y : Write α} (left : Calm original x)
    (right : Calm original y) : Calm original (if c then x else y) := by
  split
  · exact left
  · exact right

/-- Foreign texts are not written over. -/
theorem Ready.origin? (ready : Ready original document) (type : OriginType)
    (name scope : String) :
    document.symbols.origin? type name scope = original.symbols.origin? type name scope := by
  rw [SymbolTable.origin?, ready.standing.rests.resembles.origins, SymbolTable.origin?]

theorem calm_origin? (type : OriginType) (name scope : String) :
    Calm original (do return (← symbols).origin? type name scope) where
  beside _ ready := .refl ready
  even _ _ hs ht same :=
    ⟨(hs.origin? type name scope).trans (ht.origin? type name scope).symm, same⟩

theorem calm_warn (span : Span) (cause : WriteWarningCause) : Calm original (warn span cause) where
  beside _ ready := ⟨⟨List.prefix_rfl, Nat.le_refl _⟩, ready, .refl _ _⟩
  even _ _ _ _ same := ⟨rfl, same⟩

theorem calm_fail (error : WriteError) : Calm original (fail error) where
  beside _ ready := ⟨⟨List.prefix_append _ _, Nat.le_refl _⟩, ready, .refl _ _⟩
  even _ _ _ _ same :=
    ⟨rfl, congrArg (fun t : Tally => { t with errors := t.errors ++ [error] }) same⟩

theorem calm_addRule (rule : String) : Calm original (addRule rule) where
  beside _ ready := ⟨⟨List.prefix_rfl, Nat.le_refl _⟩, ready, .refl _ _⟩
  even _ _ _ _ same := ⟨rfl, congrArg (fun t : Tally => { t with css := t.css ++ [rule] }) same⟩

theorem calm_addScript (code : String) : Calm original (addScript code) where
  beside _ ready := ⟨⟨List.prefix_rfl, Nat.le_refl _⟩, ready, .refl _ _⟩
  even _ _ _ _ same := ⟨rfl, congrArg (fun t : Tally => { t with js := t.js ++ [code] }) same⟩

theorem calm_addFragment (fragment : ScriptFragment) : Calm original (addFragment fragment) where
  beside _ ready := ⟨⟨List.prefix_rfl, Nat.le_refl _⟩, ready, .refl _ _⟩
  even _ _ _ _ same :=
    ⟨rfl, congrArg (fun t : Tally => { t with fragments := t.fragments ++ [fragment] }) same⟩

theorem calm_report (span : Span) (error : ResolveError) : Calm original (report span error) := by
  unfold report
  split
  · exact calm_warn _ _
  · exact calm_fail _

section Resolving

variable {r : ResolveState} {held : List NodeId} {span : Span}

theorem resolving_apply (span : Span) (action : Resolve α) (s : WriteState) :
    ∃ warnings, resolving span action s =
      match action { document := s.document } with
      | .ok value r => (.ok value, { s with document := r.document, warnings })
      | .error e r => (.error e, { s with document := r.document, warnings }) := by
  have run : resolving span action s = match action { document := s.document } with
      | .ok value r => (.ok value, { s with
          document := r.document
          warnings := s.warnings ++
            r.warnings.reverse.map fun warning => { cause := .resolving warning, span } })
      | .error e r => (.error e, { s with
          document := r.document
          warnings := s.warnings ++
            r.warnings.reverse.map fun warning => { cause := .resolving warning, span } }) := by
    rfl
  rw [run]
  cases action { document := s.document } <;> exact ⟨_, rfl⟩

/-- A call of resolving works beside the tree. -/
theorem Ready.follow (ready : Ready original document)
    (follows : Follows original { document } r held) : Ready original r.document where
  standing := ⟨follows.standing.stored, follows.standing.rests⟩
  top := (follows.turns.spares _ ready.top ready.apart).isRoot ready.top
  apart := fun member => follows.turns.not_mem ready.standing.stored.roots ready.top ready.apart
    (List.mem_append_left _ member)
  outside := ready.outside

theorem Ready.beside (ready : Ready original s.document)
    (follows : Follows original { document := s.document } r held)
    (warnings : List WriteWarning) :
    Beside original s { s with document := r.document, warnings } :=
  ⟨⟨List.prefix_rfl, follows.turns.size_le⟩, ready.follow follows,
    follows.turns.spares _ ready.top ready.apart⟩

/-- Resolving gathers nothing but warnings. -/
theorem tally_of_follows (follows : Follows original { document := s.document } r held)
    (warnings : List WriteWarning) :
    ({ s with document := r.document, warnings } : WriteState).tally = s.tally := by
  have counts : r.document.symbols.counts = s.document.symbols.counts := by
    rw [follows.redefines]
    rfl
  unfold WriteState.tally
  rw [counts]

theorem calm_resolving {action : Resolve α} (steady : Steady original action) :
    Calm original (resolving span action) where
  beside s ready := by
    have agree := steady { document := s.document } { document := s.document } ready.standing
      ready.standing
    obtain ⟨warnings, run⟩ := resolving_apply span action s
    rw [run]
    cases done : action { document := s.document } with
    | ok | error =>
      rw [done] at agree
      exact ready.beside agree.2.1 warnings
  even s t hs ht same := by
    have agree := steady { document := s.document } { document := t.document } hs.standing
      ht.standing
    obtain ⟨warnings, run⟩ := resolving_apply span action s
    obtain ⟨warnings', run'⟩ := resolving_apply span action t
    rw [run, run']
    cases done : action { document := s.document } with
    | ok a r =>
      cases done' : action { document := t.document } with
      | ok b r' =>
        rw [done, done'] at agree
        obtain ⟨value, first, second⟩ := agree
        exact ⟨congrArg Except.ok value, (tally_of_follows first warnings).trans
          (same.trans (tally_of_follows second warnings').symm)⟩
      | error e' r' =>
        rw [done, done'] at agree
        exact agree.elim
    | error e r =>
      cases done' : action { document := t.document } with
      | ok b r' =>
        rw [done, done'] at agree
        exact agree.elim
      | error e' r' =>
        rw [done, done'] at agree
        obtain ⟨value, first, second⟩ := agree
        exact ⟨congrArg Except.error value, (tally_of_follows first warnings).trans
          (same.trans (tally_of_follows second warnings').symm)⟩

/-- A usage receives some content, told from the document as it was read. -/
def Grants (original : Document) (usage : Usage) (view : TreeContent) : Prop :=
  ∃ key meaning, original.symbols.usageKey usage = some key ∧ Succeeds original key meaning ∧
    view = meaning.received original.forest.treesOf original.symbols.config.indexInitialCount usage
      key.kind

variable {usage : Usage} {view : TreeContent}

section

variable (grants : Grants original usage view)

include grants

theorem Grants.unique {view' : TreeContent} (grants' : Grants original usage view') :
    view = view' := by
  obtain ⟨key, meaning, found, succeeds, rfl⟩ := grants
  obtain ⟨key', meaning', found', succeeds', rfl⟩ := grants'
  cases found.symm.trans found'
  rw [succeeds.means.unique succeeds'.means]

theorem Grants.not_denied {e : ResolveError} (keyed : original.symbols.Keyed) :
    ¬Denied original usage e := by
  obtain ⟨key, meaning, found, succeeds, -⟩ := grants
  exact succeeds.not_denied keyed found

/-- What holds of the trees of definitions and edits holds of those that a usage receives. -/
theorem Grants.all {P : NodeTree → Prop} (brought : usage.Brought original)
    (each : original.AllDefined P) : view.All P := by
  obtain ⟨key, meaning, found, succeeds, rfl⟩ := grants
  exact (succeeds.means.all each).received (each.edits brought) _ _

end

/-- What the tree can take of the content that a usage receives. -/
structure Supplies (original : Document) (usage : Usage) (s s' : WriteState) (content : Content) :
    Prop where
  brought : usage.Brought original
  beside : Beside original s s'
  roots : s'.document.forest.Roots (Forest.root :: content.elements)
  fresh : ∀ id ∈ content.elements, s.document.forest.slots.size ≤ id.index
  apart : ∀ id ∈ content.elements, id ∉ s'.document.symbols.owned
  granted : ∃ view, Grants original usage view ∧ content.properties = view.properties ∧
    s'.document.forest.Shows content.elements view.elements
  tally : s'.tally = s.tally

theorem Supplies.key {content : Content}
    (supplies : Supplies original usage s s' content) :
    ∃ key definition, original.symbols.usageKey usage = some key ∧
      original.symbols.definition? key = some definition := by
  obtain ⟨view, ⟨key, meaning, found, succeeds, -⟩, -⟩ := supplies.granted
  obtain ⟨definition, registered⟩ := succeeds.means.registered
  exact ⟨key, definition, found, registered⟩

theorem instantiate_eq (span : Span) (usage : Usage) (s : WriteState) :
    instantiate span usage s =
      match resolving span (Resolve.instantiate usage) s with
      | (.ok content, s') => (some content, s')
      | (.error e, s') => (none, (report span e s').2) := by
  unfold instantiate
  rw [bind_apply]
  rcases resolving span (Resolve.instantiate usage) s with ⟨_ | _, s'⟩ <;> rfl

/-- How asking for the content of a usage ends. -/
def Supplied (original : Document) (span : Span) (usage : Usage) (s : WriteState) :
    Option Content × WriteState → Prop
  | (some content, s') => Supplies original usage s s' content
  | (none, s') => Beside original s s' ∧
      ∃ e, Denied original usage e ∧ s'.tally = (report span e s).2.tally

theorem instantiate_supplied (keyed : original.symbols.Keyed)
    (brought : usage.Brought original) (ready : Ready original s.document) :
    Supplied original span usage s (instantiate span usage s) := by
  have keeps : Forest.Keeps original.forest s.document.forest s.document.symbols.owned
      usage.payload := fun id member => ready.standing.stored.brought id (brought id member)
  have receives := instantiateWith_receives keyed ready.standing keeps
  obtain ⟨warnings, run⟩ := Resolve.instantiate_apply usage { document := s.document }
  obtain ⟨told, resolved⟩ := resolving_apply span (Resolve.instantiate usage) s
  rw [instantiate_eq, resolved, run]
  revert receives
  cases instantiateWith resolve usage { document := s.document } with
  | error e r =>
    rintro ⟨follows, denied⟩
    have beside := ready.beside follows told
    have calm : Calm original (report span e) := calm_report span e
    exact ⟨calm.after beside, e, denied,
      (calm.even _ _ beside.ready ready (tally_of_follows follows told)).2⟩
  | ok content r =>
    rintro ⟨follows, key, view, found, succeeds, shown⟩
    have all := follows.turns.roots [Forest.root]
      (ready.standing.stored.roots.concat ready.top ready.apart)
    have roots : r.document.forest.Roots (Forest.root :: content.elements) := by
      refine (all.perm List.perm_append_comm).sublist ?_
      exact (List.sublist_append_right _ _).cons_cons _
    have apart (id : NodeId) (member : id ∈ content.elements) : id ∉ r.document.symbols.owned :=
      fun owned => (List.nodup_append.1 all.left.nodup).2.2 id owned id member rfl
    exact ⟨brought, ready.beside follows told, roots, follows.fresh, apart,
      ⟨_, ⟨key, view, found, succeeds, rfl⟩, shown.properties, shown.elements⟩,
      tally_of_follows follows told⟩

/-- The properties that a usage receives, if they can be worked out. -/
def propertiesFor (span : Span) (usage : Usage) : Write (Option (OrderedMap String Value)) := do
  return (← instantiate span usage).map Content.properties

/-- The declarations with the properties that a usage brings. -/
def declareAll (span : Span) (declarations : Declarations) :
    Option (OrderedMap String Value) → Write Declarations
  | none => pure declarations
  | some properties => properties.toList.foldlM (fun declarations (name, value) => do
      return declarations.insert name (← renderValue span value)) declarations

theorem propertiesFor_apply (span : Span) (usage : Usage) (s : WriteState) :
    propertiesFor span usage s = ((instantiate span usage s).1.map Content.properties,
      (instantiate span usage s).2) := rfl

theorem calm_propertiesFor (keyed : original.symbols.Keyed)
    (brought : usage.Brought original) : Calm original (propertiesFor span usage) where
  beside s ready := by
    have supplied : Supplied original span usage s (instantiate span usage s) :=
      instantiate_supplied keyed brought ready
    rw [propertiesFor_apply]
    cases run : instantiate span usage s with
    | mk content s' =>
      rw [run] at supplied
      cases content with
      | none => exact supplied.1
      | some content => exact Supplies.beside supplied
  even s t hs ht same := by
    have supplied : Supplied original span usage s (instantiate span usage s) :=
      instantiate_supplied keyed brought hs
    have supplied' : Supplied original span usage t (instantiate span usage t) :=
      instantiate_supplied keyed brought ht
    rw [propertiesFor_apply, propertiesFor_apply]
    cases run : instantiate span usage s with
    | mk content s' =>
      cases run' : instantiate span usage t with
      | mk content' t' =>
        rw [run] at supplied
        rw [run'] at supplied'
        cases content with
        | none =>
          obtain ⟨-, e, denied, tally⟩ := supplied
          cases content' with
          | none =>
            obtain ⟨-, e', denied', tally'⟩ := supplied'
            cases denied.unique keyed denied'
            have told := (calm_report span e).even s t hs ht same
            exact ⟨rfl, tally.trans (told.2.trans tally'.symm)⟩
          | some content' =>
            obtain ⟨view', grants', -⟩ := Supplies.granted supplied'
            exact absurd denied (grants'.not_denied keyed)
        | some content =>
          obtain ⟨view, grants, properties, -⟩ := Supplies.granted supplied
          cases content' with
          | none =>
            obtain ⟨-, e', denied', -⟩ := supplied'
            exact absurd denied' (grants.not_denied keyed)
          | some content' =>
            obtain ⟨view', grants', properties', -⟩ := Supplies.granted supplied'
            refine ⟨?_, (Supplies.tally supplied).trans
              (same.trans (Supplies.tally supplied').symm)⟩
            rw [Option.map_some, Option.map_some, properties, properties', grants.unique grants']

theorem calm_renderValue (keyed : original.symbols.Keyed) (value : Value) :
    Calm original (renderValue span value) := by
  refine .ite (.bind (calm_resolving (steady_renderValue keyed value)) fun result => ?_)
    (calm_pure _)
  cases result with
  | ok text => exact calm_pure text
  | error e => exact (calm_report span e).bind fun _ => calm_pure _

theorem calm_renderVar (keyed : original.symbols.Keyed) (ref : VarRef) :
    Calm original (renderVar span ref) := by
  refine .bind (calm_resolving (steady_resolveVar keyed ref)) fun result => ?_
  cases result with
  | ok text => exact calm_pure _
  | error e => exact (calm_report span e).bind fun _ => calm_pure _

end Resolving

/-- What stands in a script for a stored block. -/
def storedText (span : Span) (type : OriginType) (name : String) :
    Option (QualifiedName × String) → Write String
  | some (_, content) => pure content
  | none => do
    warn span (.undefinedOrigin type name)
    return ""

/-- Two parts of writing do the same beside the tree. They may tell of it at different places, and
where the first asks for the properties of a usage the second asks for those of a related one. -/
inductive Gathers (R : Usage → Usage → Prop) : {α : Type} → Write α → Write α → Prop
  | pure {α : Type} (a : α) : Gathers R (pure a) (pure a)
  | bind {α β : Type} {x x' : Write α} {f f' : α → Write β} (first : Gathers R x x')
      (rest : ∀ a, Gathers R (f a) (f' a)) : Gathers R (x >>= f) (x' >>= f')
  | warn (span span' : Span) (cause cause' : WriteWarningCause) :
      Gathers R (warn span cause) (warn span' cause')
  | addRule (rule : String) : Gathers R (addRule rule) (addRule rule)
  | addScript (code : String) : Gathers R (addScript code) (addScript code)
  | addFragment (fragment : ScriptFragment) :
      Gathers R (addFragment fragment) (addFragment fragment)
  | origin? (type : OriginType) (name scope : String) :
      Gathers R (do return (← symbols).origin? type name scope)
        (do return (← symbols).origin? type name scope)
  | renderValue (span span' : Span) (value : Value) :
      Gathers R (renderValue span value) (renderValue span' value)
  | renderVar (span span' : Span) (ref : VarRef) :
      Gathers R (renderVar span ref) (renderVar span' ref)
  | propertiesFor (span span' : Span) {usage usage' : Usage} (related : R usage usage') :
      Gathers R (propertiesFor span usage) (propertiesFor span' usage')

section Gathering

variable {R : Usage → Usage → Prop}

theorem Gathers.ite {c : Prop} [Decidable c] {x x' y y' : Write α} (left : Gathers R x x')
    (right : Gathers R y y') : Gathers R (if c then x else y) (if c then x' else y') := by
  split
  · exact left
  · exact right

theorem gathers_foldlM {f f' : β → α → Write β} {items : List α} {b : β}
    (each : ∀ b, ∀ a ∈ items, Gathers R (f b a) (f' b a)) :
    Gathers R (items.foldlM f b) (items.foldlM f' b) := by
  induction items generalizing b with
  | nil => exact .pure b
  | cons a items ih =>
    rw [List.foldlM_cons, List.foldlM_cons]
    exact (each b a (.head _)).bind fun b => ih fun b a member => each b a (.tail _ member)

theorem gathers_mapM {f f' : α → Write β} {items : List α}
    (each : ∀ a ∈ items, Gathers R (f a) (f' a)) :
    Gathers R (items.mapM f) (items.mapM f') := by
  induction items with
  | nil => exact .pure []
  | cons a items ih =>
    rw [List.mapM_cons, List.mapM_cons]
    refine (each a (.head _)).bind fun b => ?_
    exact (ih fun a member => each a (.tail _ member)).bind fun bs => .pure (b :: bs)

theorem gathers_forM {f f' : α → Write Unit} {items : List α}
    (each : ∀ a ∈ items, Gathers R (f a) (f' a)) :
    Gathers R (items.forM f) (items.forM f') := by
  induction items with
  | nil => exact .pure ()
  | cons a items ih =>
    exact (each a (.head _)).bind fun _ => ih fun a member => each a (.tail _ member)

/-- What is done beside the tree is calm. -/
theorem Gathers.calm {x x' : Write α} (gathers : Gathers R x x') (keyed : original.symbols.Keyed)
    (brought : ∀ usage usage', R usage usage' → usage.Brought original) : Calm original x := by
  induction gathers with
  | pure a => exact calm_pure a
  | bind _ _ first rest => exact first.bind rest
  | warn span _ cause _ => exact calm_warn span cause
  | addRule rule => exact calm_addRule rule
  | addScript code => exact calm_addScript code
  | addFragment fragment => exact calm_addFragment fragment
  | origin? type name scope => exact calm_origin? type name scope
  | renderValue span _ value => exact calm_renderValue keyed value
  | renderVar span _ ref => exact calm_renderVar keyed ref
  | propertiesFor span _ related => exact calm_propertiesFor keyed (brought _ _ related)

end Gathering

section Blocks

variable {R : Usage → Usage → Prop} {g : Usage → Usage} {span span' : Span}

/-- Of what a usage receives only the properties are used. -/
theorem expandStyle_eq (span : Span) (usage : Usage) (declarations : Declarations) :
    expandStyle span usage declarations =
      if usage.type != .style then do
        warn span (.usageInStyle usage)
        return declarations
      else propertiesFor span usage >>= declareAll span declarations := by
  unfold expandStyle
  split
  · rfl
  · funext s
    rw [bind_apply, bind_apply, propertiesFor_apply]
    cases (instantiate span usage s).1 <;> rfl

variable (types : ∀ usage, (g usage).type = usage.type)

include types

theorem gathers_expandStyle {usage : Usage} (related : R usage (g usage))
    (declarations : Declarations) :
    Gathers R (expandStyle span usage declarations)
      (expandStyle span' (g usage) declarations) := by
  rw [expandStyle_eq, expandStyle_eq, types]
  refine .ite ((Gathers.warn _ _ _ _).bind fun _ => .pure _) ?_
  refine .bind (.propertiesFor _ _ related) fun properties => ?_
  cases properties with
  | none => exact .pure _
  | some properties =>
    exact gathers_foldlM fun declarations property _ =>
      (Gathers.renderValue _ _ property.2).bind fun text => .pure _

theorem gathers_rule {items : List StyleItem}
    (related : ∀ usage ∈ StyleItem.usagesIn items, R usage (g usage))
    (context : Option String) (selector : Selector) :
    Gathers R (rule span context selector items)
      (rule span' context selector (items.map (StyleItem.mapUsages g))) := by
  unfold rule
  rw [List.foldlM_map]
  refine .bind (gathers_foldlM fun declarations item member => ?_) fun _ => .pure _
  cases item with
  | property name value => exact (Gathers.renderValue _ _ value).bind fun _ => .pure _
  | usage usage =>
    have here : usage ∈ StyleItem.usages (.usage usage) := by simp [StyleItem.usages]
    exact gathers_expandStyle types (related usage (StyleItem.mem_usagesIn.2 ⟨_, member, here⟩)) _
  | rule | raw => exact (Gathers.warn _ _ _ _).bind fun _ => .pure _

theorem gathers_localItem {item : StyleItem} (related : ∀ usage ∈ item.usages, R usage (g usage))
    (context : Option String) (declarations : Declarations) :
    Gathers R (localItem span context declarations item)
      (localItem span' context declarations (item.mapUsages g)) := by
  cases item with
  | property name value => exact (Gathers.renderValue _ _ value).bind fun _ => .pure _
  | usage usage =>
    exact gathers_expandStyle types (related usage (by simp [StyleItem.usages])) declarations
  | rule selector items =>
    have inside : ∀ usage ∈ StyleItem.usagesIn items, R usage (g usage) := by
      simpa [StyleItem.usages] using related
    rw [StyleItem.mapUsages, StyleItem.mapUsagesIn_eq]
    exact (gathers_rule types inside context selector).bind fun _ =>
      (Gathers.addRule _).bind fun _ => .pure _
  | raw text => exact (Gathers.addRule text).bind fun _ => .pure _

theorem gathers_localStyles {blocks : List StyleBlock}
    (related : ∀ block ∈ blocks, ∀ usage ∈ StyleItem.usagesIn block.items, R usage (g usage))
    (context : Option String) :
    Gathers R (localStyles span context blocks)
      (localStyles span' context (blocks.map (StyleBlock.mapUsages g))) := by
  unfold localStyles
  rw [StyleBlock.items_mapUsages, List.foldlM_map]
  refine gathers_foldlM fun declarations item member =>
    gathers_localItem types ?_ context declarations
  obtain ⟨block, there, inside⟩ := List.mem_flatMap.1 member
  exact fun usage used => related block there usage (StyleItem.mem_usagesIn.2 ⟨item, inside, used⟩)

theorem gathers_globalStyle {block : StyleBlock}
    (related : ∀ usage ∈ StyleItem.usagesIn block.items, R usage (g usage)) :
    Gathers R (globalStyle span block) (globalStyle span' (block.mapUsages g)) := by
  unfold globalStyle StyleBlock.mapUsages
  simp only [List.forM_eq_forM, List.forM_map]
  refine gathers_forM fun item member => ?_
  cases item with
  | rule selector items =>
    have inside : ∀ usage ∈ StyleItem.usagesIn items, R usage (g usage) := fun usage used =>
      related usage (StyleItem.mem_usagesIn.2 ⟨_, member, by simpa [StyleItem.usages] using used⟩)
    rw [StyleItem.mapUsages, StyleItem.mapUsagesIn_eq]
    exact (gathers_rule types inside none selector).bind fun _ => .addRule _
  | raw text => exact .addRule text
  | property | usage => exact .warn _ _ _ _

omit types in
theorem gathers_script (owner : Option String) (scope : String) (block : ScriptBlock) :
    Gathers R (script span owner scope block) (script span' owner scope block) := by
  have part (part : ScriptPart) :
      Gathers R (scriptPart span owner scope part) (scriptPart span' owner scope part) := by
    cases part with
    | code | contextRef | classRef | idRef => exact .pure _
    | var ref => exact .renderVar _ _ ref
    | origin type name =>
      have stored (found : Option (QualifiedName × String)) :
          Gathers R (storedText span type name found) (storedText span' type name found) := by
        cases found with
        | some found => exact .pure _
        | none => exact (Gathers.warn _ _ _ _).bind fun _ => .pure _
      exact (Gathers.origin? type name scope).bind stored
  have code :
      Gathers R (scriptCode span owner scope block) (scriptCode span' owner scope block) := by
    refine (gathers_mapM fun p _ => part p).bind fun texts => ?_
    exact .ite ((Gathers.warn _ _ _ _).bind fun _ => .pure _) (.pure _)
  refine code.bind fun code => .ite ?_ (.pure _)
  exact (Gathers.addScript code).bind fun _ => .addFragment _

end Blocks

/-- A part of writing only gathers, for usages that bring what the document brings. -/
def Collects (original : Document) (x : Write α) : Prop :=
  ∃ x', Gathers (fun usage _ => usage.Brought original) x x'

theorem Collects.calm {x : Write α} (collects : Collects original x)
    (keyed : original.symbols.Keyed) : Calm original x := by
  obtain ⟨x', gathers⟩ := collects
  exact gathers.calm keyed fun usage usage' brought => brought

theorem collects_localStyles {blocks : List StyleBlock}
    (brought : ∀ block ∈ blocks, ∀ usage ∈ StyleItem.usagesIn block.items, usage.Brought original)
    (span : Span) (context : Option String) :
    Collects original (localStyles span context blocks) :=
  ⟨localStyles span context (blocks.map (.mapUsages id)),
    gathers_localStyles (R := fun usage _ => usage.Brought original) (fun _ => rfl) brought context⟩

theorem collects_scripts (span : Span) (owner : Option String) (scope : String)
    (blocks : List ScriptBlock) : Collects original (blocks.forM (script span owner scope)) :=
  ⟨blocks.forM (script span owner scope),
    gathers_forM fun block _ => gathers_script owner scope block⟩

end Write

end TemplateMarkup
