import TemplateMarkup.Proofs.WritingLimits

/-! Writing told from trees. What a node is written as depends on the tree at it, on what stands
around it and on what has been gathered before. The names of the nodes, and what has been worked
out of the definitions, make no difference. -/
namespace TemplateMarkup

namespace Tally

/-- The state in which so much has been gathered, and nothing has been worked out. -/
def state (original : Document) (t : Tally) : WriteState :=
  { document := { original with symbols := original.symbols.withCounts t.counts }
    css := t.css
    js := t.js
    fragments := t.fragments
    errors := t.errors }

/-- What a part of writing comes to where so much has been gathered. -/
def run {α : Type} (original : Document) (x : Write α) (t : Tally) : α × Tally :=
  ((x (t.state original)).1, (x (t.state original)).2.tally)

end Tally

namespace Write
open Resolve

/-- What preparing an element makes of it, of the nodes inside it and of what has been gathered. -/
structure Preparation where
  final : Node
  names : NameSlot → String → String := fun _ name => name
  after : Tally

/-- What becomes of a node inside the element. -/
def Preparation.rename (preparation : Preparation) : Node → Node := Node.mapNames preparation.names

/-- The preparation of an element with these nodes inside it. -/
def Preparation.of (original : Document) (node : Node) (children : List Node) (t : Tally) :
    Preparation :=
  if !Tags.isDocumentLevel node.name then
    let assignment := ElementNames.Assignment.of original.symbols.config node children t.counts
    let inside := children.map assignment.rename
    let styled := Tally.run original
      (localStyles node.span (ElementNames.contextSelector assignment.node .style)
        (inside.filterMap Node.styleBlock?)) { t with counts := assignment.counts }
    let scripted := Tally.run original
      ((inside.filterMap Node.scriptBlock?).forM
        (script node.span (ElementNames.contextSelector assignment.node .script) node.scope))
      styled.2
    { final := { assignment.node with properties := styled.1 }
      names := assignment.names
      after := scripted.2 }
  else { final := { node with properties := {} }, after := t }

/-- What writing a tree comes to, apart from the trees inside it or in its place. -/
inductive TreeStep
  | done (text : String) (after : Tally)
  | within (role : Role) (inside : Surroundings) (trees : List NodeTree) (before : Tally)

def elementTreeStep (original : Document) (around : Surroundings) (node : Node)
    (branches : List NodeTree) (t : Tally) : TreeStep :=
  let children := branches.map NodeTree.node
  if node.isVoid && children.any Node.isContent then
    .done "" (t.run original (fail (.voidElementChildren node.name node.span))).2
  else
    let preparation := Preparation.of original node children t
    if node.isVoid then .done (Markup.openTag preparation.final) preparation.after
    else
      .within (.element preparation.final) (insideElement around node children)
        (branches.map (.mapTop preparation.rename)) preparation.after

def usageTreeStep (original : Document) (around : Surroundings) (span : Span) (usage : Usage)
    (t : Tally) : TreeStep :=
  let label := labelOf original.symbols usage
  match around.expanding.findIdx? (· = label) with
  | some start =>
    let cycle := around.expanding.drop start ++ [label]
    .done "" (t.run original (report span (.cyclicInheritance cycle))).2
  | none =>
    match instantiate span usage (t.state original) with
    | (none, s) => .done "" s.tally
    | (some content, s) =>
      .within (.expansion label) { around with expanding := around.expanding ++ [label] }
        (s.document.forest.treesOf content.elements) s.tally

def treeStep (original : Document) (around : Surroundings) (tree : NodeTree) (t : Tally) :
    TreeStep :=
  match violation? original.symbols around.ban tree.node with
  | some (ban, target) =>
    .done "" (t.run original (fail (.constraintViolation ban.tag target tree.node.span))).2
  | none =>
    if goesOn around tree.node then
      match tree.node.kind with
      | .element => elementTreeStep original around tree.node tree.branches t
      | .usage usage => usageTreeStep original around tree.node.span usage t
      | _ => .within .scope { around with scope := .wholeDocument, ban := none } tree.branches t
    else
      let alone := t.run original
        (allowedNode (fun _ _ => pure "") around Forest.root tree.node)
      .done alone.1 alone.2

/-- A step in a forest comes to what a step on trees does. -/
inductive Step.Tells : Step → TreeStep → Prop
  | done (text : String) (after : WriteState) : Tells (.done text after) (.done text after.tally)
  | single (final : Node) (after : WriteState) :
      Tells (.single final after) (.done (Markup.openTag final) after.tally)
  | within {ids : List NodeId} {trees : List NodeTree} {before : WriteState} (role : Role)
      (inside : Surroundings) (shown : before.document.forest.Shows ids trees) :
      Tells (.within role inside ids before) (.within role inside trees before.tally)

variable {α : Type} {original : Document} {s s' : WriteState} {id : NodeId} {tree : NodeTree}
  {around : Surroundings}

/-- Work beside the tree is the same in every state in which the same has been gathered. -/
theorem Calm.run {x : Write α} (calm : Calm original x) (start : Ready original original)
    (ready : Ready original s.document) :
    s.tally.run original x = ((x s).1, (x s).2.tally) := by
  obtain ⟨value, tally⟩ := calm.even s (s.tally.state original) ready
    (start.counted s.tally.counts) rfl
  rw [Tally.run, value, tally]

section Elements

theorem tree?_modifyForest (grown : s.document.forest.Grown)
    (there : s.document.forest.tree? id = some tree) (change : Node → Node) :
    (modifyForest (·.modify id change) s).2.document.forest.tree? id =
      some (.mk (change tree.node) tree.branches) := grown.tree?_modify there change

theorem Ready.config (ready : Ready original s.document) :
    s.document.symbols.config = original.symbols.config := ready.standing.rests.resembles.config

variable (keyed : original.symbols.Keyed) (start : Ready original original)
  (ready : Ready original s.document) (stands : s.document.forest.Stands id)
  (there : s.document.forest.tree? id = some tree)

include ready there in
theorem nameElement_tells (kind : tree.node.isElement) :
    let assignment := ElementNames.Assignment.of original.symbols.config tree.node
      (tree.branches.map NodeTree.node) s.tally.counts
    let named := (nameElement id s).2
    named.tally = { s.tally with counts := assignment.counts } ∧
      named.document.forest.tree? id =
        some (.mk assignment.node (tree.branches.map (.mapTop assignment.rename))) := by
  have grown := ready.grown
  have found : s.document.forest.get? id = some tree.node := by
    rw [grown.get?_eq, there, Option.map_some]
  have children : ElementNames.childNodes s.document.forest id =
      tree.branches.map NodeTree.node := childNodes_eq grown (grown.shows_children there)
  have assigned := ElementNames.apply_assigned found kind
  rw [children, ready.config] at assigned
  intro assignment named
  constructor
  · have counts : named.document.symbols.counts = assignment.counts := by
      change (ElementNames.apply s.document id).2.symbols.counts = assignment.counts
      rw [assigned.symbols]
      rfl
    rw [← counts]
    rfl
  · have apart (c : NodeId) (link : c ∈ s.document.forest.children id) : c ≠ id := by
      rintro rfl
      exact Nat.lt_irrefl _ (grown.lt c c link)
    have turned := assigned.relabels.tree? grown there
      (fun c link node => (if_neg (apart c link)).trans (if_pos link))
      fun k other outside node => (if_neg other).trans (if_neg outside)
    rw [ElementNames.Assignment.change, if_pos rfl] at turned
    exact turned

include keyed start ready stands there in
theorem prepareElement_tells (kind : tree.node.isElement) {levels : Nat}
    (fits : s.document.forest.Fits (Node.Brought original) levels id) :
    let preparation := Preparation.of original tree.node (tree.branches.map NodeTree.node) s.tally
    let prepared := (prepareElement id tree.node s).2
    prepared.tally = preparation.after ∧
      prepared.document.forest.tree? id =
        some (.mk preparation.final (tree.branches.map (.mapTop preparation.rename))) := by
  rw [prepareElement_apply]
  unfold Preparation.of
  split
  · obtain ⟨tally, turned⟩ := nameElement_tells ready there kind
    have applied := adjusted_apply ready stands
    have inside := brought_named ready stands fits
    dsimp only at tally turned ⊢
    generalize ElementNames.Assignment.of original.symbols.config tree.node
      (tree.branches.map NodeTree.node) s.tally.counts = assignment at tally turned ⊢
    have ready' : Ready original (nameElement id s).2.document := applied.ready
    have stands' : (nameElement id s).2.document.forest.Stands id :=
      applied.adjusts.stands_iff.2 stands
    generalize (nameElement id s).2 = named at tally turned inside ready' stands' ⊢
    have here : (named.document.forest.get? id).getD tree.node = assignment.node := by
      rw [ready'.grown.get?_eq, turned]
      rfl
    have children : (childNodes id named).1 =
        (tree.branches.map NodeTree.node).map assignment.rename := by
      rw [childNodes_eq ready'.grown (ready'.grown.shows_children turned), List.map_map]
      dsimp only [NodeTree.branches]
      rw [List.map_map]
      exact List.map_congr_left fun branch _ => by cases branch; rfl
    rw [children] at inside
    rw [here, children, ← tally]
    have styles : Calm original (localStyles tree.node.span
        (ElementNames.contextSelector assignment.node .style)
        (((tree.branches.map NodeTree.node).map assignment.rename).filterMap Node.styleBlock?)) :=
      (collects_localStyles (brought_styleBlocks inside) _ _).calm keyed
    have scripts : Calm original
        ((((tree.branches.map NodeTree.node).map assignment.rename).filterMap
            Node.scriptBlock?).forM
          (script tree.node.span (ElementNames.contextSelector assignment.node .script)
            tree.node.scope)) := (collects_scripts _ _ _ _).calm keyed
    have beside := styles.beside named ready'
    have beside' := scripts.after beside
    rw [styles.run start ready', scripts.run start beside.ready]
    have spares : named.document.forest.Spares _ id := fun k under =>
      beside'.spares k (Relation.ReflTransGen.trans stands' under)
    have turned' := (ready'.grown.tree?_of_spares beside'.ready.grown spares).trans turned
    exact ⟨rfl, tree?_modifyForest beside'.ready.grown turned' _⟩
  · refine ⟨rfl, ?_⟩
    rw [Preparation.rename, Node.mapNames_id, NodeTree.mapTop_id, List.map_id]
    exact tree?_modifyForest ready.grown there _

include keyed start ready stands there in
theorem elementStep_tells (kind : tree.node.isElement) {levels : Nat}
    (fits : s.document.forest.Fits (Node.Brought original) levels id) :
    Step.Tells (elementStep around id tree.node s)
      (elementTreeStep original around tree.node tree.branches s.tally) := by
  have children : (childNodes id s).1 = tree.branches.map NodeTree.node :=
    childNodes_eq ready.grown (ready.grown.shows_children there)
  obtain ⟨tally, turned⟩ := prepareElement_tells keyed start ready stands there kind fits
  have prepares := prepareElement_prepares keyed ready stands fits tree.node
  have grown' := prepares.adjusted.ready.grown
  unfold elementStep elementTreeStep
  dsimp only at tally turned ⊢
  rw [children]
  split
  · rw [(calm_fail _).run start ready]
    exact .done "" _
  · rw [grown'.get?_eq, turned, Option.map_some, Option.getD_some, ← tally]
    split
    · exact .single _ _
    · refine .within _ _ ?_
      rw [← prepares.adjusted.adjusts.children stands]
      exact grown'.shows_children turned

end Elements

section Usages

variable {span : Span} {usage : Usage} {view : TreeContent} {t : Tally}
  (keyed : original.symbols.Keyed) (start : Ready original original)
  (brought : usage.Brought original)

include keyed start brought

theorem usageTreeStep_granted (grants : Grants original usage view)
    (apart : labelOf original.symbols usage ∉ around.expanding) :
    usageTreeStep original around span usage t =
      .within (.expansion (labelOf original.symbols usage))
        { around with expanding := around.expanding ++ [labelOf original.symbols usage] }
        view.elements t := by
  have supplied : Supplied original span usage (t.state original)
      (instantiate span usage (t.state original)) :=
    instantiate_supplied keyed brought (start.counted t.counts)
  unfold usageTreeStep
  dsimp only
  rw [findIdx?_label.2 apart]
  dsimp only
  cases run : instantiate span usage (t.state original) with
  | mk content s' =>
    rw [run] at supplied
    cases content with
    | none =>
      obtain ⟨-, e, denied, -⟩ := supplied
      exact absurd denied (grants.not_denied keyed)
    | some content =>
      obtain ⟨view', grants', -, shown⟩ := Supplies.granted supplied
      have tally : s'.tally = t := Supplies.tally supplied
      dsimp only
      rw [tally, Forest.treesOf, shown.filterMap, grants.unique grants']

theorem usageTreeStep_denied {e : ResolveError} (denied : Denied original usage e)
    (apart : labelOf original.symbols usage ∉ around.expanding) :
    usageTreeStep original around span usage t = .done "" (t.run original (report span e)).2 := by
  have supplied : Supplied original span usage (t.state original)
      (instantiate span usage (t.state original)) :=
    instantiate_supplied keyed brought (start.counted t.counts)
  unfold usageTreeStep
  dsimp only
  rw [findIdx?_label.2 apart]
  dsimp only
  cases run : instantiate span usage (t.state original) with
  | mk content s' =>
    rw [run] at supplied
    cases content with
    | none =>
      obtain ⟨-, e', denied', tally⟩ := supplied
      cases denied.unique keyed denied'
      exact congrArg (TreeStep.done "") tally
    | some content =>
      obtain ⟨view', grants', -⟩ := Supplies.granted supplied
      exact absurd denied (grants'.not_denied keyed)

variable {p : NodeId} {slot : Slot} {pre post : List NodeId}

theorem usageStep_tells (grown : original.forest.Grown) (ready : Ready original s.document)
    (stands : s.document.forest.Stands p)
    (before : s.document.forest.slot? p = some { slot with children := pre ++ (id :: post) }) :
    Step.Tells (usageStep around id span usage s)
      (usageTreeStep original around span usage s.tally) := by
  have label : labelOf s.document.symbols usage = labelOf original.symbols usage := by
    rw [labelOf, ready.standing.rests.resembles.usageKey, labelOf]
  have told (e : ResolveError) :
      (s.tally.run original (report span e)).2 = (report span e s).2.tally := by
    rw [(calm_report span e).run start ready]
  unfold usageStep
  dsimp only
  rw [label]
  cases position : around.expanding.findIdx? (· = labelOf original.symbols usage) with
  | some first =>
    unfold usageTreeStep
    dsimp only
    rw [position]
    dsimp only
    rw [told]
    exact .done "" _
  | none =>
    have apart : labelOf original.symbols usage ∉ around.expanding := findIdx?_label.1 position
    have supplied : Supplied original span usage s (instantiate span usage s) :=
      instantiate_supplied keyed brought ready
    dsimp only
    cases run : instantiate span usage s with
    | mk content s' =>
      rw [run] at supplied
      cases content with
      | none =>
        obtain ⟨-, e, denied, tally⟩ := supplied
        rw [usageTreeStep_denied keyed start brought denied apart, told, ← tally]
        exact .done "" s'
      | some content =>
        obtain ⟨-, -, ⟨view, grants, shown⟩, -⟩ :=
          Supplies.splice supplied grown ready stands before
        have tally : s'.tally = s.tally := Supplies.tally supplied
        change (modifyForest (·.splice id content.elements) s').2.tally = s.tally at tally
        rw [usageTreeStep_granted keyed start brought grants apart, ← tally]
        exact .within _ _ shown

end Usages

section Alone

variable {node : Node}

/-- A node that does not go on is written in the same way wherever it stands. -/
theorem allowedNode_alone (alone : goesOn around node = false)
    (child child' : Surroundings → NodeId → Write String) (id id' : NodeId)
    (expanding : List String) :
    allowedNode child around id node =
      allowedNode child' { around with expanding } id' node := by
  unfold goesOn at alone
  unfold allowedNode
  cases kind : node.kind with
  | element =>
    rw [kind] at alone
    have deep : around.depth ≥ maxElementDepth := by simpa using alone
    dsimp only
    rw [if_pos deep, if_pos deep]
  | usage usage =>
    rw [kind] at alone
    dsimp only at alone ⊢
    rw [if_neg (by simp [alone]), if_neg (by simp [alone])]
  | scope =>
    rw [kind] at alone
    cases alone
  | style | script => cases around.scope <;> rfl
  | _ => rfl

theorem allowedStep_alone (alone : goesOn around node = false) :
    allowedStep around id node s =
      .done (allowedNode (fun _ _ => pure "") around id node s).1
        (allowedNode (fun _ _ => pure "") around id node s).2 := by
  unfold goesOn at alone
  unfold allowedStep
  cases kind : node.kind with
  | element =>
    rw [kind] at alone
    dsimp only
    rw [if_pos (by simpa using alone)]
  | usage usage =>
    rw [kind] at alone
    dsimp only at alone ⊢
    rw [if_neg (by simp [alone])]
  | scope =>
    rw [kind] at alone
    cases alone
  | _ => rfl

end Alone

theorem Ready.violation? (ready : Ready original s.document) (ban : Option Ban) (node : Node) :
    violation? s.document.symbols ban node = violation? original.symbols ban node := by
  have same : forbids s.document.symbols = forbids original.symbols := by
    funext target node
    unfold forbids
    simp only [ready.standing.rests.resembles.lookupKey]
  unfold Write.violation?
  rw [same]

section Steps

variable {fuel levels : Nat} {p : NodeId} {slot : Slot} {pre ids post : List NodeId}
  (keyed : original.symbols.Keyed) (grown : original.forest.Grown)
  (start : Ready original original)

include keyed grown start

section

variable (queued : Queued original fuel levels around.expanding s p slot pre (id :: ids) post)

include queued

/-- A visit comes to what the step on its tree does. -/
theorem Queued.tells (there : s.document.forest.tree? id = some tree) :
    Step.Tells (Visit.step ⟨around, id, s⟩) (treeStep original around tree s.tally) := by
  have ready := queued.ready
  have fits := queued.fits id (.head _)
  have stands : s.document.forest.Stands id :=
    queued.stands.tail (Forest.mem_children_of_slot? queued.before)
  obtain ⟨here, found⟩ := ready.grown.ordered.exists_slot_of_tree? there
  have get : s.document.forest.get? id = some tree.node := by
    rw [ready.grown.get?_eq, there, Option.map_some]
  have brought : tree.node.Brought original := by
    have brought := fits.here ready.grown found
    rw [Forest.get?, found] at get
    rwa [Option.some.inj get] at brought
  unfold Visit.step treeStep
  dsimp only
  rw [get]
  dsimp only
  rw [ready.violation?]
  cases violation? original.symbols around.ban tree.node with
  | some found =>
    dsimp only
    rw [(calm_fail _).run start ready]
    exact .done "" _
  | none =>
    dsimp only
    cases goes : goesOn around tree.node with
    | false =>
      have calm : Calm original
          (allowedNode (fun _ _ => pure "") around Forest.root tree.node) :=
        calm_allowedNode keyed brought goes
      rw [allowedStep_alone goes, calm.run start ready,
        allowedNode_alone goes _ _ id Forest.root around.expanding]
      exact .done _ _
    | true =>
      unfold goesOn at goes
      rw [if_pos rfl]
      unfold allowedStep
      cases kind : tree.node.kind with
      | element =>
        rw [kind] at goes
        have shallow : around.depth < maxElementDepth := by simpa using goes
        dsimp only
        rw [if_neg (by omega)]
        exact elementStep_tells keyed start ready stands there (by simp [Node.isElement, kind]) fits
      | usage usage =>
        rw [kind] at goes
        dsimp only at goes ⊢
        rw [if_pos goes]
        exact usageStep_tells keyed start (brought.usages usage (by simp [Node.usages, kind])) grown
          ready queued.stands queued.before
      | scope => exact .within _ _ (ready.grown.shows_children there)
      | _ =>
        rw [kind] at goes
        cases goes

/-- What the first of the nodes that wait comes to. When it has been written the ones behind it are
as they were. -/
theorem Queued.next {texts : List String} {trees : List NodeTree}
    (ends : Ends around [id] s texts s')
    (shown : s.document.forest.Shows (id :: ids) (tree :: trees)) :
    Step.Tells (Visit.step ⟨around, id, s⟩) (treeStep original around tree s.tally) ∧
      s.errors <+: s'.errors ∧ s'.document.forest.Shows ids trees ∧
      ∃ pre, Queued original fuel levels around.expanding s' p slot pre ids post := by
  obtain ⟨there, behind⟩ := List.cons.inj shown
  have shown : s.document.forest.Shows ids trees := behind
  obtain ⟨new, grows, spares, queued'⟩ := queued.advance keyed grown ends
  exact ⟨queued.tells keyed grown start there, grows.errors,
    shown.of_spares queued.ready.grown queued'.ready.grown spares, _, queued'⟩

omit grown start in
/-- What is done before the nodes inside a node are written takes nothing back. -/
theorem Queued.grows {role : Role} {inside : Surroundings} {below : List NodeId}
    {before : WriteState} (descends : Descends ⟨around, id, s⟩ role inside below before) :
    Grows s before := by
  cases descends with
  | element found kind shallow =>
    exact (prepareElement_prepares keyed queued.ready queued.stands_head
      (queued.fits id (.head _)) _).toGrows
  | expansion found kind type apart received =>
    exact (queued.supplies keyed found kind received).grows id
  | scope found kind => exact .refl s

end

end Steps

/-- Trees are written one after the other, as this text and with this tally. No error that was told
of is taken back. -/
inductive Renders (original : Document) :
    Surroundings → List NodeTree → Tally → String → Tally → Prop
  | nil {around : Surroundings} {t : Tally} : Renders original around [] t "" t
  | done {around : Surroundings} {tree : NodeTree} {trees : List NodeTree} {t t' t'' : Tally}
      {text rest : String} (step : treeStep original around tree t = .done text t')
      (kept : t.errors <+: t'.errors) (later : Renders original around trees t' rest t'') :
      Renders original around (tree :: trees) t (text ++ rest) t''
  | within {around inside : Surroundings} {tree : NodeTree} {branches trees : List NodeTree}
      {t before t' t'' : Tally} {role : Role} {inner rest : String}
      (step : treeStep original around tree t = .within role inside branches before)
      (kept : t.errors <+: before.errors) (below : Renders original inside branches before inner t')
      (later : Renders original around trees t' rest t'') :
      Renders original around (tree :: trees) t (role.wrap inner ++ rest) t''

namespace Renders

variable {trees more : List NodeTree} {t t' t'' : Tally} {text text' : String}

theorem errors_prefix (renders : Renders original around trees t text t') :
    t.errors <+: t'.errors := by
  induction renders with
  | nil => exact List.prefix_rfl
  | done _ kept _ ih => exact kept.trans ih
  | within _ kept _ _ ihBelow ih => exact (kept.trans ihBelow).trans ih

theorem append (first : Renders original around trees t text t')
    (second : Renders original around more t' text' t'') :
    Renders original around (trees ++ more) t (text ++ text') t'' := by
  induction first with
  | nil => simpa using second
  | done step kept _ ih =>
    rw [String.append_assoc]
    exact .done step kept (ih second)
  | within step kept below _ _ ih =>
    rw [String.append_assoc]
    exact .within step kept below (ih second)

theorem unique (renders : Renders original around trees t text t')
    (renders' : Renders original around trees t text' t'') : text = text' ∧ t' = t'' := by
  induction renders generalizing text' t'' with
  | nil =>
    cases renders'
    exact ⟨rfl, rfl⟩
  | done step _ _ ih =>
    cases renders' with
    | done step' _ later =>
      cases step.symm.trans step'
      obtain ⟨rfl, rfl⟩ := ih later
      exact ⟨rfl, rfl⟩
    | within step' _ _ _ => cases step.symm.trans step'
  | within step _ _ _ ihBelow ih =>
    cases renders' with
    | done step' _ _ => cases step.symm.trans step'
    | within step' _ below later =>
      cases step.symm.trans step'
      obtain ⟨rfl, rfl⟩ := ihBelow below
      obtain ⟨rfl, rfl⟩ := ih later
      exact ⟨rfl, rfl⟩

end Renders

/-- Nodes that wait are written as their trees are. -/
theorem Ends.renders {fuel levels : Nat} {p : NodeId} {slot : Slot} {pre ids post : List NodeId}
    {texts : List String} {trees : List NodeTree} (keyed : original.symbols.Keyed)
    (grown : original.forest.Grown) (start : Ready original original)
    (ends : Ends around ids s texts s')
    (queued : Queued original fuel levels around.expanding s p slot pre ids post)
    (shown : s.document.forest.Shows ids trees) :
    Renders original around trees s.tally (String.join texts) s'.tally := by
  induction ends generalizing fuel levels p slot pre post trees with
  | nil =>
    rw [shown.eq_nil]
    exact .nil
  | @done around id ids s s' s'' text texts step rest ih =>
    obtain ⟨tree, trees, rfl, -⟩ := shown.cons_inv
    obtain ⟨tells, kept, shown', _, queued'⟩ :=
      queued.next keyed grown start (.done step .nil) shown
    rw [step] at tells
    generalize told : treeStep original around tree s.tally = result at tells
    cases tells
    rw [String.join_cons]
    exact .done told kept (ih queued' shown')
  | @single around id ids s s' s'' final texts step rest ih =>
    obtain ⟨tree, trees, rfl, -⟩ := shown.cons_inv
    obtain ⟨tells, kept, shown', _, queued'⟩ :=
      queued.next keyed grown start (.single step .nil) shown
    rw [step] at tells
    generalize told : treeStep original around tree s.tally = result at tells
    cases tells
    rw [String.join_cons]
    exact .done told kept (ih queued' shown')
  | @within around inside id below ids s before s' s'' role inner texts step ends rest ihBelow ih =>
    obtain ⟨tree, trees, rfl, -⟩ := shown.cons_inv
    obtain ⟨tells, -, shown', _, queued'⟩ :=
      queued.next keyed grown start (.within step ends .nil) shown
    have descends := Visit.descends step
    have kept := (queued.grows keyed descends).errors
    obtain ⟨_, _, _, _, _, _, waiting⟩ := queued.enter keyed grown step
    rw [step] at tells
    generalize told : treeStep original around tree s.tally = result at tells
    cases tells with
    | within _ _ shownBelow =>
      rw [String.join_cons]
      exact .within told kept (ihBelow waiting shownBelow) (ih queued' shown')

end Write

end TemplateMarkup
