import Mathlib.Data.List.Perm.Basic
import TemplateMarkup.Proofs.ForestCopies
import TemplateMarkup.Resolving.Edits

/-! Edits as changes to trees. What an edit makes of content depends only on the trees that the
content holds and on those that the edit brings. -/
namespace TemplateMarkup

/-- Content with trees in the place of nodes. -/
structure TreeContent where
  type : DefinitionType
  properties : OrderedMap String Value := {}
  elements : List NodeTree := []
  valueless : List String := []

namespace TreeContent

/-- Whether a target names the tag of a tree. -/
def isTarget (target : Target) (tree : NodeTree) : Bool :=
  tree.node.isElement && tree.node.name == target.name

def findElement? (first : Nat) (elements : List NodeTree) (target : Target) : Option Nat := do
  let nth ← match target.index with
    | some index => if index < first then none else some (index - first)
    | none => some 0
  (((elements.zipIdx.filter fun (tree, _) => isTarget target tree))[nth]?).map Prod.snd

variable (content : TreeContent)

def removeElement (index : Nat) : TreeContent :=
  { content with elements := content.elements.eraseIdx index }

def deleteElement (first : Nat) (target : Target) : TreeContent :=
  match findElement? first content.elements target with
  | some index => content.removeElement index
  | none => content

def deleteProperty (name : String) : TreeContent :=
  if content.properties.contains name || content.valueless.contains name then
    { content with
      properties := content.properties.erase name
      valueless := content.valueless.filter (· ≠ name) }
  else content

def deleteName (first : Nat) (name : String) : TreeContent :=
  if content.type = .element then content.deleteElement first ⟨name, none⟩
  else content.deleteProperty name

def placeElements (index : Nat) (trees : List NodeTree) : TreeContent :=
  { content with
    elements := content.elements.take index ++ trees ++ content.elements.drop index }

def insertElements (first : Nat) (position : InsertPosition) (trees : List NodeTree) :
    TreeContent :=
  let find (target : Target) (place : Nat → TreeContent) : TreeContent :=
    match findElement? first content.elements target with
    | some index => place index
    | none => content
  match position with
  | .top => content.placeElements 0 trees
  | .bottom => content.placeElements content.elements.length trees
  | .before target => find target fun index => content.placeElements index trees
  | .after target => find target fun index => content.placeElements (index + 1) trees
  | .replace target => find target fun index =>
      (content.removeElement index).placeElements index trees

def insertProperties (position : InsertPosition) (payload : OrderedMap String Value) :
    TreeContent :=
  match Content.insertProperties content.properties position payload with
  | .ok properties => { content with properties }
  | .error _ => content

/-- Applies one edit; `trees` gives the trees that an insertion brings. -/
def apply (trees : List NodeId → List NodeTree) (first : Nat) (edit : Edit) : TreeContent :=
  match edit with
  | .deleteNames names => names.foldl (fun content name => content.deleteName first name) content
  | .deleteElement target => content.deleteElement first target
  | .deleteParent _ _ => content
  | .insert position (.elements nodes) =>
    if content.type = .element then content.insertElements first position (trees nodes)
    else content
  | .insert position (.properties properties) =>
    if content.type = .element then content else content.insertProperties position properties

def applyAll (trees : List NodeId → List NodeTree) (first : Nat) (edits : List Edit) :
    TreeContent :=
  edits.foldl (fun content edit => content.apply trees first edit) content

end TreeContent

/-- The nodes that an edit brings. -/
def Edit.payload : Edit → List NodeId
  | .insert _ (.elements nodes) => nodes
  | _ => []

/-- Content that is what `view` says, with its elements in a forest. -/
structure Content.Shows (content : Content) (forest : Forest) (view : TreeContent) : Prop where
  type : content.type = view.type
  properties : content.properties = view.properties
  valueless : content.valueless = view.valueless
  elements : forest.Shows content.elements view.elements

namespace Forest

variable {f g : Forest} {own own' ids : List NodeId} {trees : List NodeTree}

theorem Grown.get?_eq (grown : f.Grown) (id : NodeId) :
    f.get? id = (f.tree? id).map NodeTree.node := by
  rw [get?, grown.ordered.tree?_eq, Option.map_map]
  rfl

theorem Shows.eraseIdx (shown : f.Shows ids trees) (index : Nat) :
    f.Shows (ids.eraseIdx index) (trees.eraseIdx index) := by
  rw [List.eraseIdx_eq_take_drop_succ, List.eraseIdx_eq_take_drop_succ]
  exact (shown.take index).append (shown.drop (index + 1))

/-- The trees at those of the nodes that are there. -/
def treesOf (f : Forest) (ids : List NodeId) : List NodeTree := ids.filterMap f.tree?

/-- Roots beside `own` that have the trees that they have in `original`. -/
def Keeps (original f : Forest) (own ids : List NodeId) : Prop :=
  ∀ id ∈ ids, f.IsRoot id ∧ id ∉ own ∧ f.tree? id = original.tree? id

variable {original : Forest}

theorem Keeps.apart (keeps : Keeps original f own ids) (sub : own' ⊆ own) :
    Keeps original f own' ids := fun id member =>
  ⟨(keeps id member).1, fun mine => (keeps id member).2.1 (sub mine), (keeps id member).2.2⟩

theorem Keeps.turns (keeps : Keeps original f own ids) (grown : f.Grown)
    (roots : f.Roots own) (turns : f.Turns own g own') : Keeps original g own' ids := by
  intro id member
  obtain ⟨root, other, same⟩ := keeps id member
  have spared := turns.spares id root other
  refine ⟨spared.isRoot root, turns.not_mem roots root other, ?_⟩
  rw [grown.tree?_of_spares turns.grown spared, same]

theorem Keeps.shows (keeps : Keeps original f own ids) (grown : f.Grown) :
    f.Shows ids (original.treesOf ids) := by
  obtain ⟨trees, shown⟩ := grown.ordered.exists_shows fun id member => by
    obtain ⟨⟨slot, found, -⟩, -⟩ := keeps id member
    exact ⟨slot, found⟩
  have same : original.treesOf ids = trees := by
    rw [← shown.filterMap, Forest.treesOf]
    exact List.filterMap_congr fun id member => (keeps id member).2.2.symm
  rw [same]
  exact shown

theorem Grown.exists_shows_of_roots (grown : f.Grown) (roots : f.Roots own) :
    ∃ trees, f.Shows own trees := by
  refine grown.ordered.exists_shows fun id member => ?_
  obtain ⟨slot, found, -⟩ := roots.isRoot id member
  exact ⟨slot, found⟩

/-- Whether a node is an element with a tag. -/
def hasTag (f : Forest) (tag : String) (id : NodeId) : Bool :=
  (f.get? id).any fun node => node.isElement && node.name == tag

/-- The place that a target points at in a list that tells which members have the tag. -/
def placeOf (first : Nat) (target : Target) (tagged : List Bool) : Option Nat := do
  let nth ← match target.index with
    | some index => if index < first then none else some (index - first)
    | none => some 0
  ((tagged.zipIdx.filter Prod.fst)[nth]?).map Prod.snd

theorem hits_eq {α : Type} (p : α → Bool) (xs : List α) (n : Nat) :
    ((xs.zipIdx.filter fun e => p e.1)[n]?).map Prod.snd =
      (((xs.map p).zipIdx.filter Prod.fst)[n]?).map Prod.snd := by
  simp [List.zipIdx_map, List.filter_map, Function.comp_def]

theorem findElement?_eq (first : Nat) (target : Target) :
    Content.findElement? f first ids target =
      placeOf first target (ids.map (f.hasTag target.name)) := by
  unfold Content.findElement? placeOf
  rw [List.filter_congr (q := fun e => f.hasTag target.name e.1)]
  · cases target.index with
    | none => exact hits_eq _ _ 0
    | some index =>
      dsimp only
      split
      · rfl
      · exact hits_eq _ _ _
  · rintro ⟨id, n⟩ -
    dsimp only
    unfold hasTag
    cases f.get? id <;> rfl

theorem Shows.findElement?_eq (grown : f.Grown) (shown : f.Shows ids trees) (first : Nat)
    (target : Target) :
    Content.findElement? f first ids target = TreeContent.findElement? first trees target := by
  have tags := congrArg (List.map (Option.any (TreeContent.isTarget target))) shown
  rw [List.map_map, List.map_map] at tags
  have same : ids.map (f.hasTag target.name) = trees.map (TreeContent.isTarget target) := by
    refine Eq.trans (List.map_congr_left fun id _ => ?_) tags
    rw [hasTag, grown.get?_eq, Option.any_map]
    rfl
  rw [Forest.findElement?_eq, same]
  unfold placeOf TreeContent.findElement?
  simp only [← hits_eq]

end Forest

namespace EditState

/-- Content under edit that holds what `view` says, in subtrees of its own. -/
structure Holds (state : EditState) (view : TreeContent) : Prop where
  grown : state.forest.Grown
  roots : state.forest.Roots state.content.elements
  shown : state.content.Shows state.forest view

/-- One state of an edit turns into another that shows `view`; only the subtrees of the content
change. -/
structure Becomes (before after : EditState) (view : TreeContent) : Prop where
  turns : before.forest.Turns before.content.elements after.forest after.content.elements
  shown : after.content.Shows after.forest view

variable {state before after : EditState} {view view' : TreeContent}

theorem Becomes.holds (becomes : before.Becomes after view') (holds : before.Holds view) :
    after.Holds view' :=
  ⟨becomes.turns.grown, becomes.turns.roots_self holds.roots, becomes.shown⟩

theorem Becomes.trans {last : EditState} {view'' : TreeContent}
    (first : before.Becomes after view') (second : after.Becomes last view'')
    (holds : before.Holds view) : before.Becomes last view'' :=
  ⟨first.turns.trans second.turns holds.roots, second.shown⟩

section

variable (holds : state.Holds view)

include holds

theorem Holds.stays : state.Becomes state view :=
  ⟨.refl holds.grown _, holds.shown⟩

theorem Holds.warn (warning : ResolveWarning) : state.Becomes (state.warn warning) view :=
  ⟨.refl holds.grown _, holds.shown⟩

theorem Holds.removeElement (index : Nat) :
    state.Becomes (state.removeElement index) (view.removeElement index) := by
  have shown := holds.shown
  have left := shown.elements.eraseIdx index
  unfold EditState.removeElement
  cases found : state.content.elements[index]? with
  | none =>
    have past : state.content.elements.length ≤ index := List.getElem?_eq_none_iff.1 found
    rw [List.eraseIdx_of_length_le past] at left ⊢
    exact ⟨.refl holds.grown _, shown.type, shown.properties, shown.valueless, left⟩
  | some id =>
    have split : (id :: state.content.elements.eraseIdx index).Perm state.content.elements := by
      obtain ⟨inside, rfl⟩ := List.getElem?_eq_some_iff.1 found
      exact List.getElem_cons_eraseIdx_perm inside
    have roots := holds.roots.perm split.symm
    have root := roots.isRoot id (.head _)
    have removed := holds.grown.turns_remove root
    refine ⟨(removed.frame _).perm split (.refl _), shown.type, shown.properties,
      shown.valueless, ?_⟩
    refine left.of_spares holds.grown removed.grown fun r member => ?_
    refine removed.spares r (roots.isRoot r (.tail _ member)) ?_
    rw [List.mem_singleton]
    rintro rfl
    exact (List.nodup_cons.1 roots.nodup).1 member

theorem Holds.deleteElement (first : Nat) (site : EditSite) (target : Target) :
    state.Becomes (state.deleteElement first site target) (view.deleteElement first target) := by
  unfold EditState.deleteElement TreeContent.deleteElement
  rw [holds.shown.elements.findElement?_eq holds.grown]
  cases TreeContent.findElement? first view.elements target with
  | some index => exact holds.removeElement index
  | none => exact holds.warn _

theorem Holds.deleteProperty (site : EditSite) (name : String) :
    state.Becomes (state.deleteProperty site name) (view.deleteProperty name) := by
  have shown := holds.shown
  unfold EditState.deleteProperty TreeContent.deleteProperty
  dsimp only
  rw [shown.properties, shown.valueless]
  split
  · exact ⟨.refl holds.grown _, shown.type, rfl, rfl, shown.elements⟩
  · exact holds.warn _

theorem Holds.deleteName (first : Nat) (site : EditSite) (name : String) :
    state.Becomes (state.deleteName first site name) (view.deleteName first name) := by
  unfold EditState.deleteName TreeContent.deleteName
  rw [holds.shown.type]
  split
  · unfold EditState.deleteFirstElement TreeContent.deleteElement
    rw [holds.shown.elements.findElement?_eq holds.grown]
    cases TreeContent.findElement? first view.elements ⟨name, none⟩ with
    | some index => exact holds.removeElement index
    | none => exact holds.warn _
  · exact holds.deleteProperty site name

theorem Holds.deleteNames (first : Nat) (site : EditSite) (names : List String) :
    state.Becomes (names.foldl (fun state name => state.deleteName first site name) state)
      (names.foldl (fun view name => view.deleteName first name) view) := by
  induction names generalizing state view with
  | nil => exact holds.stays
  | cons name names ih =>
    have step := holds.deleteName first site name
    exact step.trans (ih (step.holds holds)) holds

theorem Holds.insertProperties (site : EditSite) (position : InsertPosition)
    (payload : OrderedMap String Value) :
    state.Becomes (state.insertProperties site position payload)
      (view.insertProperties position payload) := by
  have shown := holds.shown
  unfold EditState.insertProperties TreeContent.insertProperties
  rw [shown.properties]
  cases Content.insertProperties view.properties position payload with
  | ok properties =>
    exact ⟨.refl holds.grown _, shown.type, rfl, shown.valueless, shown.elements⟩
  | error name => exact holds.warn _

end

/-- Content with copies at hand that are not placed yet. -/
private structure Laden (before state : EditState) (view : TreeContent) (copies : List NodeId)
    (trees : List NodeTree) : Prop where
  turns : before.forest.Turns before.content.elements state.forest
    (state.content.elements ++ copies)
  shown : state.content.Shows state.forest view
  copies : state.forest.Shows copies trees

variable {copies : List NodeId} {trees : List NodeTree}

section

variable (laden : Laden before state view copies trees)

include laden

private theorem Laden.holds (holds : before.Holds view') : state.Holds view :=
  ⟨laden.turns.grown, (laden.turns.roots_self holds.roots).left, laden.shown⟩

private theorem Laden.place (index : Nat) :
    before.Becomes (state.placeElements index copies) (view.placeElements index trees) := by
  have shown := laden.shown
  refine ⟨laden.turns.perm (.refl _) ?_, shown.type, shown.properties, shown.valueless, ?_⟩
  · have apart : (state.content.elements.take index ++ copies ++
        state.content.elements.drop index).Perm
        (state.content.elements.take index ++ (state.content.elements.drop index ++ copies)) := by
      rw [List.append_assoc]
      exact List.perm_append_comm.append_left _
    rw [← List.append_assoc, List.take_append_drop] at apart
    exact apart.symm
  · exact ((shown.elements.take index).append laden.copies).append (shown.elements.drop index)

private theorem Laden.removeElement (holds : before.Holds view') (index : Nat) :
    Laden before (state.removeElement index) (view.removeElement index) copies trees := by
  have roots := laden.turns.roots_self holds.roots
  have removed := (laden.holds holds).removeElement index
  refine ⟨laden.turns.trans (removed.turns.frame copies) holds.roots, removed.shown, ?_⟩
  refine laden.copies.of_spares laden.turns.grown removed.turns.grown fun r member => ?_
  refine removed.turns.spares r (roots.right.isRoot r member) fun own => ?_
  exact (List.nodup_append.1 roots.nodup).2.2 r own r member rfl

private theorem Laden.drop (holds : before.Holds view') (warning : ResolveWarning) :
    before.Becomes
      ({ state with forest := Forest.removeAll copies state.forest }.warn warning) view := by
  have roots := laden.turns.roots_self holds.roots
  have removed := laden.turns.grown.turns_removeAll roots.right
  have turned := (removed.frame state.content.elements).perm List.perm_append_comm (.refl _)
  refine ⟨laden.turns.trans turned holds.roots, laden.shown.type, laden.shown.properties,
    laden.shown.valueless, ?_⟩
  refine laden.shown.elements.of_spares laden.turns.grown removed.grown fun r member => ?_
  refine removed.spares r (roots.left.isRoot r member) fun copy => ?_
  exact (List.nodup_append.1 roots.nodup).2.2 r member r copy rfl

end

/-- Copies of any nodes may be inserted, if `trees` are the trees that the copies show. -/
theorem Holds.insertElements (holds : state.Holds view) (first : Nat) (site : EditSite)
    (position : InsertPosition) {nodes : List NodeId}
    (copies : (Forest.copyAll nodes state.forest).2.Shows (Forest.copyAll nodes state.forest).1
      trees) :
    state.Becomes (state.insertElements first site position nodes)
      (view.insertElements first position trees) := by
  have turns := holds.grown.turns_copies nodes
  have laden : Laden state { state with forest := (Forest.copyAll nodes state.forest).2 } view
      (Forest.copyAll nodes state.forest).1 trees := by
    refine ⟨(turns.frame state.content.elements).perm (.refl _) List.perm_append_comm,
      ⟨holds.shown.type, holds.shown.properties, holds.shown.valueless, ?_⟩, copies⟩
    refine holds.shown.elements.of_spares holds.grown turns.grown fun r member => ?_
    exact turns.spares r (holds.roots.isRoot r member) (by simp)
  have search := (laden.holds holds).shown.elements.findElement?_eq turns.grown first
  unfold EditState.insertElements TreeContent.insertElements
  cases position with
  | top => exact laden.place 0
  | bottom =>
    dsimp only
    rw [holds.shown.elements.length_eq]
    exact laden.place view.elements.length
  | before target =>
    dsimp only
    rw [search target]
    cases TreeContent.findElement? first view.elements target with
    | some index => exact laden.place index
    | none => exact laden.drop holds _
  | after target =>
    dsimp only
    rw [search target]
    cases TreeContent.findElement? first view.elements target with
    | some index => exact laden.place (index + 1)
    | none => exact laden.drop holds _
  | replace target =>
    dsimp only
    rw [search target]
    cases TreeContent.findElement? first view.elements target with
    | some index => exact (laden.removeElement holds index).place index
    | none => exact laden.drop holds _

variable {original : Forest}

/-- One edit, where `trees` gives the trees of what an insertion brings. -/
theorem Holds.apply (holds : state.Holds view) (first : Nat) (site : EditSite) {edit : Edit}
    {trees : List NodeId → List NodeTree}
    (copies : (Forest.copyAll edit.payload state.forest).2.Shows
      (Forest.copyAll edit.payload state.forest).1 (trees edit.payload)) :
    state.Becomes (state.apply first site edit) (view.apply trees first edit) := by
  unfold EditState.apply TreeContent.apply
  cases edit with
  | deleteNames names => exact holds.deleteNames first site names
  | deleteElement target => exact holds.deleteElement first site target
  | deleteParent type name => exact holds.warn _
  | insert position payload =>
    cases payload with
    | elements nodes =>
      dsimp only
      rw [holds.shown.type]
      split
      · exact holds.insertElements first site position copies
      · exact holds.warn _
    | properties properties =>
      dsimp only
      rw [holds.shown.type]
      split
      · exact holds.warn _
      · exact holds.insertProperties site position properties

/-- Edits change the trees of content as they say, and touch nothing else. -/
theorem Holds.applyAll (holds : state.Holds view) (first : Nat) (site : EditSite)
    {edits : List Edit}
    (keeps : Forest.Keeps original state.forest state.content.elements
      (edits.flatMap Edit.payload)) :
    state.Becomes (state.applyAll first site edits)
      (view.applyAll original.treesOf first edits) := by
  induction edits generalizing state view with
  | nil => exact holds.stays
  | cons edit edits ih =>
    rw [List.flatMap_cons] at keeps
    have brought : Forest.Keeps original state.forest state.content.elements edit.payload :=
      fun id member => keeps id (List.mem_append_left _ member)
    have step := holds.apply first site
      (holds.grown.turns_copyAll (brought.shows holds.grown)).2
    have rest : Forest.Keeps original (state.apply first site edit).forest
        (state.apply first site edit).content.elements (edits.flatMap Edit.payload) :=
      Forest.Keeps.turns (fun id member => keeps id (List.mem_append_right _ member)) holds.grown
        holds.roots step.turns
    exact step.trans (ih (step.holds holds) rest) holds

/-- Whatever nodes the edits bring, only the subtrees of the content change. -/
theorem turns_applyAll (grown : state.forest.Grown)
    (roots : state.forest.Roots state.content.elements) (first : Nat) (site : EditSite)
    (edits : List Edit) :
    state.forest.Turns state.content.elements (state.applyAll first site edits).forest
      (state.applyAll first site edits).content.elements := by
  induction edits generalizing state with
  | nil => exact .refl grown _
  | cons edit edits ih =>
    obtain ⟨elements, shown⟩ := grown.exists_shows_of_roots roots
    have copied := grown.turns_copies edit.payload
    obtain ⟨trees, copies⟩ := copied.grown.exists_shows_of_roots
      (copied.roots_self ⟨List.nodup_nil, by simp⟩)
    have holds : state.Holds
        { type := state.content.type, properties := state.content.properties, elements,
          valueless := state.content.valueless } := ⟨grown, roots, rfl, rfl, rfl, shown⟩
    have becomes : state.Becomes (state.apply first site edit)
        (TreeContent.apply _ (fun _ => trees) first edit) := holds.apply first site copies
    have step := becomes.turns
    exact step.trans (ih step.grown (step.roots_self roots)) roots

end EditState

end TemplateMarkup
