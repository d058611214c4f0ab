import TemplateMarkup.Proofs.DefinitionMeaning

/-! Trees that a caller puts into a forest, and edits that bring them. -/
namespace TemplateMarkup

namespace Forest

mutual

/-- Puts a tree into a forest, outside of all others. -/
def plant : NodeTree → Forest → NodeId × Forest
  | .mk node branches, f =>
    let (id, f) := f.insertDetached node
    (id, plantBelow id branches f)

def plantBelow (parent : NodeId) : List NodeTree → Forest → Forest
  | [], f => f
  | tree :: trees, f =>
    let (id, f) := plant tree f
    plantBelow parent trees (f.append parent id)

end

def plantAll : List NodeTree → Forest → List NodeId × Forest
  | [], f => ([], f)
  | tree :: trees, f =>
    let (id, f) := plant tree f
    let (ids, f) := plantAll trees f
    (id :: ids, f)

/-- A tree stands on its own behind all that was there. -/
structure Planted (f : Forest) (tree : NodeTree) (planted : NodeId × Forest) : Prop where
  id : planted.1 = ⟨f.slots.size⟩
  fresh : f.Fresh planted.2 ⟨f.slots.size⟩
  grown : planted.2.Grown
  shown : planted.2.tree? ⟨f.slots.size⟩ = some tree

mutual

theorem planted_plant : (tree : NodeTree) → ∀ f : Forest, f.Grown → Planted f tree (f.plant tree)
  | .mk node branches => by
    intro f grown
    have copied := copying_plantBelow branches f _ node []
      (copying_start grown_copyable grown node)
    obtain ⟨copies, made, shows⟩ := copied.copies
    have whole := copied.keeps.tree?_of_slot? made
    rw [shows.filterMap, List.nil_append] at whole
    rw [plant]
    exact ⟨rfl, copied.fresh, copied.keeps, whole⟩

theorem copying_plantBelow : (trees : List NodeTree) → ∀ (f g : Forest) (node : Node)
    (done : List NodeTree), Copying Grown f node done g →
      Copying Grown f node (done ++ trees) (g.plantBelow ⟨f.slots.size⟩ trees)
  | [] => by
    intro f g node done copying
    rw [List.append_nil, plantBelow]
    exact copying
  | tree :: trees => by
    intro f g node done copying
    have planted := planted_plant tree g copying.keeps
    have next := copying_plantBelow trees f _ node _ (copying.add grown_copyable planted.fresh
      planted.grown (Nat.le_refl _) planted.shown)
    rw [plantBelow]
    dsimp only
    rw [planted.id]
    simpa using next

end

theorem Grown.plantAll {f : Forest} (grown : f.Grown) (trees : List NodeTree) :
    f.Turns [] (Forest.plantAll trees f).2 (Forest.plantAll trees f).1 ∧
      (Forest.plantAll trees f).2.Shows (Forest.plantAll trees f).1 trees := by
  induction trees generalizing f with
  | nil => exact ⟨.refl grown [], rfl⟩
  | cons tree trees ih =>
    have planted := planted_plant tree f grown
    have made := planted.fresh.extend.turns grown planted.grown planted.fresh.root (Nat.le_refl _)
    obtain ⟨turns, shown⟩ := ih planted.grown
    have both := made.trans (turns.frame [⟨f.slots.size⟩]) ⟨List.nodup_nil, by simp⟩
    have stays := planted.grown.tree?_of_spares turns.grown
      (turns.spares _ planted.fresh.root (by simp))
    rw [Forest.plantAll]
    dsimp only
    rw [planted.id]
    refine ⟨both.perm (.refl _) List.perm_append_comm, ?_⟩
    rw [Shows, List.map_cons, stays, planted.shown, shown]
    rfl

end Forest

/-- An edit of a usage that a caller makes: what it inserts are trees, and not nodes of some
forest. -/
inductive NewEdit
  | plain (edit : Edit) (nothing : edit.payload = [])
  | insert (position : InsertPosition) (trees : List NodeTree)

namespace NewEdit

/-- The edit, with its trees put into a forest. -/
def plant : NewEdit → Forest → Edit × Forest
  | .plain edit _, f => (edit, f)
  | .insert position trees, f =>
    let (ids, f) := f.plantAll trees
    (.insert position (.elements ids), f)

def plantAll : List NewEdit → Forest → List Edit × Forest
  | [], f => ([], f)
  | new :: news, f =>
    let (edit, f) := new.plant f
    let (edits, f) := plantAll news f
    (edit :: edits, f)

/-- What the edit makes of content. -/
def apply (first : Nat) (content : TreeContent) : NewEdit → TreeContent
  | .plain edit _ => content.apply (fun _ => []) first edit
  | .insert position trees =>
    if content.type = .element then content.insertElements first position trees else content

end NewEdit

/-- An edit whose nodes show the trees of a new one. -/
inductive Realizes (f : Forest) : NewEdit → Edit → Prop
  | plain (edit : Edit) (nothing : edit.payload = []) : Realizes f (.plain edit nothing) edit
  | insert (position : InsertPosition) {trees : List NodeTree} {ids : List NodeId}
      (shown : f.Shows ids trees) :
      Realizes f (.insert position trees) (.insert position (.elements ids))

variable {f g : Forest} {new : NewEdit} {edit : Edit} {news : List NewEdit} {edits : List Edit}

theorem Realizes.mono (realizes : Realizes f new edit) (hf : f.Grown) (hg : g.Grown)
    (spares : ∀ id ∈ edit.payload, f.Spares g id) : Realizes g new edit := by
  cases realizes with
  | plain _ nothing => exact .plain _ nothing
  | insert position shown => exact .insert position (shown.of_spares hf hg spares)

theorem Realizes.apply (realizes : Realizes f new edit) (first : Nat) (content : TreeContent) :
    content.apply f.treesOf first edit = new.apply first content := by
  cases realizes with
  | plain _ nothing =>
    unfold NewEdit.apply TreeContent.apply
    cases edit with
    | insert position payload =>
      cases payload with
      | elements nodes =>
        cases nothing
        rfl
      | properties properties => rfl
    | _ => rfl
  | insert position shown =>
    unfold NewEdit.apply TreeContent.apply
    dsimp only
    rw [Forest.treesOf, shown.filterMap]

theorem applyAll_of_realizes (realizes : List.Forall₂ (Realizes f) news edits) (first : Nat)
    (content : TreeContent) :
    content.applyAll f.treesOf first edits = news.foldl (NewEdit.apply first) content := by
  induction realizes generalizing content with
  | nil => rfl
  | cons realizes _ ih =>
    rw [List.foldl_cons, ← realizes.apply]
    exact ih _

/-- Planting edits adds the nodes that they bring, and nothing else. -/
theorem Forest.Grown.plantEdits (grown : f.Grown) (news : List NewEdit) :
    f.Turns [] (NewEdit.plantAll news f).2
        ((NewEdit.plantAll news f).1.flatMap Edit.payload) ∧
      List.Forall₂ (Realizes (NewEdit.plantAll news f).2) news (NewEdit.plantAll news f).1 := by
  induction news generalizing f with
  | nil => exact ⟨.refl grown [], .nil⟩
  | cons new news ih =>
    have none : f.Roots [] := ⟨List.nodup_nil, by simp⟩
    have first : f.Turns [] (new.plant f).2 (new.plant f).1.payload ∧
        Realizes (new.plant f).2 new (new.plant f).1 := by
      cases new with
      | plain edit nothing =>
        rw [NewEdit.plant, nothing]
        exact ⟨.refl grown [], .plain edit nothing⟩
      | insert position trees =>
        obtain ⟨turns, shown⟩ := grown.plantAll trees
        exact ⟨turns, .insert position shown⟩
    obtain ⟨turns, realizes⟩ := first
    obtain ⟨turns', realizes'⟩ := ih turns.grown
    have both := turns.trans (turns'.frame (new.plant f).1.payload) none
    have roots := turns.roots_self none
    rw [NewEdit.plantAll]
    refine ⟨both.perm (.refl _) List.perm_append_comm, .cons ?_ realizes'⟩
    refine realizes.mono turns.grown turns'.grown fun id member => ?_
    exact turns'.spares id (roots.isRoot id member) (by simp)

end TemplateMarkup
