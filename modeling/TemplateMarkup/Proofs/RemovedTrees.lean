import TemplateMarkup.Proofs.UnfoldedUsages

/-! Trees from which one at some place is taken away, and what becomes of the trees of a forest when
a node is removed from it. -/
namespace TemplateMarkup

namespace NodeTree

/-- The trees without the one at a place, to which the numbers of the trees on the way lead. -/
def dropAt : Nat → List Nat → List NodeTree → List NodeTree
  | i, [], trees => trees.eraseIdx i
  | i, j :: path, trees => trees.modify i fun tree => .mk tree.node (dropAt j path tree.branches)

variable {P : Node → Prop} {i : Nat} {path : List Nat} {tree : NodeTree} {trees : List NodeTree}

theorem dropAt_nil : dropAt i path [] = [] := by
  cases path with
  | nil => exact List.eraseIdx_nil
  | cons j path => exact List.modify_nil _ i

theorem dropAt_succ : dropAt (i + 1) path (tree :: trees) = tree :: dropAt i path trees := by
  cases path <;> rfl

theorem dropAt_append (front : List NodeTree) :
    dropAt front.length path (front ++ trees) = front ++ dropAt 0 path trees := by
  induction front with
  | nil => rfl
  | cons tree front ih => rw [List.cons_append, List.length_cons, dropAt_succ, ih, List.cons_append]

theorem dropAt_map (rename : Node → Node) : dropAt i path (trees.map (.mapTop rename)) =
    (dropAt i path trees).map (.mapTop rename) := by
  induction trees generalizing i with
  | nil => rw [List.map_nil, dropAt_nil, List.map_nil]
  | cons tree trees ih =>
    cases i with
    | zero =>
      obtain ⟨node, branches⟩ := tree
      cases path <;> rfl
    | succ i => rw [List.map_cons, dropAt_succ, ih, dropAt_succ, List.map_cons]

/-- What tells something about the element around stays. -/
theorem fixtures_dropAt
    (loose : path = [] → ∀ tree, trees[i]? = some tree → tree.node.isLoose) :
    Node.fixtures ((dropAt i path trees).map NodeTree.node) =
      Node.fixtures (trees.map NodeTree.node) := by
  induction trees generalizing i with
  | nil => rw [dropAt_nil]
  | cons tree trees ih =>
    cases i with
    | zero =>
      cases path with
      | nil =>
        have free : tree.node.isLoose := loose rfl tree rfl
        simp [dropAt, Node.fixtures, free]
      | cons j path => rfl
    | succ i =>
      have rest := ih fun last tree found => loose last tree found
      unfold Node.fixtures at rest ⊢
      rw [dropAt_succ, List.map_cons, List.map_cons, List.filter_cons, List.filter_cons, rest]

theorem fits_dropAt {levels : Nat} (fits : ∀ tree ∈ trees, tree.Fits P levels) :
    ∀ tree ∈ dropAt i path trees, tree.Fits P levels := by
  induction path generalizing i trees levels with
  | nil => exact fun tree member => fits tree (List.mem_of_mem_eraseIdx member)
  | cons j path ih =>
    intro tree member
    obtain ⟨k, found⟩ := List.mem_iff_getElem?.1 member
    rw [dropAt, List.getElem?_modify] at found
    obtain ⟨old, there, same⟩ := Option.map_eq_some_iff.1 found
    have before := fits old (List.mem_of_getElem? there)
    split at same
    · rw [← same]
      cases before with
      | mk here below => exact .mk here (ih below)
    · rw [← same]
      exact before

end NodeTree

namespace Forest

/-- A node is found at a place among other nodes or below them. -/
inductive FoundAt (f : Forest) (v : NodeId) : Nat → List Nat → List NodeId → Prop
  | here (front back : List NodeId) : FoundAt f v front.length [] (front ++ v :: back)
  | deeper {c : NodeId} {j : Nat} {path : List Nat} (front back : List NodeId)
      (inside : FoundAt f v j path (f.children c)) :
      FoundAt f v front.length (j :: path) (front ++ c :: back)

variable {f g : Forest} {v k : NodeId} {i : Nat} {path : List Nat} {ids : List NodeId}
  {tree : NodeTree}

theorem FoundAt.later (place : f.FoundAt v i path ids) (c : NodeId) :
    f.FoundAt v (i + 1) path (c :: ids) := by
  cases place with
  | here front back => exact .here (c :: front) back
  | deeper front back inside => exact .deeper (c :: front) back inside

theorem FoundAt.exists_below (place : f.FoundAt v i path ids) : ∃ c ∈ ids, f.Below c v := by
  induction place with
  | here front back => exact ⟨v, by simp, .refl⟩
  | @deeper c _ _ front back _ ih =>
    obtain ⟨d, link, under⟩ := ih
    exact ⟨c, by simp, .head link under⟩

/-- Places depend on the links below the nodes. -/
theorem FoundAt.congr (place : g.FoundAt v i path ids)
    (same : ∀ c ∈ ids, ∀ k, f.Below c k → g.children k = f.children k) :
    f.FoundAt v i path ids := by
  induction place with
  | here front back => exact .here front back
  | @deeper c _ _ front back _ ih =>
    have children : g.children c = f.children c := same c (by simp) c .refl
    rw [children] at ih
    exact .deeper front back (ih fun d link k under => same c (by simp) k (.head link under))

theorem Shows.split {c : NodeId} {front back : List NodeId} {trees : List NodeTree}
    (shown : f.Shows (front ++ c :: back) trees) :
    ∃ before tree after, trees = before ++ tree :: after ∧ before.length = front.length ∧
      f.Shows front before ∧ f.tree? c = some tree ∧ f.Shows back after := by
  unfold Shows at shown
  rw [List.map_append, List.map_cons] at shown
  obtain ⟨before, rest, rfl, first, last⟩ := List.map_eq_append_iff.1 shown.symm
  obtain ⟨tree, after, rfl, there, last⟩ := List.map_eq_cons_iff.1 last
  exact ⟨before, tree, after, rfl, by simpa using congrArg List.length first, first.symm,
    there.symm, last.symm⟩

theorem Grown.tree?_of_shows (grown : f.Grown) {slot : Slot} {trees : List NodeTree}
    (found : f.slot? k = some { slot with children := ids }) (shown : f.Shows ids trees) :
    f.tree? k = some (.mk slot.node trees) := by
  rw [grown.tree?_of_slot? found, shown.filterMap]

/-- What becomes of a tree when a node is removed that is found at a place in it. -/
theorem FoundAt.tree?_remove (hf : f.Grown) (isRoot : f.IsRoot root)
    (place : f.FoundAt v i path ids) :
    ∀ k tree, f.children k = ids → f.Stands k → f.tree? k = some tree →
    ∃ p slot pre post, f.Below k p ∧ f.Replaces (f.remove v).2 p slot pre [v] [] post ∧
      f.Plants (f.remove v).2 [] [] ∧
      (f.remove v).2.tree? k = some (.mk tree.node (NodeTree.dropAt i path tree.branches)) := by
  induction place with
  | here front back =>
    intro k tree children stands there
    obtain ⟨slot, found⟩ := hf.ordered.exists_slot_of_tree? there
    have before : f.slot? k = some { slot with children := front ++ (v :: back) } := by
      rw [found, ← children, children_eq found]
    obtain ⟨plants, replaces⟩ := hf.remove_child stands before isRoot
    have hg := plants.grown
    have spares (c : NodeId) (member : c ∈ front ++ back) : f.Spares (f.remove v).2 c := by
      refine replaces.spares hf stands ?_ fun same => ?_
      · rw [children]
        simp only [List.mem_append, List.mem_cons] at member ⊢
        exact member.imp_right .inr
      · rw [List.mem_singleton.1 same] at member
        exact hf.not_mem_others before member
    have shown := hf.shows_children there
    rw [children] at shown
    obtain ⟨left, mid, right, split, length, first, -, last⟩ := shown.split
    have shown' := (first.append last).of_spares hf hg spares
    refine ⟨k, slot, front, back, .refl, replaces, plants, ?_⟩
    rw [hg.tree?_of_shows replaces.after shown', split, ← length, NodeTree.dropAt_append]
    rw [hf.tree?_of_slot? found] at there
    cases there
    rfl
  | @deeper c j path front back inside ih =>
    intro k tree children stands there
    obtain ⟨slot, found⟩ := hf.ordered.exists_slot_of_tree? there
    have before : f.slot? k = some { slot with children := front ++ (c :: back) } := by
      rw [found, ← children, children_eq found]
    have link := mem_children_of_slot? before
    have shown := hf.shows_children there
    rw [children] at shown
    obtain ⟨left, mid, right, split, length, first, below, last⟩ := shown.split
    obtain ⟨p, slot', pre, post, under, replaces, plants, below'⟩ :=
      ih c mid rfl (stands.tail link) below
    have hg := plants.grown
    have spares (d : NodeId) (member : d ∈ front ++ back) : f.Spares (f.remove v).2 d := by
      refine replaces.spares_beside hf stands link under ?_ ?_
      · rw [children]
        simp only [List.mem_append, List.mem_cons] at member ⊢
        exact member.imp_right .inr
      · rintro rfl
        exact hf.not_mem_others before member
    have after := (replaces.slot?_above hf stands link under).trans before
    have shown' : (f.remove v).2.Shows (front ++ c :: back) (left ++ _ :: right) :=
      (first.of_spares hf hg fun d member => spares d (List.mem_append_left _ member)).append
        (Shows.append (shows_singleton.2 below') (last.of_spares hf hg fun d member =>
          spares d (List.mem_append_right _ member)))
    refine ⟨p, slot', pre, post, .head link under, replaces, plants, ?_⟩
    rw [hg.tree?_of_shows after shown', split, ← length, NodeTree.dropAt_append]
    rw [hf.tree?_of_slot? found] at there
    cases there
    rfl

end Forest

end TemplateMarkup
