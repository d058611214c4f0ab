import Mathlib.Data.List.Nodup
import Mathlib.Data.List.Perm.Subperm
import TemplateMarkup.Proofs.ForestLinks

/-! The subtrees of a forest as trees of nodes, without the names of the nodes. -/
namespace TemplateMarkup

/-- A node with the trees below it. -/
inductive NodeTree
  | mk (node : Node) (branches : List NodeTree)

namespace NodeTree

def node : NodeTree → Node
  | mk node _ => node

def branches : NodeTree → List NodeTree
  | mk _ branches => branches

end NodeTree

namespace Forest

/-- The tree at a node, cut off `fuel` levels down. -/
def treeFrom (f : Forest) : Nat → NodeId → Option NodeTree
  | 0, _ => none
  | fuel + 1, id =>
    (f.slot? id).map fun slot => .mk slot.node (slot.children.filterMap (f.treeFrom fuel))

/-- The tree at a node. -/
def tree? (f : Forest) (id : NodeId) : Option NodeTree := f.treeFrom f.slots.size id

/-- Nothing changes at a node and below it on the way from `f` to `g`. -/
def Spares (f g : Forest) (id : NodeId) : Prop := ∀ k, f.Below id k → g.slot? k = f.slot? k

variable {f g h : Forest} {a c k p : NodeId} {slot : Slot} {ids : List NodeId}
  {trees : List NodeTree}

theorem Spares.refl (f : Forest) (id : NodeId) : f.Spares f id := fun _ _ => rfl

theorem Spares.slot? (spares : f.Spares g a) : g.slot? a = f.slot? a := spares a .refl

theorem Spares.below (spares : f.Spares g a) (below : f.Below a k) : g.Below a k := by
  induction below with
  | refl => exact .refl
  | tail above link ih =>
    refine ih.tail ?_
    rwa [children_congr (spares _ above)]

theorem Spares.below_iff (spares : f.Spares g a) : g.Below a k ↔ f.Below a k := by
  refine ⟨fun below => ?_, spares.below⟩
  induction below with
  | refl => exact .refl
  | tail _ link ih =>
    refine ih.tail ?_
    rwa [children_congr (spares _ ih)] at link

theorem Spares.trans (first : f.Spares g a) (second : g.Spares h a) : f.Spares h a := by
  intro k below
  rw [second k (first.below below), first k below]

theorem Spares.child (spares : f.Spares g a) (link : c ∈ f.children a) : f.Spares g c := by
  intro k below
  exact spares k (.head link below)

theorem Spares.isRoot (spares : f.Spares g a) (root : f.IsRoot a) : g.IsRoot a :=
  root.congr spares.slot?

theorem treeFrom_of_spares (fuel : Nat) (spares : f.Spares g a) :
    g.treeFrom fuel a = f.treeFrom fuel a := by
  induction fuel generalizing a with
  | zero => rfl
  | succ fuel ih =>
    rw [treeFrom, treeFrom, spares.slot?]
    cases found : f.slot? a with
    | none => rfl
    | some slot =>
      have below : slot.children.filterMap (g.treeFrom fuel) =
          slot.children.filterMap (f.treeFrom fuel) := by
        apply List.filterMap_congr
        intro c link
        exact ih (spares.child (by rwa [children_eq found]))
      rw [Option.map_some, Option.map_some, below]

/-- Different nodes from each of which a way leads down to a node. -/
structure Above (f : Forest) (above : List NodeId) (a : NodeId) : Prop where
  nodup : above.Nodup
  down : ∀ p ∈ above, ∃ c ∈ f.children p, f.Below c a

namespace Ordered

variable {above : List NodeId}

section

variable (ordered : f.Ordered)

include ordered

section

variable (higher : f.Above above a)

include higher

theorem not_mem_above : a ∉ above := by
  intro member
  obtain ⟨c, link, below⟩ := higher.down a member
  exact ordered.acyclic a c link below

theorem above_child (link : c ∈ f.children a) : f.Above (a :: above) c where
  nodup := List.nodup_cons.2 ⟨ordered.not_mem_above higher, higher.nodup⟩
  down p member := by
    rcases List.mem_cons.1 member with rfl | member
    · exact ⟨c, link, .refl⟩
    · obtain ⟨k, first, below⟩ := higher.down p member
      exact ⟨k, first, below.tail link⟩

/-- There are more names than nodes above one that is there. -/
theorem length_lt (found : f.slot? a = some slot) : above.length < f.slots.size := by
  have different : ((a :: above).map NodeId.index).Nodup :=
    (List.nodup_cons.2 ⟨ordered.not_mem_above higher, higher.nodup⟩).map
      fun _ _ same => NodeId.eq_iff.2 same
  have inside : (a :: above).map NodeId.index ⊆ List.range f.slots.size := by
    intro i member
    obtain ⟨p, here, rfl⟩ := List.mem_map.1 member
    rcases List.mem_cons.1 here with rfl | here
    · exact List.mem_range.2 (lt_size_of_slot? found)
    · obtain ⟨c, link, -⟩ := higher.down p here
      obtain ⟨slot, found, -⟩ := exists_slot_of_mem_children link
      exact List.mem_range.2 (lt_size_of_slot? found)
  have bound := (different.subperm inside).length_le
  rwa [List.length_map, List.length_cons, List.length_range] at bound

/-- No way down passes a node twice, so the names that it has not passed bound the levels that are
left. -/
theorem treeFrom_eq {n m : Nat} (hn : f.slots.size ≤ n + above.length)
    (hm : f.slots.size ≤ m + above.length) : f.treeFrom n a = f.treeFrom m a := by
  induction n generalizing a above m with
  | zero =>
    cases m with
    | zero => rfl
    | succ m =>
      cases found : f.slot? a with
      | none => rw [treeFrom, treeFrom, found, Option.map_none]
      | some slot =>
        have lt := ordered.length_lt higher found
        omega
  | succ n ih =>
    cases found : f.slot? a with
    | none => cases m <;> simp [treeFrom, found]
    | some slot =>
      have lt := ordered.length_lt higher found
      cases m with
      | zero => omega
      | succ m =>
        have below : slot.children.filterMap (f.treeFrom n) =
            slot.children.filterMap (f.treeFrom m) := by
          apply List.filterMap_congr
          intro c link
          rw [← children_eq found] at link
          refine ih (ordered.above_child higher link) ?_ ?_
          all_goals rw [List.length_cons]
          all_goals omega
        rw [treeFrom, treeFrom, found, Option.map_some, Option.map_some, below]

end

theorem treeFrom_eq_tree? (id : NodeId) {n : Nat} (hn : f.slots.size ≤ n) :
    f.treeFrom n id = f.tree? id :=
  ordered.treeFrom_eq ⟨List.nodup_nil, by simp⟩ (by simpa using hn) (by simp)

theorem tree?_eq (id : NodeId) :
    f.tree? id =
      (f.slot? id).map fun slot => .mk slot.node (slot.children.filterMap f.tree?) := by
  rw [← ordered.treeFrom_eq_tree? id (Nat.le_succ f.slots.size)]
  rfl

theorem tree?_of_slot? (found : f.slot? a = some slot) :
    f.tree? a = some (.mk slot.node (slot.children.filterMap f.tree?)) := by
  rw [ordered.tree?_eq, found, Option.map_some]

end

theorem tree?_of_spares (hf : f.Ordered) (hg : g.Ordered) (spares : f.Spares g a) :
    g.tree? a = f.tree? a :=
  calc g.tree? a
    _ = g.treeFrom (f.slots.size + g.slots.size) a := (hg.treeFrom_eq_tree? a (by omega)).symm
    _ = f.treeFrom (f.slots.size + g.slots.size) a := treeFrom_of_spares _ spares
    _ = f.tree? a := hf.treeFrom_eq_tree? a (by omega)

end Ordered

theorem Grown.tree?_of_slot? (grown : f.Grown) (found : f.slot? a = some slot) :
    f.tree? a = some (.mk slot.node (slot.children.filterMap f.tree?)) :=
  grown.ordered.tree?_of_slot? found

theorem Grown.tree?_of_spares (hf : f.Grown) (hg : g.Grown) (spares : f.Spares g a) :
    g.tree? a = f.tree? a :=
  hf.ordered.tree?_of_spares hg.ordered spares

/-- The nodes are there, and these are the trees at them. -/
def Shows (f : Forest) (ids : List NodeId) (trees : List NodeTree) : Prop :=
  ids.map f.tree? = trees.map some

theorem Shows.length_eq (shown : f.Shows ids trees) : ids.length = trees.length := by
  simpa using congrArg List.length shown

theorem Shows.eq_nil (shown : f.Shows [] trees) : trees = [] := List.map_eq_nil_iff.1 shown.symm

theorem Shows.cons_inv (shown : f.Shows (a :: ids) trees) :
    ∃ tree rest, trees = tree :: rest ∧ f.tree? a = some tree ∧ f.Shows ids rest := by
  cases trees with
  | nil => cases shown
  | cons tree rest => exact ⟨tree, rest, rfl, List.cons.inj shown⟩

variable {tree : NodeTree}

theorem shows_singleton : f.Shows [a] [tree] ↔ f.tree? a = some tree := by
  simp [Shows]

theorem Shows.append {ids' : List NodeId} {trees' : List NodeTree} (first : f.Shows ids trees)
    (second : f.Shows ids' trees') : f.Shows (ids ++ ids') (trees ++ trees') := by
  rw [Shows, List.map_append, List.map_append, first, second]

theorem Shows.take (shown : f.Shows ids trees) (n : Nat) :
    f.Shows (ids.take n) (trees.take n) := by
  rw [Shows, List.map_take, List.map_take, shown]

theorem Shows.drop (shown : f.Shows ids trees) (n : Nat) :
    f.Shows (ids.drop n) (trees.drop n) := by
  rw [Shows, List.map_drop, List.map_drop, shown]

theorem Shows.filterMap (shown : f.Shows ids trees) : ids.filterMap f.tree? = trees := by
  have flat : (ids.map f.tree?).filterMap id = trees := by
    rw [shown, List.filterMap_map]
    simp
  rwa [List.filterMap_map] at flat

theorem Shows.of_spares (hf : f.Grown) (hg : g.Grown) (shown : f.Shows ids trees)
    (spares : ∀ id ∈ ids, f.Spares g id) : g.Shows ids trees := by
  have same : ids.map g.tree? = ids.map f.tree? := by
    apply List.map_congr_left
    intro id member
    exact hf.tree?_of_spares hg (spares id member)
  rw [Shows, same, shown]

/-- Nodes that are there have trees. -/
theorem Ordered.exists_shows (ordered : f.Ordered)
    (there : ∀ id ∈ ids, ∃ slot, f.slot? id = some slot) : ∃ trees, f.Shows ids trees := by
  induction ids with
  | nil => exact ⟨[], rfl⟩
  | cons id ids ih =>
    obtain ⟨slot, found⟩ := there id (.head _)
    obtain ⟨trees, shown⟩ := ih fun id member => there id (.tail _ member)
    refine ⟨.mk slot.node (slot.children.filterMap f.tree?) :: trees, ?_⟩
    rw [Shows, List.map_cons, ordered.tree?_of_slot? found, shown]
    rfl

theorem Shows.exists_tree (shown : f.Shows ids trees) {id : NodeId} (member : id ∈ ids) :
    ∃ tree ∈ trees, f.tree? id = some tree := by
  have there : f.tree? id ∈ trees.map some := by
    rw [← shown]
    exact List.mem_map_of_mem member
  obtain ⟨tree, inside, same⟩ := List.mem_map.1 there
  exact ⟨tree, inside, same.symm⟩

theorem Ordered.exists_slot_of_tree? (ordered : f.Ordered)
    (there : f.tree? a = some tree) : ∃ slot, f.slot? a = some slot := by
  rw [ordered.tree?_eq] at there
  obtain ⟨slot, found, -⟩ := Option.map_eq_some_iff.1 there
  exact ⟨slot, found⟩

/-- The trees at the children of a node are the branches of its tree. -/
theorem Ordered.shows_children (ordered : f.Ordered)
    (there : f.tree? a = some tree) : f.Shows (f.children a) tree.branches := by
  obtain ⟨slot, found⟩ := ordered.exists_slot_of_tree? there
  have each : ∀ c ∈ f.children a, ∃ slot, f.slot? c = some slot := by
    intro c link
    obtain ⟨slot, found, -⟩ := ordered.exists_slot link
    exact ⟨slot, found⟩
  obtain ⟨trees, shown⟩ := ordered.exists_shows each
  rw [ordered.tree?_of_slot? found, ← children_eq found, shown.filterMap] at there
  cases there
  exact shown

theorem Grown.shows_children (grown : f.Grown) (there : f.tree? a = some tree) :
    f.Shows (f.children a) tree.branches := grown.ordered.shows_children there

theorem Shows.exists_slot (grown : f.Grown) (shown : f.Shows ids trees) {id : NodeId}
    (member : id ∈ ids) : ∃ slot, f.slot? id = some slot := by
  obtain ⟨tree, -, there⟩ := shown.exists_tree member
  exact grown.ordered.exists_slot_of_tree? there

end Forest

end TemplateMarkup
