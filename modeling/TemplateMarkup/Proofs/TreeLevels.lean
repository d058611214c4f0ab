import TemplateMarkup.Proofs.ForestTrees

/-! How many levels a tree has, together with what holds of all its nodes. -/
namespace TemplateMarkup

/-- A tree of no more than so many levels, with a property of every node in it. -/
inductive NodeTree.Fits (P : Node → Prop) : Nat → NodeTree → Prop
  | mk {levels : Nat} {node : Node} {branches : List NodeTree} (here : P node)
      (below : ∀ tree ∈ branches, Fits P levels tree) : Fits P (levels + 1) (.mk node branches)

variable {P Q : Node → Prop} {m n : Nat}

namespace NodeTree.Fits

variable {tree : NodeTree}

theorem mono (fits : tree.Fits P n) (le : n ≤ m) : tree.Fits P m := by
  induction fits generalizing m with
  | mk here below ih =>
    obtain ⟨m, rfl⟩ : ∃ k, m = k + 1 := ⟨m - 1, by omega⟩
    exact .mk here fun tree member => ih tree member (by omega)

/-- The number of levels and what holds of the nodes may be told apart. -/
theorem within (fits : tree.Fits P n) (levels : tree.Fits Q m) : tree.Fits P m := by
  induction levels generalizing n with
  | mk _ _ ih =>
    cases fits with
    | mk here below => exact .mk here fun tree member => ih tree member (below tree member)

end NodeTree.Fits

namespace Forest

variable {f g : Forest} {id : NodeId} {slot : Slot}

/-- The tree at a node fits. -/
def Fits (f : Forest) (P : Node → Prop) (levels : Nat) (id : NodeId) : Prop :=
  ∃ tree, f.tree? id = some tree ∧ tree.Fits P levels

theorem Fits.pos (fits : f.Fits P n id) : 0 < n := by
  obtain ⟨tree, -, fits⟩ := fits
  cases fits
  exact Nat.succ_pos _

theorem Grown.fits_iff (grown : f.Grown) :
    f.Fits P (n + 1) id ↔ ∃ slot, f.slot? id = some slot ∧ P slot.node ∧
      ∀ c ∈ f.children id, f.Fits P n c := by
  constructor
  · rintro ⟨tree, there, fits⟩
    obtain ⟨slot, found⟩ := grown.ordered.exists_slot_of_tree? there
    rw [grown.tree?_of_slot? found] at there
    cases there
    cases fits with
    | mk here below =>
      refine ⟨slot, found, here, fun c link => ?_⟩
      obtain ⟨slot', found', -⟩ := grown.exists_slot link
      have tree := grown.tree?_of_slot? found'
      rw [children_eq found] at link
      exact ⟨_, tree, below _ (List.mem_filterMap.2 ⟨c, link, tree⟩)⟩
  · rintro ⟨slot, found, here, below⟩
    refine ⟨_, grown.tree?_of_slot? found, .mk here fun tree member => ?_⟩
    obtain ⟨c, link, there⟩ := List.mem_filterMap.1 member
    obtain ⟨tree', there', fits⟩ := below c (by rwa [children_eq found])
    cases there.symm.trans there'
    exact fits

theorem Grown.fits_of_le (grown : f.Grown)
    (all : ∀ k slot, f.slot? k = some slot → P slot.node) (found : f.slot? id = some slot)
    (few : f.slots.size - id.index ≤ n) : f.Fits P n id := by
  induction n generalizing id slot with
  | zero =>
    have := lt_size_of_slot? found
    omega
  | succ n ih =>
    refine grown.fits_iff.2 ⟨slot, found, all id slot found, fun c link => ?_⟩
    obtain ⟨slot', found', -⟩ := grown.exists_slot link
    have := grown.lt id c link
    exact ih found' (by omega)

/-- No tree of a forest has more levels than the forest has names. -/
theorem Grown.fits (grown : f.Grown) (all : ∀ k slot, f.slot? k = some slot → P slot.node)
    {tree : NodeTree} (there : f.tree? id = some tree) : tree.Fits P f.slots.size := by
  obtain ⟨slot, found⟩ := grown.ordered.exists_slot_of_tree? there
  obtain ⟨tree', there', fits⟩ := grown.fits_of_le all found (Nat.sub_le _ _)
  cases there.symm.trans there'
  exact fits

end Forest

end TemplateMarkup
