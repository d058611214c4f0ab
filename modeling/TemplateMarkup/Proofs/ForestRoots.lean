import TemplateMarkup.Proofs.ForestErasures
import TemplateMarkup.Proofs.ForestTrees

/-! Changes to a forest outside the tree: subtrees that stand on their own are added and removed,
and all others stay as they are. -/
namespace TemplateMarkup.Forest

variable {f g h : Forest} {a c k p r : NodeId} {slot : Slot}
  {own own' own'' others : List NodeId}

/-- Different nodes that stand below no other. -/
structure Roots (f : Forest) (ids : List NodeId) : Prop where
  nodup : ids.Nodup
  isRoot : ∀ id ∈ ids, f.IsRoot id

theorem Roots.perm (roots : f.Roots own) (perm : own.Perm own') : f.Roots own' :=
  ⟨perm.nodup_iff.1 roots.nodup, fun id member => roots.isRoot id (perm.mem_iff.2 member)⟩

theorem Roots.sublist (roots : f.Roots own) (sublist : own'.Sublist own) : f.Roots own' :=
  ⟨roots.nodup.sublist sublist, fun id member => roots.isRoot id (sublist.subset member)⟩

theorem Roots.left (roots : f.Roots (own ++ others)) : f.Roots own :=
  roots.sublist (List.sublist_append_left _ _)

theorem Roots.right (roots : f.Roots (own ++ others)) : f.Roots others :=
  roots.sublist (List.sublist_append_right _ _)

theorem roots_singleton : f.Roots [a] ↔ f.IsRoot a :=
  ⟨fun roots => roots.isRoot a (.head _), fun root => ⟨by simp, by simpa using root⟩⟩

theorem Roots.concat (roots : f.Roots own) (root : f.IsRoot r) (other : r ∉ own) :
    f.Roots (own ++ [r]) := by
  refine ⟨?_, ?_⟩
  · rw [List.nodup_append]
    refine ⟨roots.nodup, by simp, ?_⟩
    intro a member b same
    rw [List.mem_singleton] at same
    rintro rfl
    exact other (same ▸ member)
  · intro id member
    rcases List.mem_append.1 member with member | member
    · exact roots.isRoot id member
    · rw [List.mem_singleton.1 member]
      exact root

/-- Some subtrees turn into others, and nothing else changes. -/
structure Turns (f : Forest) (own : List NodeId) (g : Forest) (own' : List NodeId) : Prop where
  grown : g.Grown
  size_le : f.slots.size ≤ g.slots.size
  fresh : ∀ id ∈ own', id ∈ own ∨ f.slots.size ≤ id.index
  roots : ∀ others, f.Roots (own ++ others) → g.Roots (own' ++ others)
  spares : ∀ r, f.IsRoot r → r ∉ own → f.Spares g r

namespace Turns

theorem refl (grown : f.Grown) (own : List NodeId) : f.Turns own f own :=
  ⟨grown, Nat.le_refl _, fun _ member => .inl member, fun _ roots => roots,
    fun r _ _ => .refl f r⟩

theorem roots_self (turns : f.Turns own g own') (roots : f.Roots own) : g.Roots own' := by
  simpa using turns.roots [] (by simpa using roots)

/-- A root that is not among those that turn is not among those they turn into. -/
theorem not_mem (turns : f.Turns own g own') (roots : f.Roots own) (root : f.IsRoot r)
    (other : r ∉ own) : r ∉ own' := by
  have both := (turns.roots [r] (roots.concat root other)).nodup
  rw [List.nodup_append] at both
  exact fun member => both.2.2 r member r (.head _) rfl

theorem trans (first : f.Turns own g own') (second : g.Turns own' h own'')
    (roots : f.Roots own) : f.Turns own h own'' where
  grown := second.grown
  size_le := Nat.le_trans first.size_le second.size_le
  fresh := by
    intro id member
    rcases second.fresh id member with old | new
    · exact first.fresh id old
    · exact .inr (Nat.le_trans first.size_le new)
  roots := fun others roots => second.roots others (first.roots others roots)
  spares := by
    intro r root other
    have spared := first.spares r root other
    exact spared.trans
      (second.spares r (spared.isRoot root) (first.not_mem roots root other))

theorem frame (turns : f.Turns own g own') (others : List NodeId) :
    f.Turns (own ++ others) g (own' ++ others) where
  grown := turns.grown
  size_le := turns.size_le
  fresh := by
    intro id member
    rcases List.mem_append.1 member with member | member
    · rcases turns.fresh id member with old | new
      · exact .inl (List.mem_append_left _ old)
      · exact .inr new
    · exact .inl (List.mem_append_right _ member)
  roots := by
    intro more roots
    rw [List.append_assoc] at roots ⊢
    exact turns.roots _ roots
  spares := fun r root other => turns.spares r root fun member =>
    other (List.mem_append_left _ member)

theorem perm {before after : List NodeId} (turns : f.Turns own g own') (left : own.Perm before)
    (right : own'.Perm after) : f.Turns before g after where
  grown := turns.grown
  size_le := turns.size_le
  fresh := by
    intro id member
    rcases turns.fresh id (right.mem_iff.2 member) with old | new
    · exact .inl (left.mem_iff.1 old)
    · exact .inr new
  roots := fun others roots =>
    (turns.roots others (roots.perm (left.symm.append_right _))).perm (right.append_right _)
  spares := fun r root other => turns.spares r root fun member => other (left.mem_iff.1 member)

end Turns

section Erasing

variable {id : NodeId}

theorem Erases.grown (erases : f.Erases [id] g) (grown : f.Grown) (free : f.parent? id = none) :
    g.Grown where
  back p c link := by
    obtain ⟨here, there⟩ := erases.slots_of_link grown.ordered free link
    rw [children_congr here] at link
    rw [parent?_congr there, grown.back p c link]
  lt p c link := by
    rw [children_congr (erases.slots_of_link grown.ordered free link).1] at link
    exact grown.lt p c link
  nodup := erases.nodup grown.nodup

/-- Roots beside those that are erased are spared. -/
theorem Erases.spares (erases : f.Erases own g) (ordered : f.Ordered)
    (roots : f.Roots (own ++ others)) : ∀ id ∈ others, f.Spares g id := by
  intro id member k below
  refine erases.kept k fun q removed below' => ?_
  have same := ordered.eq_of_below (roots.left.isRoot q removed).parent?
    (roots.right.isRoot id member).parent? below' below
  exact (List.nodup_append.1 roots.nodup).2.2 q removed id member same

theorem Erases.turns (erases : f.Erases [id] g) (grown : f.Grown) (root : f.IsRoot id)
    (size : g.slots.size = f.slots.size) : f.Turns [id] g [] where
  grown := erases.grown grown root.parent?
  size_le := Nat.le_of_eq size.symm
  fresh := by simp
  roots others roots := ⟨roots.right.nodup, fun r member =>
    (erases.spares grown.ordered roots r member).isRoot (roots.right.isRoot r member)⟩
  spares r isRoot other := erases.spares grown.ordered
    ((roots_singleton.2 root).concat isRoot other) r (.head _)

theorem detach_of_isRoot (root : f.IsRoot a) : f.detach a = f := by
  rw [detach, root.parent?]

/-- Removing a subtree that stands on its own touches nothing else. -/
theorem Grown.turns_remove (grown : f.Grown) (root : f.IsRoot id) :
    f.Turns [id] (f.remove id).2 [] := by
  by_cases top : id = Forest.root
  · rw [remove, if_pos top]
    exact ⟨grown, Nat.le_refl _, by simp, fun _ roots => roots.right, fun r _ _ => .refl f r⟩
  · have erases := erases_remove grown.detach.ordered grown.detach.nodup top (isRoot_iff.1 root).1
    rw [detach_of_isRoot root] at erases
    exact erases.turns grown root size_remove

theorem Grown.turns_removeAll (grown : f.Grown) (roots : f.Roots own) :
    f.Turns own (removeAll own f) [] := by
  induction own generalizing f with
  | nil => exact .refl grown []
  | cons id own ih =>
    have first := (grown.turns_remove (roots.isRoot id (.head _))).frame own
    have rest := ih first.grown (first.roots_self roots)
    exact first.trans rest roots

end Erasing

section Adding

/-- New nodes stand behind all others, which stay as they are. -/
structure Extends (f g : Forest) : Prop where
  size_le : f.slots.size ≤ g.slots.size
  slots : ∀ k, k.index < f.slots.size → g.slot? k = f.slot? k

theorem Extends.refl (f : Forest) : f.Extends f := ⟨Nat.le_refl _, fun _ _ => rfl⟩

theorem Extends.trans (first : f.Extends g) (second : g.Extends h) : f.Extends h where
  size_le := Nat.le_trans first.size_le second.size_le
  slots k old := by
    rw [second.slots k (Nat.lt_of_lt_of_le old first.size_le), first.slots k old]

theorem Extends.spares_of_ordered (extend : f.Extends g) (ordered : f.Ordered)
    (found : f.slot? a = some slot) : f.Spares g a := by
  intro k below
  obtain ⟨slot, found⟩ := ordered.exists_slot_of_below found below
  exact extend.slots k (lt_size_of_slot? found)

theorem Extends.spares (extend : f.Extends g) (grown : f.Grown) (found : f.slot? a = some slot) :
    f.Spares g a := extend.spares_of_ordered grown.ordered found

/-- Ways down stay when nodes are added. -/
theorem Extends.below (extend : f.Extends g) (below : f.Below a k) : g.Below a k := by
  refine Relation.ReflTransGen.mono (fun p c link => ?_) _ _ below
  obtain ⟨slot, found, -⟩ := exists_slot_of_mem_children link
  rwa [children_congr (extend.slots p (lt_size_of_slot? found))]

theorem Extends.turns (extend : f.Extends g) (hf : f.Grown) (hg : g.Grown) (root : g.IsRoot a)
    (new : f.slots.size ≤ a.index) : f.Turns [] g [a] := by
  have spares (r : NodeId) (isRoot : f.IsRoot r) : f.Spares g r := by
    obtain ⟨slot, found, -⟩ := isRoot
    exact extend.spares hf found
  refine ⟨hg, extend.size_le, ?_, ?_, fun r isRoot _ => spares r isRoot⟩
  · intro id member
    rw [List.mem_singleton.1 member]
    exact .inr new
  · intro others roots
    have old : ∀ r ∈ others, f.IsRoot r := roots.isRoot
    refine ⟨List.nodup_cons.2 ⟨fun member => ?_, roots.nodup⟩, ?_⟩
    · have := (old a member).lt_size
      omega
    · intro r member
      rcases List.mem_cons.1 member with rfl | member
      · exact root
      · exact (spares r (old r member)).isRoot (old r member)

theorem extends_insertDetached (f : Forest) (node : Node) :
    f.Extends (f.insertDetached node).2 := by
  refine ⟨by simp, fun k old => ?_⟩
  rw [slot?_insertDetached, if_neg]
  rintro rfl
  exact Nat.lt_irrefl _ old

theorem slot?_insertDetached_self (f : Forest) (node : Node) :
    (f.insertDetached node).2.slot? ⟨f.slots.size⟩ = some { node } := by
  rw [slot?_insertDetached, if_pos rfl]

theorem Grown.insertDetached (grown : f.Grown) (node : Node) : (f.insertDetached node).2.Grown := by
  have old {p c : NodeId} (link : c ∈ (f.insertDetached node).2.children p) : c ∈ f.children p := by
    obtain ⟨slot, found, link⟩ := exists_slot_of_mem_children link
    rw [slot?_insertDetached] at found
    split at found
    · cases found
      cases link
    · rwa [children_eq found]
  refine ⟨fun p c link => ?_, fun p c link => grown.lt p c (old link), fun p => ?_⟩
  · rw [parent?_congr ((extends_insertDetached f node).slots c (grown.child_lt_size (old link)))]
    exact grown.back p c (old link)
  · by_cases new : p = ⟨f.slots.size⟩
    · rw [new, children_eq (slot?_insertDetached_self f node)]
      exact List.nodup_nil
    · have same : (f.insertDetached node).2.slot? p = f.slot? p := by
        rw [slot?_insertDetached, if_neg new]
      rw [children_congr same]
      exact grown.nodup p

end Adding

end TemplateMarkup.Forest
