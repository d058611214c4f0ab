import TemplateMarkup.Proofs.ForestOperations
import TemplateMarkup.Proofs.ForestWalks

/-! What is done to a whole subtree: copying it makes new nodes and touches none that was there,
and removing it takes exactly the nodes that a walk meets. -/
namespace TemplateMarkup.Forest

variable {f : Forest} {id : NodeId}

section Copying

/-- A node that is not there is not copied. A copy of one that is there stands on its own: the nodes
below it are those that have new names, it shows the same tree as the original, node by node, and
the nodes that were there keep their content, children and parent. -/
theorem Linked.copy_faithful (linked : f.Linked) (id : NodeId) :
    (f.contains id = false → f.copy id = (none, f)) ∧
    (f.contains id → ∃ top g tree, f.copy id = (some top, g) ∧ g.IsRoot top ∧
      (∀ k, g.Below top k ↔ g.contains k ∧ f.slots.size ≤ k.index) ∧
      f.tree? id = some tree ∧ g.tree? top = some tree ∧
      (g.walk top).filterMap g.get? = (f.walk id).filterMap f.get? ∧
      ∀ k, k.index < f.slots.size → g.slot? k = f.slot? k) := by
  have ordered := linked.ordered
  constructor
  · intro gone
    apply linked_copyable.copy_of_missing linked
    rw [ordered.tree?_eq, Option.map_eq_none_iff]
    simpa [contains] using gone
  · intro live
    obtain ⟨slot, found⟩ := contains_iff.1 live
    have shown := ordered.tree?_of_slot? found
    obtain ⟨g, run, fresh, linked', shown'⟩ := linked_copyable.copy linked shown
    have ordered' := linked'.ordered
    refine ⟨_, g, _, run, fresh.root, fun k => ⟨fun below => ⟨?_, ?_⟩, fun new => ?_⟩, shown,
      shown', ?_, fresh.extend.slots⟩
    · obtain ⟨_, found', -⟩ := fresh.root
      exact contains_iff.2 (ordered'.exists_slot_of_below found' below)
    · exact fresh.extend.size_le_of_below linked ordered' (Nat.le_refl _) below
    · exact fresh.below k new.2 new.1
    · rw [ordered'.walk_nodes linked'.nodup shown', ordered.walk_nodes linked.nodup shown]

/-- A box with a box in a box, where another box was removed, beside one more. -/
def nestedBoxes : Forest :=
  let box : Node := { kind := .element, name := "box" }
  runAll [.insertChild root box, .insertChild ⟨1⟩ box, .insertChild ⟨1⟩ box, .remove ⟨2⟩,
    .insertChild ⟨3⟩ box, .insertChild root box] empty

theorem linked_nestedBoxes : nestedBoxes.Linked :=
  linked_empty.runAll (by decide +kernel) (by decide +kernel)

theorem copy_faithful_nestedBoxes :
    nestedBoxes.Linked ∧ nestedBoxes.copy ⟨2⟩ = (none, nestedBoxes) ∧
      ∃ top g, nestedBoxes.copy ⟨1⟩ = (some top, g) ∧ g.IsRoot top ∧
        g.walk top = [⟨6⟩, ⟨7⟩, ⟨8⟩] ∧ g.slot? ⟨3⟩ = nestedBoxes.slot? ⟨3⟩ := by
  obtain ⟨top, g, tree, run, isRoot, -, -, -, -, kept⟩ :=
    (linked_nestedBoxes.copy_faithful ⟨1⟩).2 (by decide +kernel)
  have walk : ((nestedBoxes.copy ⟨1⟩).2.walk ⟨6⟩, (nestedBoxes.copy ⟨1⟩).1) =
      ([⟨6⟩, ⟨7⟩, ⟨8⟩], some ⟨6⟩) := by decide +kernel
  rw [run] at walk
  obtain ⟨met, rfl⟩ : g.walk ⟨6⟩ = [⟨6⟩, ⟨7⟩, ⟨8⟩] ∧ top = ⟨6⟩ := by simpa using walk
  exact ⟨linked_nestedBoxes, (linked_nestedBoxes.copy_faithful ⟨2⟩).1 (by decide +kernel), _, g,
    run, isRoot, met, kept ⟨3⟩ (by decide +kernel)⟩

end Copying

section Removing

/-- A walk lists the nodes of a subtree, each of them once and before those below it. Removing the
subtree gives its node back and takes exactly these nodes; the parent loses the node from its
children, which keep their order, and all else stays as it is. -/
theorem Linked.walk_remove (linked : f.Linked) (live : f.contains id) :
    f.Enumerates [id] (f.walk id) ∧ (f.walk id).Nodup ∧
    (id ≠ root →
      (f.remove id).1 = f.get? id ∧
      (∀ k ∈ f.walk id, (f.remove id).2.slot? k = none) ∧
      ∀ k, k ∉ f.walk id → (f.remove id).2.slot? k = if f.parent? id = some k
        then (f.slot? k).map fun slot => { slot with children := slot.children.erase id }
        else f.slot? k) := by
  obtain ⟨order, different⟩ := linked.ordered.walk_enumerates linked.nodup live
  have met (k : NodeId) : k ∈ f.walk id ↔ f.Below id k := by simpa using order.mem_iff
  refine ⟨order, different, fun other => ?_⟩
  have erases := linked.erases_remove other live
  refine ⟨?_, fun k member => ?_, fun k outside => ?_⟩
  · obtain ⟨slot, found⟩ := contains_iff.1 live
    have there : f.get? id = some slot.node := by rw [get?, found, Option.map_some]
    simp [Forest.remove, other, there]
  · exact erases.gone k ⟨id, .head _, linked.ordered.below_detach.2 ((met k).1 member)⟩
  · have apart : k ≠ id := by
      rintro rfl
      exact outside ((met k).2 .refl)
    rw [erases.kept k, slot?_detach apart]
    · refine if_congr Iff.rfl ?_ rfl
      cases found : f.slot? k with
      | none => rfl
      | some slot =>
        have different := children_eq found ▸ linked.nodup k
        simp [different.erase_eq_filter, bne, beq_eq_decide]
    · intro q member below
      rw [List.mem_singleton.1 member, linked.ordered.below_detach] at below
      exact outside ((met k).2 below)

theorem walk_remove_nestedBoxes :
    nestedBoxes.Linked ∧ nestedBoxes.walk ⟨1⟩ = [⟨1⟩, ⟨3⟩, ⟨4⟩] ∧
      nestedBoxes.Enumerates [⟨1⟩] (nestedBoxes.walk ⟨1⟩) ∧
      (nestedBoxes.remove ⟨1⟩).2.slot? ⟨4⟩ = none ∧
      (nestedBoxes.remove ⟨1⟩).2.children root = [⟨5⟩] := by
  have met : nestedBoxes.walk ⟨1⟩ = [⟨1⟩, ⟨3⟩, ⟨4⟩] := by decide +kernel
  obtain ⟨order, -, removed⟩ := @Linked.walk_remove _ ⟨1⟩ linked_nestedBoxes (by decide +kernel)
  obtain ⟨-, gone, -⟩ := removed (by decide)
  exact ⟨linked_nestedBoxes, met, order, gone ⟨4⟩ (by simp [met]), by decide +kernel⟩

end Removing

end TemplateMarkup.Forest
