import TemplateMarkup.Proofs.ForestCopies
import TemplateMarkup.Proofs.LinkedForests

/-! Every operation on a forest keeps its links in agreement, as long as nodes are only put below a
node that is there, and neither the root nor what is above that node is put there. -/
namespace TemplateMarkup.Forest

variable {f : Forest} {c k p old : NodeId}

section Splicing

theorem Linked.insertAllAt (linked : f.Linked) (live : f.contains p) {children : List NodeId}
    (attachable : ∀ c ∈ children, f.Attachable p c) (index : Nat) :
    (insertAllAt p index children f).Linked := by
  induction children generalizing f index with
  | nil => exact linked
  | cons c children ih =>
    have first := attachable c (.head _)
    apply ih (linked.insertAt live first index)
    · simpa using live
    · intro a member
      exact first.insertAt linked live (attachable a (.tail _ member))

/-- A node that is neither removed nor below what is removed stays. -/
theorem Linked.contains_remove (linked : f.Linked) (other : old ≠ root) (live : f.contains old)
    (ne : k ≠ old) (outside : old ∉ f.ancestors k) :
    (f.remove old).2.contains k = f.contains k := by
  have kept : (f.remove old).2.slot? k = (f.detach old).slot? k := by
    apply (linked.erases_remove other live).kept
    intro q member below
    rw [List.mem_singleton.1 member, linked.ordered.below_detach] at below
    rcases (linked.below_iff (linked.climb_ancestors k)).1 below with same | above
    · exact ne same.symm
    · exact outside above
  rw [contains, kept, ← contains_detach (c := old), contains]

/-- Removing a node puts nothing above another. -/
theorem Linked.ancestors_remove_subset (linked : f.Linked) (other : old ≠ root)
    (live : f.contains old) : (f.remove old).2.ancestors k ⊆ f.ancestors k := by
  have erases := linked.erases_remove other live
  obtain ⟨rest, climb, subset⟩ := (linked.climb_ancestors k).exists_of_fewer
    fun _ _ link => parent?_of_detach (erases.parent?_of_parent? link)
  rw [(linked.remove old).ancestors_eq climb]
  exact subset

theorem Linked.splice (linked : f.Linked) {replacements : List NodeId}
    (fits : ∀ p, f.parent? old = some p → ∀ c ∈ replacements,
      f.Attachable p c ∧ c ≠ old ∧ old ∉ f.ancestors c) :
    (f.splice old replacements).Linked := by
  unfold Forest.splice
  cases link : f.parent? old with
  | none => exact linked
  | some p =>
    dsimp only
    split
    · exact linked
    · have live := contains_of_parent? link
      have other : old ≠ root := by
        rintro rfl
        rw [linked.top.parent?] at link
        cases link
      have above : old ∉ p :: f.ancestors p := (Climb.up link (linked.climb_ancestors p)).not_mem
      rw [List.mem_cons, not_or] at above
      apply (linked.remove old).insertAllAt
      · rw [linked.contains_remove other live (Ne.symm above.1) above.2]
        exact contains_of_mem_children ((linked.link p old).2 link)
      · intro c member
        obtain ⟨attachable, ne, outside⟩ := fits p link c member
        refine ⟨?_, attachable.notRoot, attachable.other, fun above => ?_⟩
        · rw [linked.contains_remove other live ne outside]
          exact attachable.live
        · exact attachable.notAbove (linked.ancestors_remove_subset other live above)

end Splicing

section Copying

/-- Below a new node there is nothing that was there before. -/
theorem Extends.size_le_of_below {g : Forest} (extend : f.Extends g) (linked : f.Linked)
    (ordered : g.Ordered) (new : f.slots.size ≤ c.index) (below : g.Below c k) :
    f.slots.size ≤ k.index := by
  induction below with
  | refl => exact new
  | @tail p k _ link ih =>
    refine Nat.le_of_not_lt fun early => ?_
    have parent := ordered.back p k link
    rw [parent?_congr (extend.slots k early), ← linked.link] at parent
    obtain ⟨slot, found, -⟩ := exists_slot_of_mem_children parent
    exact absurd (lt_size_of_slot? found) (Nat.not_lt.2 ih)

theorem linked_copyable : Copyable Linked where
  ordered := Linked.ordered
  make node linked := linked.insertDetached node
  attach index linked top root lt := by
    refine linked.insertAt (isRoot_iff.1 top).1 ⟨(isRoot_iff.1 root).1, ?_, ?_, ?_⟩ index
    · rintro rfl
      exact Nat.not_lt_zero _ lt
    · rintro rfl
      exact Nat.lt_irrefl _ lt
    · rw [linked.ancestors_eq (.top top.parent?)]
      simp

theorem Linked.copy (linked : f.Linked) (id : NodeId) : (f.copy id).2.Linked := by
  cases there : f.tree? id with
  | none =>
    rw [linked_copyable.copy_of_missing linked there]
    exact linked
  | some tree =>
    obtain ⟨g, run, -, linked', -⟩ := linked_copyable.copy linked there
    rw [run]
    exact linked'

end Copying

section Operations

/-- A change of a forest. -/
inductive Operation
  | insertDetached (node : Node)
  | insertChild (parent : NodeId) (node : Node)
  | append (parent child : NodeId)
  | insertAt (parent : NodeId) (index : Nat) (child : NodeId)
  | splice (old : NodeId) (replacements : List NodeId)
  | detach (id : NodeId)
  | remove (id : NodeId)
  | copy (id : NodeId)
  | modify (id : NodeId) (change : Node → Node)

namespace Operation

def run : Operation → Forest → Forest
  | .insertDetached node, f => (f.insertDetached node).2
  | .insertChild parent node, f => (f.insertChild parent node).2
  | .append parent child, f => f.append parent child
  | .insertAt parent index child, f => f.insertAt parent index child
  | .splice old replacements, f => f.splice old replacements
  | .detach id, f => f.detach id
  | .remove id, f => (f.remove id).2
  | .copy id, f => (f.copy id).2
  | .modify id change, f => f.modify id change

/-- What is put below a node may be put there. -/
def Proper (f : Forest) : Operation → Prop
  | .append parent child => f.Attachable parent child
  | .insertAt parent _ child => f.Attachable parent child
  | .splice old replacements => ∀ parent ∈ f.parent? old, ∀ c ∈ replacements,
      f.Attachable parent c ∧ c ≠ old ∧ old ∉ f.ancestors c
  | _ => True

/-- The node below which others are put is there. -/
def Aimed (f : Forest) : Operation → Prop
  | .insertChild parent _ => f.contains parent
  | .append parent _ => f.contains parent
  | .insertAt parent _ _ => f.contains parent
  | _ => True

end Operation

instance : Decidable (f.Attachable p c) :=
  decidable_of_iff (f.contains c ∧ c ≠ root ∧ c ≠ p ∧ c ∉ f.ancestors p)
    ⟨fun ⟨live, notRoot, other, notAbove⟩ => ⟨live, notRoot, other, notAbove⟩,
      fun h => ⟨h.live, h.notRoot, h.other, h.notAbove⟩⟩

instance (f : Forest) : DecidablePred (Operation.Proper f)
  | .append parent child => inferInstanceAs (Decidable (f.Attachable parent child))
  | .insertAt parent _ child => inferInstanceAs (Decidable (f.Attachable parent child))
  | .splice old replacements => inferInstanceAs (Decidable (∀ parent ∈ f.parent? old,
      ∀ c ∈ replacements, f.Attachable parent c ∧ c ≠ old ∧ old ∉ f.ancestors c))
  | .insertDetached _ | .insertChild .. | .detach _ | .remove _ | .copy _ | .modify .. =>
    .isTrue trivial

instance (f : Forest) : DecidablePred (Operation.Aimed f)
  | .insertChild parent _ | .append parent _ | .insertAt parent _ _ =>
    inferInstanceAs (Decidable (f.contains parent = true))
  | .insertDetached _ | .splice .. | .detach _ | .remove _ | .copy _ | .modify .. =>
    .isTrue trivial

theorem Linked.insertChild (linked : f.Linked) (live : f.contains p) (node : Node) :
    (f.insertChild p node).2.Linked := by
  have added := linked.insertDetached node
  have new : (f.insertDetached node).2.IsRoot ⟨f.slots.size⟩ :=
    ⟨_, slot?_insertDetached_self f node, rfl⟩
  obtain ⟨slot, found⟩ := contains_iff.1 live
  have old := lt_size_of_slot? found
  have other : (⟨f.slots.size⟩ : NodeId) ≠ p := by
    rintro rfl
    exact Nat.lt_irrefl _ old
  have live' : (f.insertDetached node).2.contains p := by
    rwa [contains, (extends_insertDetached f node).slots p old]
  refine added.insertAt live' ⟨(isRoot_iff.1 new).1, ?_, other, fun above => ?_⟩ _
  · have size := linked.top.lt_size
    intro same
    rw [← same] at size
    exact Nat.lt_irrefl _ size
  · -- the new node has no children, so nothing is below it
    have below := (added.below_iff (added.climb_ancestors p)).2 (.inr above)
    rcases Relation.ReflTransGen.cases_head below with same | ⟨c, link, -⟩
    · exact other same
    · rw [children_eq (slot?_insertDetached_self f node)] at link
      cases link

/-- One operation keeps the links in agreement. -/
theorem Linked.run (linked : f.Linked) {operation : Operation} (proper : operation.Proper f)
    (aimed : operation.Aimed f) : (operation.run f).Linked := by
  cases operation with
  | insertDetached node => exact linked.insertDetached node
  | insertChild parent node => exact linked.insertChild aimed node
  | append parent child => exact linked.insertAt aimed proper _
  | insertAt parent index child => exact linked.insertAt aimed proper index
  | splice old replacements => exact linked.splice proper
  | detach id => exact linked.detach id
  | remove id => exact linked.remove id
  | copy id => exact linked.copy id
  | modify id change => exact linked.modify id change

def runAll (operations : List Operation) (f : Forest) : Forest :=
  operations.foldl (fun f operation => operation.run f) f

/-- A condition on an operation and the forest before it holds along a run. -/
def Along (condition : Forest → Operation → Prop) : List Operation → Forest → Prop
  | [], _ => True
  | operation :: operations, f =>
    condition f operation ∧ Along condition operations (operation.run f)

instance decidableAlong (condition : Forest → Operation → Prop)
    [∀ f, DecidablePred (condition f)] (operations : List Operation) (f : Forest) :
    Decidable (Along condition operations f) :=
  match operations with
  | [] => .isTrue trivial
  | operation :: operations =>
    have := decidableAlong condition operations (operation.run f)
    inferInstanceAs (Decidable (_ ∧ _))

theorem Linked.runAll {operations : List Operation} (linked : f.Linked)
    (proper : Along Operation.Proper operations f) (aimed : Along Operation.Aimed operations f) :
    (runAll operations f).Linked := by
  induction operations generalizing f with
  | nil => exact linked
  | cons operation operations ih => exact ih (linked.run proper.1 aimed.1) proper.2 aimed.2

theorem linked_empty : empty.Linked := by
  have free (k : NodeId) : empty.parent? k = none := by
    rw [parent?, slot?_empty]
    split <;> rfl
  exact ⟨fun p c => by simp [free], fun p => by simp, ⟨_, rfl, rfl⟩,
    fun k => ⟨[], .top (free k)⟩⟩

/-- Starting with an empty document, operations that only put below a node that is there what may
be put there leave a forest whose links agree: the children of a node are there, each of them once,
and are the nodes whose parent it is; the root has no parent; and following the parents of a node
passes all of its ancestors and ends. -/
theorem runAll_empty_linked (operations : List Operation)
    (proper : Along Operation.Proper operations empty)
    (aimed : Along Operation.Aimed operations empty) :
    let f := runAll operations empty
    f.Linked ∧ (∀ p, ∀ c ∈ f.children p, f.contains c) ∧ ∀ id, f.Climb id (f.ancestors id) := by
  have linked := linked_empty.runAll proper aimed
  exact ⟨linked, fun p c => linked.contains_child, linked.climb_ancestors⟩

theorem runAll_empty_linked_moves :
    let box : Node := { kind := .element, name := "box" }
    let operations : List Operation := [.insertChild root box, .insertChild ⟨1⟩ box,
      .insertDetached box, .append ⟨2⟩ ⟨3⟩, .copy ⟨1⟩, .insertAt ⟨4⟩ 0 ⟨3⟩, .insertChild root box,
      .splice ⟨2⟩ [⟨4⟩, ⟨7⟩], .detach ⟨5⟩, .modify ⟨5⟩ fun node => { node with name := "lid" },
      .remove ⟨5⟩]
    let f := runAll operations empty
    Along Operation.Proper operations empty ∧ Along Operation.Aimed operations empty ∧
      f.children ⟨1⟩ = [⟨4⟩, ⟨7⟩] ∧ f.ancestors ⟨3⟩ = [⟨4⟩, ⟨1⟩, ⟨0⟩] ∧ f.Linked := by
  intro box operations
  have proper : Along Operation.Proper operations empty := by decide +kernel
  have aimed : Along Operation.Aimed operations empty := by decide +kernel
  exact ⟨proper, aimed, by decide +kernel, by decide +kernel,
    (runAll_empty_linked operations proper aimed).1⟩

/-- What is put below a node that has been removed has a parent whose child it is not. -/
theorem append_removed_not_linked :
    let box : Node := { kind := .element, name := "box" }
    let operations : List Operation := [.insertChild root box, .insertChild root box,
      .remove ⟨1⟩, .append ⟨1⟩ ⟨2⟩]
    Along Operation.Proper operations empty ∧ ¬(runAll operations empty).Linked := by
  intro box operations
  refine ⟨by decide +kernel, fun linked => ?_⟩
  have child := (linked.link ⟨1⟩ ⟨2⟩).2 (by decide +kernel)
  exact absurd child (by decide +kernel)

end Operations

end TemplateMarkup.Forest
