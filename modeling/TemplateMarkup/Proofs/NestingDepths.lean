import TemplateMarkup.Proofs.ForestHosts
import TemplateMarkup.Proofs.LinkedForests

/-! How many elements and namespaces stand around a node, and what adding nodes changes in
that. -/
namespace TemplateMarkup.Forest

variable {f g h : Forest} {k p id : NodeId} {o : Option NodeId} {node : Node} {m n : Nat}

/-- From a node on upwards, so many nodes are elements or namespaces. -/
inductive Nesting (f : Forest) : Option NodeId → Nat → Prop
  | top : Nesting f none 0
  | inside {p : NodeId} {node : Node} {n : Nat} (found : f.get? p = some node)
      (above : Nesting f (f.parent? p) n) : Nesting f (some p) (n + node.isHost.toNat)

/-- At most `m` elements and namespaces stand around a node, and fewer around an element. -/
def Shallow (m : Nat) (f : Forest) : Prop :=
  ∀ k node, f.get? k = some node → ∃ n, f.Nesting (f.parent? k) n ∧ n + node.isElement.toNat ≤ m

/-- A forest grows, and stays as shallow as it was asked to be. -/
structure Sprouts (m : Nat) (f g : Forest) : Prop where
  depth : ∀ o n, f.Nesting o n → g.Nesting o n
  shallow : f.Shallow m → g.Shallow m

theorem Sprouts.refl (m : Nat) (f : Forest) : f.Sprouts m f := ⟨fun _ _ => id, id⟩

theorem Sprouts.trans (first : f.Sprouts m g) (rest : g.Sprouts m h) : f.Sprouts m h :=
  ⟨fun o n depth => rest.depth o n (first.depth o n depth),
    fun shallow => rest.shallow (first.shallow shallow)⟩

theorem shallow_empty (m : Nat) : Forest.empty.Shallow m := by
  intro k node found
  obtain ⟨slot, there, rfl⟩ := Option.map_eq_some_iff.1 found
  have top : k = root := by
    have inside := lt_size_of_slot? there
    exact NodeId.eq_iff.2 (Nat.lt_one_iff.1 inside)
  subst top
  cases there
  exact ⟨0, .top, Nat.zero_le _⟩

/-- A node is new below `o`, and all others are as they were. -/
structure Adds (f : Forest) (o : Option NodeId) (node : Node) (id : NodeId) (g : Forest) : Prop where
  fresh : f.get? id = none
  here : g.get? id = some node
  parent : g.parent? id = o
  others : ∀ k, k ≠ id → g.get? k = f.get? k ∧ g.parent? k = f.parent? k

theorem adds_insertDetached (f : Forest) (node : Node) :
    f.Adds none node ⟨f.slots.size⟩ (f.insertDetached node).2 where
  fresh := by
    cases found : f.get? ⟨f.slots.size⟩ with
    | none => rfl
    | some other => exact absurd (lt_size_of_get? found) (Nat.lt_irrefl _)
  here := by rw [get?_insertDetached, if_pos rfl]
  parent := by rw [parent?, slot?_insertDetached, if_pos rfl]; rfl
  others k other := by
    rw [get?_insertDetached, parent?, slot?_insertDetached, if_neg other, if_neg other]
    exact ⟨rfl, rfl⟩

namespace Adds

section

variable (adds : f.Adds o node id g)

include adds

theorem append : f.Adds (some p) node id (g.append p id) := by
  have live : g.contains id := by
    obtain ⟨slot, found, -⟩ := Option.map_eq_some_iff.1 adds.here
    exact contains_iff.2 ⟨slot, found⟩
  refine ⟨adds.fresh, ?_, ?_, fun k other => ?_⟩
  · rw [Forest.append, get?_insertAt, adds.here]
  · rw [Forest.append, parent?_insertAt live, if_pos rfl]
  · rw [Forest.append, get?_insertAt, parent?_insertAt live, if_neg other]
    exact adds.others k other

theorem depth {q : Option NodeId} (there : f.Nesting q n) : g.Nesting q n := by
  induction there with
  | top => exact .top
  | @inside p other n found _ ih =>
    have ne : p ≠ id := by
      rintro rfl
      rw [adds.fresh] at found
      cases found
    rw [← (adds.others p ne).2] at ih
    exact .inside ((adds.others p ne).1.trans found) ih

theorem depth_new (there : f.Nesting o n) : g.Nesting (some id) (n + node.isHost.toNat) :=
  .inside adds.here (adds.parent ▸ adds.depth there)

theorem sprouts (there : f.Nesting o n) (room : n + node.isElement.toNat ≤ m) : f.Sprouts m g := by
  refine ⟨fun q n => adds.depth, fun shallow k other found => ?_⟩
  by_cases same : k = id
  · subst same
    cases adds.here.symm.trans found
    exact ⟨n, adds.parent ▸ adds.depth there, room⟩
  · rw [(adds.others k same).1] at found
    obtain ⟨n, above, fits⟩ := shallow k other found
    exact ⟨n, (adds.others k same).2 ▸ adds.depth above, fits⟩

end

end Adds

/-- A change of nodes that keeps what they are. -/
theorem sprouts_modify {change : Node → Node} (kind : ∀ node, (change node).kind = node.kind) :
    f.Sprouts m (f.modify id change) := by
  have host (node : Node) : (change node).isHost = node.isHost := by simp [Node.isHost, kind]
  have isElement (node : Node) : (change node).isElement = node.isElement := by
    simp [Node.isElement, kind]
  have depth (q : Option NodeId) (n : Nat) (there : f.Nesting q n) :
      (f.modify id change).Nesting q n := by
    induction there with
    | top => exact .top
    | @inside p node n found _ ih =>
      rw [← parent?_modify] at ih
      by_cases same : p = id
      · rw [← host node]
        exact .inside (by rw [get?_modify, if_pos same, found]; rfl) ih
      · exact .inside (by rw [get?_modify, if_neg same, found]) ih
  refine ⟨depth, fun shallow k node found => ?_⟩
  rw [parent?_modify]
  rw [get?_modify] at found
  split at found
  · obtain ⟨old, there, rfl⟩ := Option.map_eq_some_iff.1 found
    obtain ⟨n, above, fits⟩ := shallow k old there
    exact ⟨n, depth _ n above, by rwa [isElement]⟩
  · obtain ⟨n, above, fits⟩ := shallow k node found
    exact ⟨n, depth _ n above, fits⟩

theorem Nesting.unique {n' : Nat} (depth : f.Nesting o n) (depth' : f.Nesting o n') : n = n' := by
  induction depth generalizing n' with
  | top =>
    cases depth'
    rfl
  | inside found _ ih =>
    cases depth' with
    | inside found' above' =>
      cases found.symm.trans found'
      rw [ih above']

/-- Around a node stand as many as there are above it. -/
theorem Nesting.countP_ancestors (depth : f.Nesting (f.parent? k) n) :
    (f.ancestors k).countP (fun p => (f.get? p).any Node.isHost) = n := by
  suffices climbs : ∀ o n, f.Nesting o n → ∀ k, f.parent? k = o → ∃ above, f.Climb k above ∧
      (∀ a ∈ above, a.index < f.slots.size) ∧
      above.countP (fun p => (f.get? p).any Node.isHost) = n by
    obtain ⟨above, climb, live, count⟩ := climbs _ n depth k rfl
    rw [climb.ancestors_eq live, count]
  intro o n depth
  induction depth with
  | top => exact fun k link => ⟨[], .top link, by simp, rfl⟩
  | @inside p node n found _ ih =>
    intro k link
    obtain ⟨above, climb, live, count⟩ := ih p rfl
    refine ⟨p :: above, .up link climb, List.forall_mem_cons.2 ⟨lt_size_of_get? found, live⟩, ?_⟩
    rw [List.countP_cons, count, found]
    cases host : node.isHost <;> simp [host]

end TemplateMarkup.Forest
