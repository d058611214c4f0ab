import TemplateMarkup.Proofs.ForestErasures
import TemplateMarkup.Proofs.ForestTrees

/-! A walk meets the nodes of a tree, each before those below it. No node is met twice, so the links
of the forest bound the length of the walk. -/
namespace TemplateMarkup

mutual

/-- The nodes of a tree, each before those below it. -/
def NodeTree.nodes : NodeTree → List Node
  | .mk node branches => node :: NodeTree.nodesAll branches

def NodeTree.nodesAll : List NodeTree → List Node
  | [] => []
  | tree :: trees => tree.nodes ++ NodeTree.nodesAll trees

end

namespace Forest

variable {f : Forest} {id : NodeId} {met stack : List NodeId} {trees : List NodeTree}
  {tree : NodeTree}

section Bounds

/-- Different nodes have different links. -/
theorem links_le_linkCount (different : met.Nodup) :
    (met.flatMap f.children).length ≤ f.linkCount := by
  induction met generalizing f with
  | nil => exact Nat.zero_le _
  | cons k met ih =>
    obtain ⟨new, different⟩ := List.nodup_cons.1 different
    have others : met.flatMap (f.eraseSlot k).children = met.flatMap f.children := by
      apply List.flatMap_congr
      intro k' member
      have other : k' ≠ k := by
        rintro rfl
        exact new member
      rw [children_eraseSlot, if_neg other]
    have rest := ih (f := f.eraseSlot k) different
    have links := linkCount_eraseSlot f k
    rw [others] at rest
    rw [List.flatMap_cons, List.length_append]
    omega

/-- Nodes that have been met and nodes that wait: nothing that was met is below one that waits, and
none that waits is below another. -/
structure Pending (f : Forest) (met stack : List NodeId) : Prop where
  different : met.Nodup
  unmet : ∀ q ∈ stack, ∀ k ∈ met, ¬f.Below q k
  apart : stack.Pairwise fun a b => ¬f.Below a b ∧ ¬f.Below b a

theorem Ordered.below_child (ordered : f.Ordered) {q c p : NodeId} (link : c ∈ f.children p)
    (below : f.Below q c) : q = c ∨ f.Below q p := by
  rcases Relation.ReflTransGen.cases_tail below with same | ⟨p', above, link'⟩
  · exact .inl same.symm
  · cases (ordered.back p c link).symm.trans (ordered.back p' c link')
    exact .inr above

/-- The children of a node that has been met wait in its place. -/
theorem Pending.step (ordered : f.Ordered) (nodup : ∀ p, (f.children p).Nodup)
    (pending : f.Pending met (id :: stack)) :
    f.Pending (id :: met) (f.children id ++ stack) := by
  obtain ⟨others, rest⟩ := List.pairwise_cons.1 pending.apart
  constructor
  · refine List.nodup_cons.2 ⟨fun member => ?_, pending.different⟩
    exact pending.unmet id (.head _) id member .refl
  · intro q member k old below
    rcases List.mem_append.1 member with link | waits
    · rcases List.mem_cons.1 old with rfl | old
      · exact ordered.acyclic k q link below
      · exact pending.unmet id (.head _) k old (.head link below)
    · rcases List.mem_cons.1 old with rfl | old
      · exact (others q waits).2 below
      · exact pending.unmet q (.tail _ waits) k old below
  · refine List.pairwise_append.2 ⟨?_, rest, ?_⟩
    · refine (nodup id).imp_of_mem fun {a b} first second different => ⟨fun below => ?_, fun below => ?_⟩
      · rcases ordered.below_child second below with same | below
        · exact different same
        · exact ordered.acyclic id a first below
      · rcases ordered.below_child first below with same | below
        · exact different same.symm
        · exact ordered.acyclic id b second below
    · intro c link q waits
      constructor
      · intro below
        exact (others q waits).1 (.head link below)
      · intro below
        rcases ordered.below_child link below with rfl | below
        · exact (others q waits).1 (.single link)
        · exact (others q waits).2 below

end Bounds

theorem Ordered.get?_of_tree? (ordered : f.Ordered) (there : f.tree? id = some tree) :
    f.get? id = some tree.node ∧ f.contains id := by
  obtain ⟨slot, found⟩ := ordered.exists_slot_of_tree? there
  rw [ordered.tree?_of_slot? found] at there
  cases there
  rw [get?, contains, found]
  exact ⟨rfl, rfl⟩

/-- The nodes of the trees at some nodes, tree by tree, each before those below it. -/
inductive Enumerates (f : Forest) : List NodeId → List NodeId → Prop
  | nil : Enumerates f [] []
  | cons {id : NodeId} {ids below rest : List NodeId} (live : f.contains id)
      (inner : Enumerates f (f.children id) below) (outer : Enumerates f ids rest) :
      Enumerates f (id :: ids) (id :: (below ++ rest))

namespace Enumerates

variable {ids ids' listed : List NodeId}

theorem split (order : f.Enumerates (ids ++ ids') listed) :
    ∃ front back, listed = front ++ back ∧ f.Enumerates ids front ∧ f.Enumerates ids' back := by
  induction ids generalizing listed with
  | nil => exact ⟨[], listed, rfl, .nil, order⟩
  | cons id ids ih =>
    cases order with
    | cons live inner outer =>
      obtain ⟨front, back, rfl, first, second⟩ := ih outer
      exact ⟨_, back, by simp, .cons live inner first, second⟩

theorem mem_iff {k : NodeId} (order : f.Enumerates ids listed) :
    k ∈ listed ↔ ∃ q ∈ ids, f.Below q k := by
  induction order with
  | nil => simp
  | @cons id ids below rest _ _ _ inner outer =>
    have here : f.Below id k ↔ id = k ∨ ∃ c, c ∈ f.children id ∧ f.Below c k :=
      Relation.ReflTransGen.cases_head_iff
    simp [inner, outer, here, or_assoc, eq_comm]

theorem filterMap_get? (ordered : f.Ordered) (order : f.Enumerates ids listed)
    (shown : f.Shows ids trees) : listed.filterMap f.get? = NodeTree.nodesAll trees := by
  induction order generalizing trees with
  | nil =>
    rw [shown.eq_nil]
    rfl
  | cons _ _ _ inner outer =>
    obtain ⟨tree, trees, rfl, here, there⟩ := shown.cons_inv
    rw [List.filterMap_cons_some (ordered.get?_of_tree? here).1, List.filterMap_append,
      inner (ordered.shows_children here), outer there]
    cases tree
    rfl

end Enumerates

/-- A walk lists what waits in order and without repetition: each step pays for the links that it
adds to those of the nodes that have been met. -/
theorem Pending.walkFrom (ordered : f.Ordered) (nodup : ∀ p, (f.children p).Nodup) {fuel : Nat}
    (pending : f.Pending met stack) (there : ∀ q ∈ stack, f.contains q)
    (enough : stack.length + f.linkCount ≤ fuel + (met.flatMap f.children).length) :
    f.Enumerates stack (f.walkFrom fuel stack) ∧ (f.walkFrom fuel stack).Nodup := by
  induction fuel generalizing met stack with
  | zero =>
    have links := links_le_linkCount (f := f) pending.different
    have none : stack = [] := List.eq_nil_of_length_eq_zero (by omega)
    rw [none]
    exact ⟨.nil, List.nodup_nil⟩
  | succ fuel ih =>
    cases stack with
    | nil => exact ⟨.nil, List.nodup_nil⟩
    | cons id stack =>
      have next := pending.step ordered nodup
      obtain ⟨order, different⟩ := ih next (by
        intro q member
        rcases List.mem_append.1 member with link | member
        · exact (ordered.exists_slot link).elim fun slot found => by rw [contains, found.1]; rfl
        · exact there q (.tail _ member)) (by
        simp only [List.flatMap_cons, List.length_append, List.length_cons] at enough ⊢
        omega)
      rw [Forest.walkFrom, if_pos (there id (.head _))]
      obtain ⟨below, rest, same, inner, outer⟩ := order.split
      refine ⟨same ▸ .cons (there id (.head _)) inner outer,
        List.nodup_cons.2 ⟨fun again => ?_, different⟩⟩
      obtain ⟨q, waits, below⟩ := order.mem_iff.1 again
      exact next.unmet q waits id (.head _) below

/-- A walk lists the nodes of a subtree, each of them once and before those below it. -/
theorem Ordered.walk_enumerates (ordered : f.Ordered) (nodup : ∀ p, (f.children p).Nodup)
    (live : f.contains id) : f.Enumerates [id] (f.walk id) ∧ (f.walk id).Nodup := by
  have pending : f.Pending [] [id] := ⟨List.nodup_nil, by simp, List.pairwise_singleton _ _⟩
  exact pending.walkFrom ordered nodup (by simpa using live) (by simp [Nat.add_comm])

theorem Ordered.walk_nodes (ordered : f.Ordered) (nodup : ∀ p, (f.children p).Nodup)
    (there : f.tree? id = some tree) : (f.walk id).filterMap f.get? = tree.nodes := by
  have order := (ordered.walk_enumerates nodup (ordered.get?_of_tree? there).2).1
  rw [order.filterMap_get? ordered (shows_singleton.2 there)]
  exact List.append_nil _

theorem length_filter (id : NodeId) (p : Node → Bool) :
    (f.filter id p).length = (((f.walk id).filterMap f.get?).filter p).length := by
  rw [Forest.filter]
  induction f.walk id with
  | nil => rfl
  | cons k ids ih =>
    cases here : f.get? k with
    | none => simp only [List.filter_cons, List.filterMap_cons, here, ih, Bool.false_eq_true, if_false]
    | some node =>
      simp only [List.filter_cons, List.filterMap_cons, here]
      split <;> simp [ih]

theorem Grown.elementCount_eq (grown : f.Grown) (there : f.tree? id = some tree) :
    f.elementCount id = (tree.nodes.filter Node.isElement).length := by
  rw [elementCount, length_filter, grown.ordered.walk_nodes grown.nodup there]

theorem Grown.textContent_eq (grown : f.Grown) (there : f.tree? id = some tree) :
    f.textContent id = String.join (tree.nodes.filterMap fun node =>
      if node.isText then some node.content else none) := by
  rw [textContent, grown.ordered.walk_nodes grown.nodup there]

end Forest

end TemplateMarkup
