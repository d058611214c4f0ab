import Mathlib.Data.List.Nodup
import Mathlib.Data.List.Perm.Subperm
import TemplateMarkup.Proofs.ForestRoots

/-! Forests whose links agree: a node is a child of its parent and of no other node, and following
the parents ends. -/
namespace TemplateMarkup.Forest

variable {f g : Forest} {a c k p q : NodeId} {above : List NodeId} {index : Nat}

section Climbing

/-- Following the parents of a node passes these nodes and ends. -/
inductive Climb (f : Forest) : NodeId → List NodeId → Prop
  | top {k : NodeId} (free : f.parent? k = none) : Climb f k []
  | up {k p : NodeId} {above : List NodeId} (link : f.parent? k = some p) (rest : Climb f p above) :
      Climb f k (p :: above)

namespace Climb

section

variable (climb : f.Climb k above)

include climb

theorem unique {other : List NodeId} (climb' : f.Climb k other) : above = other := by
  induction climb generalizing other with
  | top free =>
    cases climb' with
    | top => rfl
    | up link _ =>
      rw [free] at link
      cases link
  | up link _ ih =>
    cases climb' with
    | top free =>
      rw [free] at link
      cases link
    | up link' rest =>
      cases link.symm.trans link'
      rw [ih rest]

theorem exists_of_mem (member : a ∈ above) :
    ∃ rest, f.Climb a rest ∧ rest.length < above.length := by
  induction climb with
  | top => cases member
  | up _ climb ih =>
    rcases List.mem_cons.1 member with rfl | member
    · exact ⟨_, climb, by simp⟩
    · obtain ⟨rest, climb, shorter⟩ := ih member
      exact ⟨rest, climb, by simp; omega⟩

/-- Nobody is met again above itself. -/
theorem not_mem : k ∉ above := by
  intro member
  obtain ⟨rest, again, shorter⟩ := climb.exists_of_mem member
  rw [climb.unique again] at shorter
  exact Nat.lt_irrefl _ shorter

theorem nodup : above.Nodup := by
  induction climb with
  | top => exact List.nodup_nil
  | up _ climb ih => exact List.nodup_cons.2 ⟨climb.not_mem, ih⟩

theorem ancestorsFrom_eq {fuel : Nat} (enough : above.length ≤ fuel) :
    f.ancestorsFrom fuel k = above := by
  induction climb generalizing fuel with
  | top free => cases fuel <;> simp [ancestorsFrom, free]
  | up link _ ih =>
    cases fuel with
    | zero => simp at enough
    | succ fuel =>
      simp only [ancestorsFrom, link]
      rw [ih (by simpa using enough)]

/-- The nodes above a node are all found: they are different ones, and there are only so many. -/
theorem ancestors_eq (live : ∀ a ∈ above, a.index < f.slots.size) : f.ancestors k = above := by
  have different : (above.map NodeId.index).Nodup :=
    climb.nodup.map fun _ _ same => NodeId.eq_iff.2 same
  have few : above.map NodeId.index ⊆ List.range f.slots.size := by
    intro n member
    obtain ⟨a, inside, rfl⟩ := List.mem_map.1 member
    exact List.mem_range.2 (live a inside)
  refine climb.ancestorsFrom_eq ?_
  simpa using (different.subperm few).length_le

end

/-- With fewer links the parents are followed less far. -/
theorem exists_of_fewer (fewer : ∀ k p, g.parent? k = some p → f.parent? k = some p)
    (climb : f.Climb k above) : ∃ rest, g.Climb k rest ∧ rest ⊆ above := by
  induction climb with
  | @top k free =>
    cases link : g.parent? k with
    | none => exact ⟨[], .top link, by simp⟩
    | some p =>
      rw [fewer k p link] at free
      cases free
  | @up k p above link _ ih =>
    cases link' : g.parent? k with
    | none => exact ⟨[], .top link', by simp⟩
    | some q =>
      cases link.symm.trans (fewer k q link')
      obtain ⟨rest, climb, subset⟩ := ih
      exact ⟨p :: rest, .up link' climb, List.cons_subset_cons p subset⟩

/-- Only the parents of a node and of those above it count. -/
theorem congr (climb : f.Climb k above) (same : ∀ q ∈ k :: above, g.parent? q = f.parent? q) :
    g.Climb k above := by
  induction climb with
  | @top k free => exact .top ((same k (.head _)).trans free)
  | @up k p above link _ ih =>
    exact .up ((same k (.head _)).trans link) (ih fun q member => same q (.tail _ member))

end Climb

end Climbing

/-- The links of a forest agree. -/
structure Linked (f : Forest) : Prop where
  link : ∀ p c, c ∈ f.children p ↔ f.parent? c = some p
  nodup : ∀ p, (f.children p).Nodup
  top : f.IsRoot root
  ends : ∀ k, ∃ above, f.Climb k above

namespace Linked

section

variable (linked : f.Linked)

include linked

theorem contains_child (link : c ∈ f.children p) : f.contains c :=
  contains_of_parent? ((linked.link p c).1 link)

theorem contains_above (climb : f.Climb k above) (member : a ∈ above) : f.contains a := by
  induction climb with
  | top => cases member
  | up link _ ih =>
    rcases List.mem_cons.1 member with rfl | member
    · exact contains_of_mem_children ((linked.link _ _).2 link)
    · exact ih member

theorem climb_ancestors (k : NodeId) : f.Climb k (f.ancestors k) := by
  obtain ⟨above, climb⟩ := linked.ends k
  rw [climb.ancestors_eq fun a inside => ?_]
  · exact climb
  · obtain ⟨slot, found⟩ := contains_iff.1 (linked.contains_above climb inside)
    exact lt_size_of_slot? found

theorem ancestors_eq (climb : f.Climb k above) : f.ancestors k = above :=
  (linked.climb_ancestors k).unique climb

/-- A node is below itself and those above it. -/
theorem below_iff (climb : f.Climb k above) : f.Below a k ↔ a = k ∨ a ∈ above := by
  induction climb with
  | @top k free =>
    simp only [List.not_mem_nil, or_false]
    constructor
    · intro below
      rcases Relation.ReflTransGen.cases_tail below with same | ⟨q, -, link⟩
      · exact same.symm
      · rw [(linked.link q k).1 link] at free
        cases free
    · rintro rfl
      exact .refl
  | @up k p above link _ ih =>
    rw [List.mem_cons, ← ih]
    constructor
    · intro below
      rcases Relation.ReflTransGen.cases_tail below with same | ⟨q, below, link'⟩
      · exact .inl same.symm
      · cases link.symm.trans ((linked.link q k).1 link')
        exact .inr below
    · rintro (rfl | below)
      · exact .refl
      · exact below.tail ((linked.link p k).2 link)

theorem ordered : f.Ordered where
  back p c := (linked.link p c).1
  acyclic p c link below := by
    have climb := linked.climb_ancestors p
    have round := (linked.below_iff climb).1 below
    exact (Climb.up ((linked.link p c).1 link) climb).not_mem (List.mem_cons.2 round)

/-- The links count, and nothing else. -/
theorem congr (parents : ∀ k, g.parent? k = f.parent? k)
    (children : ∀ p, g.children p = f.children p) (top : g.IsRoot root) : g.Linked where
  link p c := by rw [children, parents, linked.link]
  nodup p := by rw [children]; exact linked.nodup p
  top := top
  ends k := by
    obtain ⟨above, climb⟩ := linked.ends k
    exact ⟨above, climb.congr fun q _ => parents q⟩

theorem modify (id : NodeId) (change : Node → Node) : (f.modify id change).Linked :=
  linked.congr (fun _ => parent?_modify id change) (fun _ => children_modify id change)
    ((isRoot_modify id change).2 linked.top)

/-- A new node has no links. -/
theorem insertDetached (node : Node) : (f.insertDetached node).2.Linked := by
  have fresh : f.slot? ⟨f.slots.size⟩ = none := slot?_of_size_le (Nat.le_refl _)
  have same {k : NodeId} (old : k ≠ ⟨f.slots.size⟩) :
      (f.insertDetached node).2.slot? k = f.slot? k := by
    rw [slot?_insertDetached, if_neg old]
  apply linked.congr
  · intro k
    by_cases new : k = ⟨f.slots.size⟩
    · rw [new, parent?_eq (slot?_insertDetached_self f node), parent?, fresh]
      rfl
    · exact parent?_congr (same new)
  · intro p
    by_cases new : p = ⟨f.slots.size⟩
    · rw [new, children_eq (slot?_insertDetached_self f node), children, fresh]
    · exact children_congr (same new)
  · apply linked.top.congr
    apply (extends_insertDetached f node).slots
    exact linked.top.lt_size

end

end Linked

section Moving

theorem Linked.detach (linked : f.Linked) (c : NodeId) : (f.detach c).Linked where
  link p k := by
    rw [linked.ordered.children_detach, parent?_detach, List.mem_filter, linked.link]
    by_cases same : k = c <;> simp [same]
  nodup p := by
    rw [linked.ordered.children_detach]
    exact (linked.nodup p).filter _
  top := by
    obtain ⟨live, free⟩ := isRoot_iff.1 linked.top
    apply isRoot_iff.2
    simp [live, free]
  ends k := by
    obtain ⟨above, climb⟩ := linked.ends k
    obtain ⟨rest, climb, -⟩ := climb.exists_of_fewer fun _ _ => parent?_of_detach
    exact ⟨rest, climb⟩

/-- A node that may be put below another: one of the forest that is neither the root, nor the
other node, nor above that. -/
structure Attachable (f : Forest) (p c : NodeId) : Prop where
  live : f.contains c
  notRoot : c ≠ root
  other : c ≠ p
  notAbove : c ∉ f.ancestors p

private theorem perm_putAt (c : NodeId) (others : List NodeId) (index : Nat) :
    (others.take index ++ c :: others.drop index).Perm (c :: others) := by
  have moved : (others.take index ++ c :: others.drop index).Perm
      (c :: (others.take index ++ others.drop index)) := List.perm_middle
  rwa [List.take_append_drop] at moved

theorem Linked.children_insertAt (linked : f.Linked) (live : f.contains p) :
    ((f.insertAt p index c).children q).Perm
      (if q = p then c :: (f.children q).filter (· ≠ c) else (f.children q).filter (· ≠ c)) := by
  rw [insertAt, children_setChildren _ (.inl (by simpa using live)), children_setParent,
    linked.ordered.children_detach]
  split
  · exact perm_putAt c _ index
  · exact .refl _

/-- What is above the new parent stays as it is. -/
theorem Linked.climb_insertAt (linked : f.Linked) (child : f.Attachable p c) :
    (f.insertAt p index c).Climb p (f.ancestors p) := by
  apply (linked.climb_ancestors p).congr
  intro q member
  rw [parent?_insertAt child.live, if_neg]
  rintro rfl
  rcases List.mem_cons.1 member with same | above
  · exact child.other same
  · exact child.notAbove above

theorem Linked.insertAt (linked : f.Linked) (live : f.contains p) (child : f.Attachable p c)
    (index : Nat) : (f.insertAt p index c).Linked where
  link q k := by
    rw [(linked.children_insertAt live).mem_iff, parent?_insertAt child.live]
    by_cases moved : k = c
    · by_cases here : q = p
      · simp [moved, here]
      · simp [moved, here, Ne.symm here]
    · have same : k ∈ (f.children q).filter (· ≠ c) ↔ k ∈ f.children q := by simp [moved]
      rw [if_neg moved, ← linked.link, ← same]
      split
      · simp [moved]
      · rfl
  nodup q := by
    rw [(linked.children_insertAt live).nodup_iff]
    have others : ((f.children q).filter (· ≠ c)).Nodup := (linked.nodup q).filter _
    split
    · exact List.nodup_cons.2 ⟨by simp, others⟩
    · exact others
  top := by
    obtain ⟨here, free⟩ := isRoot_iff.1 linked.top
    apply isRoot_iff.2
    rw [contains_insertAt, parent?_insertAt child.live, if_neg child.notRoot.symm]
    exact ⟨here, free⟩
  ends k := by
    obtain ⟨above, climb⟩ := linked.ends k
    have parent (k : NodeId) (other : k ≠ c) : (f.insertAt p index c).parent? k = f.parent? k := by
      rw [parent?_insertAt child.live, if_neg other]
    -- the way up from `c` goes on from its new parent
    have moved : ∃ above, (f.insertAt p index c).Climb c above := by
      refine ⟨_, .up ?_ (linked.climb_insertAt child)⟩
      rw [parent?_insertAt child.live, if_pos rfl]
    induction climb with
    | @top k free =>
      by_cases same : k = c
      · exact same ▸ moved
      · exact ⟨[], .top ((parent k same).trans free)⟩
    | @up k q above link _ ih =>
      by_cases same : k = c
      · exact same ▸ moved
      · obtain ⟨above, climb⟩ := ih
        exact ⟨q :: above, .up ((parent k same).trans link) climb⟩

/-- What may be put below the same parent may still be put there. -/
theorem Attachable.insertAt (linked : f.Linked) (live : f.contains p) (child : f.Attachable p c)
    (other : f.Attachable p a) : (f.insertAt p index c).Attachable p a where
  live := by simpa using other.live
  notRoot := other.notRoot
  other := other.other
  notAbove := by
    rw [(linked.insertAt live child index).ancestors_eq (linked.climb_insertAt child)]
    exact other.notAbove

end Moving

section Removing

variable {id : NodeId}

theorem Erases.linked (erases : f.Erases [id] g) (linked : f.Linked) (free : f.parent? id = none)
    (other : id ≠ root) : g.Linked where
  link p c := by
    constructor
    · intro link
      obtain ⟨here, there⟩ := erases.slots_of_link linked.ordered free link
      rw [children_congr here] at link
      rw [parent?_congr there]
      exact (linked.link p c).1 link
    · intro link
      have live := contains_of_parent? link
      have link' := (linked.link p c).2 (erases.parent?_of_parent? link)
      rwa [children_congr (erases.kept p fun q member below => ?_)]
      rw [contains, erases.gone c ⟨q, member, below.tail link'⟩] at live
      cases live
  nodup := erases.nodup linked.nodup
  top := linked.top.congr (erases.kept root fun q member below => by
    rw [List.mem_singleton.1 member] at below
    exact other (linked.ordered.eq_of_below_root linked.top.parent? below))
  ends k := by
    obtain ⟨above, climb⟩ := linked.ends k
    obtain ⟨rest, climb, -⟩ := climb.exists_of_fewer fun _ _ => erases.parent?_of_parent?
    exact ⟨rest, climb⟩

theorem Linked.erases_remove (linked : f.Linked) (other : id ≠ root) (live : f.contains id) :
    (f.detach id).Erases [id] (f.remove id).2 :=
  Forest.erases_remove (linked.detach id).ordered (linked.detach id).nodup other live

theorem Linked.remove (linked : f.Linked) (id : NodeId) : (f.remove id).2.Linked := by
  by_cases other : id = root
  · rw [Forest.remove, if_pos other]
    exact linked
  · by_cases live : f.contains id
    · exact (linked.erases_remove other live).linked (linked.detach id) (by simp) other
    · have absent : f.get? id = none := by
        rw [get?, Option.map_eq_none_iff]
        simpa [contains] using live
      rw [Forest.remove, if_neg other, absent]
      exact linked

end Removing

end TemplateMarkup.Forest
