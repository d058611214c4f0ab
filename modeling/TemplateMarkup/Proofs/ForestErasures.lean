import TemplateMarkup.Proofs.ForestLinks

/-! A node is removed with all that is below it, and nothing else is. The links that are left and
the nodes that wait bound the steps that are still to do. -/
namespace TemplateMarkup.Forest

variable {f g : Forest} {c k p q id : NodeId} {queue : List NodeId}

section Queues

private theorem links_eraseAt (slots : List (Option Slot)) (i : Nat) :
    (slots.modify i fun _ => none).foldr (fun slot n => linksOf slot + n) 0 +
        linksOf (slots[i]?).join =
      slots.foldr (fun slot n => linksOf slot + n) 0 := by
  induction slots generalizing i with
  | nil => simp [linksOf]
  | cons slot slots ih =>
    cases i with
    | zero => simp [linksOf, Nat.add_comm]
    | succ i =>
      have rest := ih i
      simp only [List.modify_succ_cons, List.foldr_cons, List.getElem?_cons_succ]
      omega

theorem linkCount_eraseSlot (f : Forest) (id : NodeId) :
    (f.eraseSlot id).linkCount + (f.children id).length = f.linkCount := by
  have links : (f.children id).length = linksOf (f.slots.toList[id.index]?).join := by
    rw [children, slot?, Array.getElem?_toList]
    cases (f.slots[id.index]?).join <;> rfl
  rw [linkCount, eraseSlot, Array.toList_modify, links]
  exact links_eraseAt f.slots.toList id.index

theorem children_eraseSlot :
    (f.eraseSlot id).children p = if p = id then [] else f.children p := by
  by_cases same : p = id
  · rw [children, slot?_eraseSlot, if_pos same, if_pos same]
  · rw [if_neg same, children_congr]
    rw [slot?_eraseSlot, if_neg same]

/-- Different nodes that are nobody's children wait to be erased. -/
structure Waits (f : Forest) (queue : List NodeId) : Prop where
  back : ∀ p c, c ∈ f.children p → f.parent? c = some p
  nodup : ∀ p, (f.children p).Nodup
  different : queue.Nodup
  free : ∀ q ∈ queue, ∀ p, q ∉ f.children p

namespace Waits

/-- With a node its links are erased, and its children wait in their turn. -/
theorem step (waits : f.Waits (id :: queue)) :
    (f.eraseSlot id).Waits (queue ++ f.children id) := by
  have old {p c : NodeId} (link : c ∈ (f.eraseSlot id).children p) : p ≠ id ∧ c ∈ f.children p := by
    rw [children_eraseSlot] at link
    split at link
    · cases link
    · exact ⟨‹_›, link⟩
  constructor
  · intro p c link
    have stranger : c ≠ id := by
      rintro rfl
      exact waits.free c (.head _) p (old link).2
    rw [parent?_congr (f := f) (by rw [slot?_eraseSlot, if_neg stranger])]
    exact waits.back p c (old link).2
  · intro p
    rw [children_eraseSlot]
    split
    · exact List.nodup_nil
    · exact waits.nodup p
  · rw [List.nodup_append]
    refine ⟨(List.nodup_cons.1 waits.different).2, waits.nodup id, ?_⟩
    rintro a member b link rfl
    exact waits.free a (.tail _ member) id link
  · intro q member p link
    obtain ⟨other, link⟩ := old link
    rcases List.mem_append.1 member with member | own
    · exact waits.free q (.tail _ member) p link
    · have same := (waits.back p q link).symm.trans (waits.back id q own)
      exact other (Option.some.inj same)

/-- No way down leads through a node that waits. -/
theorem below_eraseSlot (waits : f.Waits (id :: queue)) (other : q ≠ id) :
    (f.eraseSlot id).Below q k ↔ f.Below q k := by
  constructor
  · intro below
    refine Relation.ReflTransGen.mono (fun p c link => ?_) _ _ below
    rw [children_eraseSlot] at link
    split at link
    · cases link
    · exact link
  · intro below
    induction below with
    | refl => exact .refl
    | @tail p c below link ih =>
      refine ih.tail ?_
      have stays : p ≠ id := by
        rcases Relation.ReflTransGen.cases_tail below with rfl | ⟨a, -, link⟩
        · exact other
        · rintro rfl
          exact waits.free p (.head _) a link
      rwa [children_eraseSlot, if_neg stays]

end Waits

/-- Some nodes are erased with all that is below them, and nothing else is. -/
structure Erases (f : Forest) (tops : List NodeId) (g : Forest) : Prop where
  gone : ∀ k, (∃ q ∈ tops, f.Below q k) → g.slot? k = none
  kept : ∀ k, (∀ q ∈ tops, ¬f.Below q k) → g.slot? k = f.slot? k

theorem Erases.cons (waits : f.Waits (id :: queue))
    (rest : (f.eraseSlot id).Erases (queue ++ f.children id) g) : f.Erases (id :: queue) g := by
  have others (q : NodeId) (member : q ∈ queue) : q ≠ id := by
    rintro rfl
    exact (List.nodup_cons.1 waits.different).1 member
  have inner (q : NodeId) (link : q ∈ f.children id) : q ≠ id := by
    rintro rfl
    exact waits.free q (.head _) q link
  constructor
  · rintro k ⟨q, member, below⟩
    rcases List.mem_cons.1 member with rfl | member
    · rcases Relation.ReflTransGen.cases_head below with rfl | ⟨c, link, below⟩
      · by_cases again : ∃ c ∈ queue ++ f.children q, (f.eraseSlot q).Below c q
        · exact rest.gone q again
        · rw [rest.kept q fun c member below => again ⟨c, member, below⟩, slot?_eraseSlot,
            if_pos rfl]
      · exact rest.gone k ⟨c, List.mem_append_right _ link,
          (waits.below_eraseSlot (inner c link)).2 below⟩
    · exact rest.gone k ⟨q, List.mem_append_left _ member,
        (waits.below_eraseSlot (others q member)).2 below⟩
  · intro k apart
    have other : k ≠ id := by
      rintro rfl
      exact apart k (.head _) .refl
    rw [rest.kept k, slot?_eraseSlot, if_neg other]
    intro q member below
    rcases List.mem_append.1 member with member | link
    · exact apart q (.tail _ member) ((waits.below_eraseSlot (others q member)).1 below)
    · exact apart id (.head _) (((waits.below_eraseSlot (inner q link)).1 below).head link)

theorem Waits.erases (waits : f.Waits queue) {fuel : Nat}
    (enough : queue.length + f.linkCount ≤ fuel) : f.Erases queue (eraseQueue fuel queue f) := by
  induction fuel generalizing f queue with
  | zero =>
    have none : queue = [] := List.eq_nil_of_length_eq_zero (by omega)
    subst none
    exact ⟨by simp, fun _ _ => rfl⟩
  | succ fuel ih =>
    cases queue with
    | nil => exact ⟨by simp, fun _ _ => rfl⟩
    | cons id queue =>
      apply Erases.cons waits
      apply ih waits.step
      have links := linkCount_eraseSlot f id
      simp only [List.length_append, List.length_cons] at enough ⊢
      omega

end Queues

section Removing

/-- Nothing below a node on its own is a child of a node outside. -/
theorem Ordered.not_below_child (ordered : f.Ordered) (free : f.parent? id = none)
    (link : c ∈ f.children p) (outside : ¬f.Below id p) : ¬f.Below id c := by
  have parent := ordered.back p c link
  intro below
  rcases Relation.ReflTransGen.cases_tail below with rfl | ⟨q, below, link'⟩
  · rw [free] at parent
    cases parent
  · cases parent.symm.trans (ordered.back q c link')
    exact outside below

variable {tops : List NodeId}

theorem Erases.slot?_of_contains (erases : f.Erases tops g) (live : g.contains k) :
    g.slot? k = f.slot? k := by
  apply erases.kept
  intro q member below
  rw [contains, erases.gone k ⟨q, member, below⟩] at live
  cases live

theorem Erases.parent?_of_parent? (erases : f.Erases tops g) (link : g.parent? k = some p) :
    f.parent? k = some p := by
  rwa [parent?_congr (erases.slot?_of_contains (contains_of_parent? link))] at link

theorem Erases.nodup (erases : f.Erases tops g) (nodup : ∀ p, (f.children p).Nodup) (p : NodeId) :
    (g.children p).Nodup := by
  cases found : g.slot? p with
  | none =>
    rw [children, found]
    exact List.nodup_nil
  | some slot =>
    rw [children_congr (erases.slot?_of_contains (contains_iff.2 ⟨slot, found⟩))]
    exact nodup p

/-- What is linked after a node on its own is erased is what it was. -/
theorem Erases.slots_of_link (erases : f.Erases [id] g) (ordered : f.Ordered)
    (free : f.parent? id = none) (link : c ∈ g.children p) :
    g.slot? p = f.slot? p ∧ g.slot? c = f.slot? c := by
  have live := contains_of_mem_children link
  have same := erases.slot?_of_contains live
  refine ⟨same, erases.kept c fun q member => ?_⟩
  rw [List.mem_singleton.1 member]
  rw [children_congr same] at link
  refine ordered.not_below_child free link fun below => ?_
  rw [contains, erases.gone p ⟨id, .head _, below⟩] at live
  cases live

/-- A node is removed once it has been detached. -/
theorem erases_remove (ordered : (f.detach id).Ordered)
    (nodup : ∀ p, ((f.detach id).children p).Nodup) (other : id ≠ root) (live : f.contains id) :
    (f.detach id).Erases [id] (f.remove id).2 := by
  obtain ⟨slot, found⟩ := contains_iff.1 live
  have there : f.get? id = some slot.node := by rw [get?, found, Option.map_some]
  rw [remove, if_neg other, there]
  apply Waits.erases
  · refine ⟨ordered.back, nodup, by simp, ?_⟩
    intro q member p
    rw [List.mem_singleton.1 member]
    exact ordered.not_mem_children (by simp)
  · simp [Nat.add_comm]

theorem size_eraseQueue (fuel : Nat) (queue : List NodeId) :
    (eraseQueue fuel queue f).slots.size = f.slots.size := by
  induction fuel generalizing queue f with
  | zero => rfl
  | succ fuel ih =>
    cases queue with
    | nil => rfl
    | cons id queue => rw [eraseQueue, ih, size_eraseSlot]

theorem size_remove : (f.remove c).2.slots.size = f.slots.size := by
  unfold remove
  split
  · rfl
  · split
    · rfl
    · rw [size_eraseQueue, size_detach]

end Removing

end TemplateMarkup.Forest
