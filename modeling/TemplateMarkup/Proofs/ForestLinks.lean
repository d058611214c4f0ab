import Mathlib.Logic.Relation
import TemplateMarkup.Forest

/-! The links of a forest. Nodes are named in the order in which they are made and a parent is
there before its children, so links lead from smaller names to larger ones. -/
namespace TemplateMarkup

theorem NodeId.eq_iff {a b : NodeId} : a = b ↔ a.index = b.index := by
  cases a
  cases b
  simp

namespace Forest

variable {f g : Forest} {a b k p c : NodeId} {slot : Slot} {node : Node}

theorem lt_size_of_slot? (h : f.slot? k = some slot) : k.index < f.slots.size := by
  refine Classical.byContradiction fun outside => ?_
  rw [slot?, Array.getElem?_eq_none (by omega)] at h
  cases h

theorem slot?_of_size_le (h : f.slots.size ≤ k.index) : f.slot? k = none := by
  rw [slot?, Array.getElem?_eq_none h]
  rfl

theorem slot?_empty : empty.slot? k =
    if k = root then some { node := { kind := .document } } else none := by
  obtain ⟨index⟩ := k
  cases index with
  | zero | succ => rfl

@[simp] theorem children_empty : empty.children k = [] := by
  rw [children, slot?_empty]
  by_cases same : k = root
  · rw [if_pos same]
  · rw [if_neg same]

theorem slot?_modifySlot (id : NodeId) (change : Slot → Slot) :
    (f.modifySlot id change).slot? k =
      if k = id then (f.slot? k).map change else f.slot? k := by
  unfold modifySlot slot?
  rw [Array.getElem?_modify]
  by_cases same : k = id
  · subst same
    rw [if_pos rfl, if_pos rfl]
    cases f.slots[k.index]? <;> rfl
  · rw [if_neg same, if_neg fun h => same (NodeId.eq_iff.2 h.symm)]

@[simp] theorem size_modifySlot (id : NodeId) (change : Slot → Slot) :
    (f.modifySlot id change).slots.size = f.slots.size := by simp [modifySlot]

theorem slot?_insertDetached (node : Node) :
    (f.insertDetached node).2.slot? k =
      if k = ⟨f.slots.size⟩ then some { node } else f.slot? k := by
  unfold insertDetached slot?
  rw [Array.getElem?_push]
  by_cases same : k = ⟨f.slots.size⟩
  · subst same
    rw [if_pos rfl, if_pos rfl]
    rfl
  · rw [if_neg same, if_neg fun h => same (NodeId.eq_iff.2 h)]

theorem get?_insertDetached (node : Node) :
    (f.insertDetached node).2.get? k = if k = ⟨f.slots.size⟩ then some node else f.get? k := by
  rw [get?, slot?_insertDetached, get?]
  split <;> rfl

@[simp] theorem size_insertDetached (node : Node) :
    (f.insertDetached node).2.slots.size = f.slots.size + 1 := by simp [insertDetached]

theorem slot?_eraseSlot (id : NodeId) :
    (f.eraseSlot id).slot? k = if k = id then none else f.slot? k := by
  unfold eraseSlot slot?
  rw [Array.getElem?_modify]
  by_cases same : k = id
  · subst same
    rw [if_pos rfl, if_pos rfl]
    cases f.slots[k.index]? <;> rfl
  · rw [if_neg same, if_neg fun h => same (NodeId.eq_iff.2 h.symm)]

@[simp] theorem size_eraseSlot (id : NodeId) : (f.eraseSlot id).slots.size = f.slots.size := by
  simp [eraseSlot]

theorem parent?_congr (h : g.slot? k = f.slot? k) : g.parent? k = f.parent? k := by
  rw [parent?, parent?, h]

theorem children_congr (h : g.slot? k = f.slot? k) : g.children k = f.children k := by
  rw [children, children, h]

theorem exists_slot_of_mem_children (h : c ∈ f.children p) :
    ∃ slot, f.slot? p = some slot ∧ c ∈ slot.children := by
  unfold children at h
  cases found : f.slot? p with
  | none =>
    rw [found] at h
    cases h
  | some slot =>
    rw [found] at h
    exact ⟨slot, rfl, h⟩

theorem children_eq (h : f.slot? p = some slot) : f.children p = slot.children := by
  rw [children, h]

theorem mem_children_of_slot? {pre post : List NodeId}
    (h : f.slot? p = some { slot with children := pre ++ (c :: post) }) : c ∈ f.children p := by
  rw [children_eq h]
  simp

theorem parent?_eq (h : f.slot? k = some slot) : f.parent? k = slot.parent := by
  rw [parent?, h]
  rfl

theorem exists_slot_of_parent? (h : f.parent? c = some p) :
    ∃ slot, f.slot? c = some slot ∧ slot.parent = some p := by
  unfold Forest.parent? at h
  cases found : f.slot? c with
  | none =>
    rw [found] at h
    cases h
  | some slot =>
    rw [found] at h
    exact ⟨slot, rfl, h⟩

theorem contains_iff : f.contains k ↔ ∃ slot, f.slot? k = some slot := Option.isSome_iff_exists

theorem contains_of_parent? (link : f.parent? c = some p) : f.contains c := by
  unfold parent? at link
  cases found : f.slot? c with
  | none =>
    rw [found] at link
    cases link
  | some slot => exact contains_iff.2 ⟨slot, found⟩

theorem contains_of_mem_children (link : c ∈ f.children p) : f.contains p := by
  obtain ⟨slot, found, -⟩ := exists_slot_of_mem_children link
  exact contains_iff.2 ⟨slot, found⟩

/-- Every link from a parent to a child is a link back, and leads to a larger name. -/
structure Grown (f : Forest) : Prop where
  back : ∀ p c, c ∈ f.children p → f.parent? c = some p
  lt : ∀ p c, c ∈ f.children p → p.index < c.index
  nodup : ∀ p, (f.children p).Nodup

/-- A node that stands below no other. -/
def IsRoot (f : Forest) (id : NodeId) : Prop := ∃ slot, f.slot? id = some slot ∧ slot.parent = none

theorem IsRoot.parent? (h : f.IsRoot k) : f.parent? k = none := by
  obtain ⟨slot, found, none⟩ := h
  rw [parent?_eq found, none]

theorem isRoot_iff : f.IsRoot k ↔ f.contains k ∧ f.parent? k = none := by
  constructor
  · intro root
    have free := root.parent?
    obtain ⟨slot, found, -⟩ := root
    exact ⟨contains_iff.2 ⟨slot, found⟩, free⟩
  · rintro ⟨live, free⟩
    obtain ⟨slot, found⟩ := contains_iff.1 live
    exact ⟨slot, found, by rw [← free, parent?_eq found]⟩

theorem IsRoot.lt_size (h : f.IsRoot k) : k.index < f.slots.size := by
  obtain ⟨slot, found, -⟩ := h
  exact lt_size_of_slot? found

theorem IsRoot.congr (h : f.IsRoot k) (same : g.slot? k = f.slot? k) : g.IsRoot k := by
  obtain ⟨slot, found, none⟩ := h
  exact ⟨slot, same.trans found, none⟩

/-- A node and all that is below it. -/
def Below (f : Forest) : NodeId → NodeId → Prop :=
  Relation.ReflTransGen fun p c => c ∈ f.children p

theorem Grown.index_le (grown : f.Grown) (h : f.Below a k) : a.index ≤ k.index := by
  induction h with
  | refl => exact Nat.le_refl _
  | tail _ link ih => exact Nat.le_trans ih (Nat.le_of_lt (grown.lt _ _ link))

/-- Every link from a parent to a child is a link back, and no way down leads round. -/
structure Ordered (f : Forest) : Prop where
  back : ∀ p c, c ∈ f.children p → f.parent? c = some p
  acyclic : ∀ p c, c ∈ f.children p → ¬f.Below c p

namespace Ordered

section

variable (ordered : f.Ordered)

include ordered

theorem exists_slot (h : c ∈ f.children p) :
    ∃ slot, f.slot? c = some slot ∧ slot.parent = some p :=
  exists_slot_of_parent? (ordered.back p c h)

/-- A root is nobody's child. -/
theorem not_mem_children (root : f.parent? k = none) : k ∉ f.children p := by
  intro member
  rw [ordered.back p k member] at root
  cases root

theorem exists_slot_of_below (ha : f.slot? a = some slot) (below : f.Below a k) :
    ∃ slot, f.slot? k = some slot := by
  rcases Relation.ReflTransGen.cases_tail below with same | ⟨p, -, link⟩
  · subst same
    exact ⟨slot, ha⟩
  · obtain ⟨slot, found, -⟩ := ordered.exists_slot link
    exact ⟨slot, found⟩

/-- Nothing is above a root. -/
theorem eq_of_below_root (root : f.parent? k = none) (below : f.Below a k) : a = k := by
  rcases Relation.ReflTransGen.cases_tail below with same | ⟨p, -, link⟩
  · exact same.symm
  · exact absurd link (ordered.not_mem_children root)

/-- Two roots have nothing below them in common. -/
theorem eq_of_below (ha : f.parent? a = none) (hb : f.parent? b = none) (h : f.Below a k)
    (h' : f.Below b k) : a = b := by
  induction h with
  | refl => exact (ordered.eq_of_below_root ha h').symm
  | tail _ link ih =>
    rcases Relation.ReflTransGen.cases_tail h' with same | ⟨p, below, link'⟩
    · subst same
      exact absurd link (ordered.not_mem_children hb)
    · have same := (ordered.back _ _ link).symm.trans (ordered.back _ _ link')
      cases same
      exact ih below

end

end Ordered

theorem Grown.ordered (grown : f.Grown) : f.Ordered where
  back := grown.back
  acyclic p c link below := by
    have lt := grown.lt p c link
    have le := grown.index_le below
    omega

theorem Grown.exists_slot (grown : f.Grown) (h : c ∈ f.children p) :
    ∃ slot, f.slot? c = some slot ∧ slot.parent = some p := grown.ordered.exists_slot h

theorem Grown.child_lt_size (grown : f.Grown) (h : c ∈ f.children p) :
    c.index < f.slots.size := by
  obtain ⟨slot, found, -⟩ := grown.exists_slot h
  exact lt_size_of_slot? found

section Presence

variable (id : NodeId)

theorem contains_modifySlot (change : Slot → Slot) :
    (f.modifySlot id change).contains k = f.contains k := by
  rw [contains, slot?_modifySlot, contains]
  split
  · rw [Option.isSome_map]
  · rfl

@[simp] theorem contains_setChildren (change : List NodeId → List NodeId) :
    (f.setChildren id change).contains k = f.contains k := contains_modifySlot id _

@[simp] theorem contains_setParent (parent : Option NodeId) :
    (f.setParent id parent).contains k = f.contains k := contains_modifySlot id _

@[simp] theorem contains_detach : (f.detach c).contains k = f.contains k := by
  unfold detach
  split
  · simp
  · rfl

@[simp] theorem contains_insertAt {index : Nat} :
    (f.insertAt p index c).contains k = f.contains k := by
  simp [insertAt]

theorem get?_setChildren (change : List NodeId → List NodeId) :
    (f.setChildren id change).get? k = f.get? k := by
  rw [get?, setChildren, slot?_modifySlot, get?]
  split
  · rw [Option.map_map]
    rfl
  · rfl

theorem get?_setParent (parent : Option NodeId) : (f.setParent id parent).get? k = f.get? k := by
  rw [get?, setParent, slot?_modifySlot, get?]
  split
  · rw [Option.map_map]
    rfl
  · rfl

theorem get?_detach : (f.detach c).get? k = f.get? k := by
  unfold detach
  split
  · rw [get?_setChildren, get?_setParent]
  · rfl

/-- Links are no concern of the nodes. -/
theorem get?_insertAt {index : Nat} : (f.insertAt p index c).get? k = f.get? k := by
  rw [insertAt, get?_setChildren, get?_setParent, get?_detach]

end Presence

section Moving

variable (id : NodeId) (change : List NodeId → List NodeId) (parent : Option NodeId)

@[simp] theorem parent?_setChildren : (f.setChildren id change).parent? k = f.parent? k := by
  rw [parent?, setChildren, slot?_modifySlot, parent?]
  split
  · cases f.slot? k <;> rfl
  · rfl

@[simp] theorem children_setParent : (f.setParent id parent).children k = f.children k := by
  rw [children, setParent, slot?_modifySlot, children]
  by_cases same : k = id
  · rw [if_pos same]
    cases f.slot? k <;> rfl
  · rw [if_neg same]

variable {id}

theorem parent?_setParent (live : f.contains id) :
    (f.setParent id parent).parent? k = if k = id then parent else f.parent? k := by
  obtain ⟨slot, found⟩ := contains_iff.1 live
  rw [parent?, setParent, slot?_modifySlot]
  split
  · simp [*]
  · rfl

theorem children_setChildren (still : f.contains id ∨ change [] = []) :
    (f.setChildren id change).children k =
      if k = id then change (f.children k) else f.children k := by
  rw [children, setChildren, slot?_modifySlot]
  by_cases same : k = id
  · subst same
    rw [if_pos rfl, if_pos rfl, children]
    cases found : f.slot? k with
    | none => exact (still.resolve_left (by simp [contains, found])).symm
    | some => rfl
  · rw [if_neg same, if_neg same, children]

@[simp] theorem parent?_detach : (f.detach c).parent? k = if k = c then none else f.parent? k := by
  cases link : f.parent? c with
  | none =>
    rw [detach, link]
    by_cases same : k = c
    · rw [if_pos same, same, link]
    · rw [if_neg same]
  | some p =>
    rw [detach, link]
    dsimp only
    rw [parent?_setChildren, parent?_setParent _ (contains_of_parent? link)]

theorem parent?_of_detach (link : (f.detach c).parent? k = some p) : f.parent? k = some p := by
  rw [parent?_detach] at link
  split at link
  · cases link
  · exact link

/-- Only the parent of a detached node loses anything. -/
theorem slot?_detach (other : k ≠ c) :
    (f.detach c).slot? k = if f.parent? c = some k
      then (f.slot? k).map fun slot => { slot with children := slot.children.filter (· ≠ c) }
      else f.slot? k := by
  cases link : f.parent? c with
  | none => simp [detach, link]
  | some p =>
    simp [detach, link, setChildren, setParent, slot?_modifySlot, other, eq_comm (a := p)]

theorem Ordered.children_detach (ordered : f.Ordered) :
    (f.detach c).children p = (f.children p).filter (· ≠ c) := by
  have apart (other : f.parent? c ≠ some p) : (f.children p).filter (· ≠ c) = f.children p := by
    apply List.filter_eq_self.2
    intro k member
    simp only [decide_eq_true_eq]
    rintro rfl
    exact other (ordered.back p k member)
  cases link : f.parent? c with
  | none =>
    rw [detach, link]
    exact (apart (by simp [link])).symm
  | some q =>
    rw [detach, link]
    dsimp only
    rw [children_setChildren _ (.inr List.filter_nil), children_setParent]
    split
    · rfl
    · refine (apart ?_).symm
      rw [link]
      simpa [eq_comm] using ‹¬p = q›

/-- Detaching a node cuts nothing below it. -/
theorem Ordered.below_detach (ordered : f.Ordered) : (f.detach c).Below c k ↔ f.Below c k := by
  constructor
  · refine Relation.ReflTransGen.mono (fun p k link => ?_) _ _
    rw [ordered.children_detach] at link
    exact (List.mem_filter.1 link).1
  · intro below
    induction below with
    | refl => exact .refl
    | @tail p k above link ih =>
      refine ih.tail ?_
      have other : k ≠ c := by
        rintro rfl
        exact ordered.acyclic p k link above
      simpa [ordered.children_detach, other] using link

theorem isRoot_detach (live : f.contains c) : (f.detach c).IsRoot c :=
  isRoot_iff.2 (by simp [live])

theorem IsRoot.detach (isRoot : f.IsRoot k) : (f.detach c).IsRoot k := by
  obtain ⟨live, free⟩ := isRoot_iff.1 isRoot
  exact isRoot_iff.2 (by simp [live, free])

theorem Grown.detach (grown : f.Grown) : (f.detach c).Grown where
  back p k link := by
    rw [grown.ordered.children_detach, List.mem_filter] at link
    rw [parent?_detach, if_neg (by simpa using link.2), grown.back p k link.1]
  lt p k link := by
    rw [grown.ordered.children_detach] at link
    exact grown.lt p k (List.mem_filter.1 link).1
  nodup p := by
    rw [grown.ordered.children_detach]
    exact (grown.nodup p).filter _

theorem parent?_insertAt {index : Nat} (live : f.contains c) :
    (f.insertAt p index c).parent? k = if k = c then some p else f.parent? k := by
  rw [insertAt, parent?_setChildren, parent?_setParent _ (by simpa using live), parent?_detach]
  split <;> rfl

@[simp] theorem size_detach : (f.detach c).slots.size = f.slots.size := by
  unfold detach
  split
  · simp [setChildren, setParent]
  · rfl

@[simp] theorem size_insertAt {index : Nat} : (f.insertAt p index c).slots.size = f.slots.size := by
  simp [insertAt, setChildren, setParent]

end Moving

section Modify

variable (id : NodeId) (change : Node → Node)

theorem slot?_modify : (f.modify id change).slot? k =
    if k = id then (f.slot? k).map fun slot => { slot with node := change slot.node }
    else f.slot? k := slot?_modifySlot id _

theorem get?_modify : (f.modify id change).get? k =
    if k = id then (f.get? k).map change else f.get? k := by
  rw [get?, slot?_modify, get?]
  split
  · rw [Option.map_map, Option.map_map]
    rfl
  · rfl

@[simp] theorem size_modify : (f.modify id change).slots.size = f.slots.size := size_modifySlot id _

@[simp] theorem children_modify : (f.modify id change).children k = f.children k := by
  rw [children, slot?_modify, children]
  by_cases same : k = id
  · rw [if_pos same]
    cases f.slot? k <;> rfl
  · rw [if_neg same]

@[simp] theorem parent?_modify : (f.modify id change).parent? k = f.parent? k := by
  rw [parent?, slot?_modify, parent?]
  split
  · cases f.slot? k <;> rfl
  · rfl

theorem isRoot_modify : (f.modify id change).IsRoot k ↔ f.IsRoot k := by
  unfold IsRoot
  rw [slot?_modify]
  split
  · cases f.slot? k <;> simp
  · rfl

theorem Grown.modify (grown : f.Grown) : (f.modify id change).Grown where
  back p c link := by
    rw [children_modify] at link
    rw [parent?_modify]
    exact grown.back p c link
  lt p c link := by
    rw [children_modify] at link
    exact grown.lt p c link
  nodup p := by
    rw [children_modify]
    exact grown.nodup p

end Modify

end Forest

end TemplateMarkup
