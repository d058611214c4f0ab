import TemplateMarkup.Proofs.EditedTrees
import TemplateMarkup.Proofs.ForestOperations
import TemplateMarkup.Proofs.InsertedProperties

/-! Edits of elements as edits of a list. An edit takes a subtree out of the list or puts copies into
it, at the place that it names, and leaves every other node of the forest alone; an edit that names
no place leaves all of them alone. -/
namespace TemplateMarkup

namespace Forest

variable {f g h : Forest} {a c k : NodeId} {ids copies old front back : List NodeId}

/-- Different nodes that stand on their own outside the document. -/
structure Detached (f : Forest) (ids : List NodeId) : Prop extends f.Roots ids where
  outside : root ∉ ids

theorem Detached.ne_root (detached : f.Detached ids) (member : a ∈ ids) : a ≠ root := by
  rintro rfl
  exact detached.outside member

section Removing

theorem Erases.none_of_none (erases : f.Erases old g) (gone : f.slot? k = none) :
    g.slot? k = none := by
  by_cases below : ∃ q ∈ old, f.Below q k
  · exact erases.gone k below
  · rw [erases.kept k fun q member under => below ⟨q, member, under⟩, gone]

theorem Linked.erases_root (linked : f.Linked) (isRoot : f.IsRoot a) (other : a ≠ root) :
    f.Erases [a] (f.remove a).2 := by
  have erases := linked.erases_remove other (isRoot_iff.1 isRoot).1
  rwa [detach_of_isRoot isRoot] at erases

theorem Linked.erases_removeAll (linked : f.Linked) (detached : f.Detached ids) :
    f.Erases ids (removeAll ids f) ∧ (removeAll ids f).Linked := by
  induction ids generalizing f with
  | nil => exact ⟨⟨by simp, fun _ _ => rfl⟩, linked⟩
  | cons id ids ih =>
    have first := linked.erases_root (detached.isRoot id (.head _)) (detached.ne_root (.head _))
    have roots : f.Roots ([id] ++ ids) := detached.toRoots
    have spares := first.spares linked.ordered roots
    have rest : (f.remove id).2.Detached ids :=
      ⟨⟨(List.nodup_cons.1 detached.nodup).2, fun q member =>
        (spares q member).isRoot (detached.isRoot q (.tail _ member))⟩,
        fun member => detached.outside (.tail _ member)⟩
    obtain ⟨erases, last⟩ := ih (linked.remove id) rest
    refine ⟨⟨?_, fun k apart => ?_⟩, last⟩
    · rintro k ⟨q, member, below⟩
      rcases List.mem_cons.1 member with rfl | member
      · exact erases.none_of_none (first.gone k ⟨q, .head _, below⟩)
      · exact erases.gone k ⟨q, member, (spares q member).below below⟩
    · rw [removeAll, erases.kept k, first.kept k]
      · intro q member
        rw [List.mem_singleton.1 member]
        exact apart id (.head _)
      · intro q member below
        exact apart q (.tail _ member) ((spares q member).below_iff.1 below)

end Removing

section Copying

/-- Copies of nodes that are there stand on their own behind all that was there, and all that is new
is part of them. -/
structure CopiesOf (f : Forest) (ids : List NodeId) (g : Forest) (copies : List NodeId) :
    Prop where
  linked : g.Linked
  extend : f.Extends g
  roots : g.Roots copies
  new : ∀ c ∈ copies, f.slots.size ≤ c.index
  below : ∀ k, f.slots.size ≤ k.index → g.contains k → ∃ c ∈ copies, g.Below c k
  shown : copies.map g.tree? = ids.map f.tree?

theorem not_contains_of_size_le (new : f.slots.size ≤ k.index) : ¬f.contains k := by
  rw [contains, slot?_of_size_le new]
  simp

theorem Linked.copiesOf_nil (linked : f.Linked) : f.CopiesOf [] f [] :=
  ⟨linked, .refl f, ⟨List.nodup_nil, by simp⟩, by simp,
    fun _ new live => absurd live (not_contains_of_size_le new), rfl⟩

theorem CopiesOf.cons {middle : Forest} (fresh : f.Fresh middle ⟨f.slots.size⟩)
    (ordered : f.Ordered) (linked : middle.Linked)
    (shown : middle.tree? ⟨f.slots.size⟩ = f.tree? a) (there : ∀ id ∈ ids, f.contains id)
    (rest : middle.CopiesOf ids g copies) :
    f.CopiesOf (a :: ids) g (⟨f.slots.size⟩ :: copies) := by
  have made : f.slots.size < middle.slots.size := fresh.root.lt_size
  have kept := rest.extend.slots _ made
  constructor
  · exact rest.linked
  · exact fresh.extend.trans rest.extend
  · refine ⟨List.nodup_cons.2 ⟨fun member => ?_, rest.roots.nodup⟩, fun c member => ?_⟩
    · have : middle.slots.size ≤ f.slots.size := rest.new _ member
      omega
    · rcases List.mem_cons.1 member with rfl | member
      · exact fresh.root.congr kept
      · exact rest.roots.isRoot c member
  · intro c member
    rcases List.mem_cons.1 member with rfl | member
    · exact Nat.le_refl _
    · have := rest.new c member
      omega
  · intro k new live
    by_cases early : k.index < middle.slots.size
    · rw [contains, rest.extend.slots k early] at live
      exact ⟨_, .head _, rest.extend.below (fresh.below k new live)⟩
    · obtain ⟨c, member, below⟩ := rest.below k (by omega) live
      exact ⟨c, .tail _ member, below⟩
  · obtain ⟨slot, found, -⟩ := fresh.root
    have top := linked.ordered.tree?_of_spares rest.linked.ordered
      (rest.extend.spares_of_ordered linked.ordered found)
    have others : ids.map middle.tree? = ids.map f.tree? := by
      refine List.map_congr_left fun id member => ?_
      obtain ⟨slot, found⟩ := contains_iff.1 (there id member)
      exact ordered.tree?_of_spares linked.ordered (fresh.extend.spares_of_ordered ordered found)
    rw [List.map_cons, List.map_cons, top, shown, rest.shown, others]

theorem Linked.copiesOf_copyAll (linked : f.Linked) (there : ∀ id ∈ ids, f.contains id) :
    f.CopiesOf ids (copyAll ids f).2 (copyAll ids f).1 := by
  induction ids generalizing f with
  | nil => exact linked.copiesOf_nil
  | cons id ids ih =>
    obtain ⟨slot, found⟩ := contains_iff.1 (there id (.head _))
    have whole := linked.ordered.tree?_of_slot? found
    obtain ⟨g, run, fresh, linked', shown⟩ := linked_copyable.copy linked whole
    have others : ∀ id ∈ ids, f.contains id := fun id member => there id (.tail _ member)
    have rest := ih linked' fun id member => by
      obtain ⟨slot, found⟩ := contains_iff.1 (others id member)
      rw [contains, fresh.extend.slots id (lt_size_of_slot? found), found]
      rfl
    have all : copyAll (id :: ids) f =
        (⟨f.slots.size⟩ :: (copyAll ids g).1, (copyAll ids g).2) := by
      rw [copyAll, run]
      rfl
    rw [all]
    exact rest.cons fresh linked.ordered linked' (shown.trans whole.symm) others

end Copying

section Exchanging

/-- Some nodes are gone with all that was below them, others are new with all that is below them,
and no other node is new, gone or changed. -/
structure Exchanges (f : Forest) (old : List NodeId) (g : Forest) (new : List NodeId) : Prop where
  gone : ∀ k, (∃ r ∈ old, f.Below r k) → g.slot? k = none
  kept : ∀ k, k.index < f.slots.size → (∀ r ∈ old, ¬f.Below r k) → g.slot? k = f.slot? k
  fresh : ∀ c ∈ new, f.slots.size ≤ c.index
  made : ∀ k, f.slots.size ≤ k.index → (g.contains k ↔ ∃ c ∈ new, g.Below c k)

theorem CopiesOf.roots_append (copied : f.CopiesOf ids g copies) (roots : f.Roots old) :
    g.Roots (old ++ copies) := by
  refine ⟨List.nodup_append.2 ⟨roots.nodup, copied.roots.nodup, ?_⟩, fun id member => ?_⟩
  · rintro r was c new rfl
    have := (roots.isRoot r was).lt_size
    have := copied.new r new
    omega
  · rcases List.mem_append.1 member with was | new
    · have root := roots.isRoot id was
      exact root.congr (copied.extend.slots id root.lt_size)
    · exact copied.roots.isRoot id new

theorem CopiesOf.exchanges (copied : f.CopiesOf ids g copies) (linked : f.Linked)
    (roots : f.Roots old) (erases : g.Erases old h) (ordered : h.Ordered) :
    f.Exchanges old h copies := by
  have both := copied.roots_append roots
  have spares := erases.spares copied.linked.ordered both
  constructor
  · rintro k ⟨r, member, below⟩
    exact erases.gone k ⟨r, member, copied.extend.below below⟩
  · intro k early apart
    rw [erases.kept k, copied.extend.slots k early]
    intro r member below
    obtain ⟨slot, found, -⟩ := roots.isRoot r member
    exact apart r member
      ((copied.extend.spares_of_ordered linked.ordered found).below_iff.1 below)
  · exact copied.new
  · intro k new
    constructor
    · intro live
      rw [contains, erases.slot?_of_contains live] at live
      obtain ⟨c, member, below⟩ := copied.below k new live
      exact ⟨c, member, (spares c member).below below⟩
    · rintro ⟨c, member, below⟩
      obtain ⟨slot, found, -⟩ := (spares c member).isRoot (copied.roots.isRoot c member)
      exact contains_iff.2 (ordered.exists_slot_of_below found below)

theorem Exchanges.spares {new : List NodeId} (exchanges : f.Exchanges old g new)
    (ordered : f.Ordered) (roots : f.Roots (old ++ ids)) : ∀ id ∈ ids, f.Spares g id := by
  intro id member k below
  obtain ⟨slot, found, -⟩ := roots.right.isRoot id member
  obtain ⟨slot, found⟩ := ordered.exists_slot_of_below found below
  refine exchanges.kept k (lt_size_of_slot? found) fun q removed below' => ?_
  have same := ordered.eq_of_below (roots.left.isRoot q removed).parent?
    (roots.right.isRoot id member).parent? below' below
  exact (List.nodup_append.1 roots.nodup).2.2 q removed id member same

/-- A stretch of a list of subtrees gives way to copies. -/
theorem CopiesOf.splice (copied : f.CopiesOf ids g copies) (linked : f.Linked)
    (detached : f.Detached (front ++ old ++ back)) (erases : g.Erases old h)
    (linked' : h.Linked) :
    f.Exchanges old h copies ∧ h.Detached (front ++ copies ++ back) ∧
      (front ++ copies ++ back).map h.tree? = (front ++ ids ++ back).map f.tree? := by
  have apart : f.Roots (old ++ (front ++ back)) := by
    refine detached.toRoots.perm ?_
    rw [List.append_assoc]
    exact List.perm_append_comm_assoc front old back
  have exchanges := copied.exchanges linked apart.left erases linked'.ordered
  have stay := exchanges.spares linked.ordered apart
  have spares := erases.spares copied.linked.ordered (copied.roots_append apart.left)
  have roots : h.Roots ((front ++ back) ++ copies) := by
    refine ⟨(copied.roots_append apart.right).nodup, fun id member => ?_⟩
    rcases List.mem_append.1 member with was | new
    · exact (stay id was).isRoot (apart.right.isRoot id was)
    · exact (spares id new).isRoot (copied.roots.isRoot id new)
  refine ⟨exchanges, ⟨roots.perm ?_, fun member => ?_⟩, ?_⟩
  · rw [List.append_assoc, List.append_assoc]
    exact List.perm_append_comm.append_left front
  · have early : root.index < f.slots.size := linked.top.lt_size
    rw [List.append_assoc, List.mem_append, List.mem_append] at member
    have outside := detached.outside
    rw [List.append_assoc, List.mem_append, List.mem_append] at outside
    rcases member with was | new | was
    · exact outside (.inl was)
    · have := copied.new root new
      omega
    · exact outside (.inr (.inr was))
  · have same : ∀ id ∈ front ++ back, h.tree? id = f.tree? id := fun id member =>
      linked.ordered.tree?_of_spares linked'.ordered (stay id member)
    have brought : copies.map h.tree? = ids.map f.tree? := by
      rw [← copied.shown]
      exact List.map_congr_left fun c member =>
        copied.linked.ordered.tree?_of_spares linked'.ordered (spares c member)
    simp only [List.map_append, brought]
    rw [List.map_congr_left fun id member => same id (List.mem_append_left back member),
      List.map_congr_left fun id member => same id (List.mem_append_right front member)]

/-- Copies that are removed again leave no trace. -/
theorem CopiesOf.slot?_removeAll (copied : f.CopiesOf ids g copies) (linked : f.Linked) :
    (∀ k, (removeAll copies g).slot? k = f.slot? k) ∧ (removeAll copies g).Linked := by
  have early : root.index < f.slots.size := linked.top.lt_size
  have detached : g.Detached copies := by
    refine ⟨copied.roots, fun member => ?_⟩
    have := copied.new root member
    omega
  obtain ⟨erases, linked'⟩ := copied.linked.erases_removeAll detached
  refine ⟨fun k => ?_, linked'⟩
  by_cases early : k.index < f.slots.size
  · rw [erases.kept k, copied.extend.slots k early]
    intro c member below
    have := copied.extend.size_le_of_below linked copied.linked.ordered (copied.new c member) below
    omega
  · rw [slot?_of_size_le (by omega : f.slots.size ≤ k.index)]
    by_cases live : g.contains k
    · exact erases.gone k (copied.below k (by omega) live)
    · exact erases.none_of_none (Option.not_isSome_iff_eq_none.1 live)

end Exchanging

section Addressing

/-- A target points at a node that stands behind `front` in a list: the node has the tag, and so
have as many nodes before it as the number of the target says, where numbers begin with `first`. A
target without a number points at the first node with the tag. -/
@[mk_iff addresses_iff]
structure Addresses (f : Forest) (first : Nat) (target : Target) (front : List NodeId)
    (id : NodeId) : Prop where
  tag : f.hasTag target.name id
  counted : ∀ index ∈ target.index, first ≤ index
  ordinal : front.countP (f.hasTag target.name) = target.index.getD first - first

/-- No node of a list is what a target points at. -/
def Unaddressed (f : Forest) (first : Nat) (target : Target) (ids : List NodeId) : Prop :=
  ∀ front id back, ids = front ++ id :: back → ¬f.Addresses first target front id

private theorem exists_split_cons {α : Type} {x : α} {xs : List α} {q : List α → α → Prop} :
    (∃ front y back, x :: xs = front ++ y :: back ∧ q front y) ↔
      q [] x ∨ ∃ front y back, xs = front ++ y :: back ∧ q (x :: front) y := by
  constructor
  · rintro ⟨front, y, back, split, here⟩
    cases front with
    | nil =>
      cases split
      exact .inl here
    | cons z front =>
      obtain ⟨rfl, rest⟩ := List.cons.inj split
      exact .inr ⟨front, y, back, rest, here⟩
  · rintro (here | ⟨front, y, back, rfl, here⟩)
    · exact ⟨[], x, xs, rfl, here⟩
    · exact ⟨x :: front, y, back, rfl, here⟩

/-- The places of the members that satisfy `p`, counted from zero. -/
theorem hit_iff {α : Type} {p : α → Bool} {xs : List α} {start n index : Nat} :
    ((((xs.map p).zipIdx start).filter Prod.fst)[n]?).map Prod.snd = some index ↔
      ∃ front x back, xs = front ++ x :: back ∧ start + front.length = index ∧ p x ∧
        front.countP p = n := by
  induction xs generalizing start n with
  | nil => simp
  | cons x xs ih =>
    rw [List.map_cons, List.zipIdx_cons, List.filter_cons, exists_split_cons]
    by_cases hit : p x
    · rw [if_pos hit]
      cases n with
      | zero => simp [hit]
      | succ n =>
        rw [List.getElem?_cons_succ, ih]
        simp [hit, Nat.add_comm, Nat.add_left_comm]
    · rw [if_neg hit, ih]
      simp [hit, Nat.add_comm, Nat.add_left_comm]

theorem findElement?_eq_some_iff {first index : Nat} {target : Target} :
    Content.findElement? f first ids target = some index ↔
      ∃ front id back, ids = front ++ id :: back ∧ front.length = index ∧
        f.Addresses first target front id := by
  rw [findElement?_eq]
  unfold placeOf
  cases number : target.index with
  | none =>
    refine hit_iff.trans ?_
    simp [addresses_iff, number]
  | some i =>
    dsimp only
    split
    · rename_i early
      simp [addresses_iff, number, Nat.not_le.2 early]
    · rename_i late
      refine hit_iff.trans ?_
      simp [addresses_iff, number, Nat.not_lt.1 late]

theorem findElement?_eq_none_iff {first : Nat} {target : Target} :
    Content.findElement? f first ids target = none ↔ f.Unaddressed first target ids := by
  rw [Option.eq_none_iff_forall_ne_some]
  constructor
  · rintro none front id back split here
    exact none _ (findElement?_eq_some_iff.2 ⟨front, id, back, split, rfl, here⟩)
  · intro none index found
    obtain ⟨front, id, back, split, -, here⟩ := findElement?_eq_some_iff.1 found
    exact none front id back split here

theorem findElement?_congr (same : ∀ id ∈ ids, g.get? id = f.get? id) (first : Nat)
    (target : Target) :
    Content.findElement? g first ids target = Content.findElement? f first ids target := by
  rw [findElement?_eq, findElement?_eq]
  exact congrArg _ (List.map_congr_left fun id member => by rw [hasTag, hasTag, same id member])

end Addressing

end Forest

namespace EditState

/-- Element content whose elements stand on their own, in a forest whose links agree. -/
structure Sound (state : EditState) : Prop where
  linked : state.forest.Linked
  detached : state.forest.Detached state.content.elements
  type : state.content.type = .element

/-- In the list of elements copies of `nodes` take the place of `old`, between `front` and
`back`. -/
structure Replaces (before : EditState) (front old nodes back : List NodeId)
    (after : EditState) : Prop where
  split : before.content.elements = front ++ old ++ back
  content : ∃ copies,
    after.content = { before.content with elements := front ++ copies ++ back } ∧
      before.forest.Exchanges old after.forest copies
  shown : after.content.elements.map after.forest.tree? =
    (front ++ nodes ++ back).map before.forest.tree?
  warnings : after.warnings = before.warnings

/-- Nothing happens but a warning. -/
structure Misses (before : EditState) (warning : ResolveWarning) (after : EditState) : Prop where
  content : after.content = before.content
  slots : ∀ k, after.forest.slot? k = before.forest.slot? k
  warnings : after.warnings = warning :: before.warnings

/-- What edits do to element content. -/
inductive Edits (first : Nat) (site : EditSite) : Edit → EditState → EditState → Prop
  | deleted {before after : EditState} {target : Target} {front back : List NodeId} {id : NodeId}
      (here : before.forest.Addresses first target front id)
      (replaces : before.Replaces front [id] [] back after) :
      Edits first site (.deleteElement target) before after
  | notDeleted {before after : EditState} {target : Target}
      (nowhere : before.forest.Unaddressed first target before.content.elements)
      (misses : before.Misses (.noElementAt site target) after) :
      Edits first site (.deleteElement target) before after
  | noName {before : EditState} : Edits first site (.deleteNames []) before before
  | nameDeleted {before between after : EditState} {name : String} {names : List String}
      {front back : List NodeId} {id : NodeId}
      (here : before.forest.Addresses first ⟨name, none⟩ front id)
      (replaces : before.Replaces front [id] [] back between)
      (rest : Edits first site (.deleteNames names) between after) :
      Edits first site (.deleteNames (name :: names)) before after
  | nameNotDeleted {before between after : EditState} {name : String} {names : List String}
      (nowhere : before.forest.Unaddressed first ⟨name, none⟩ before.content.elements)
      (misses : before.Misses (.noElementNamed site name) between)
      (rest : Edits first site (.deleteNames names) between after) :
      Edits first site (.deleteNames (name :: names)) before after
  | inserted {before after : EditState} {position : InsertPosition}
      {nodes front old back : List NodeId}
      (here : position.Divides (before.forest.Addresses first) front old back)
      (replaces : before.Replaces front old nodes back after) :
      Edits first site (.insert position (.elements nodes)) before after
  | notInserted {before after : EditState} {position : InsertPosition} {nodes : List NodeId}
      {target : Target} (points : position.target? = some target)
      (nowhere : before.forest.Unaddressed first target before.content.elements)
      (misses : before.Misses (.noElementToInsertAt site target) after) :
      Edits first site (.insert position (.elements nodes)) before after
  | unfit {before after : EditState} {position : InsertPosition}
      {properties : OrderedMap String Value}
      (misses : before.Misses (.payloadMismatch site .element) after) :
      Edits first site (.insert position (.properties properties)) before after
  | noParent {before after : EditState} {type : DefinitionType} {name : String}
      (misses : before.Misses (.parentAtUsage site type name) after) :
      Edits first site (.deleteParent type name) before after

variable {state before after : EditState} {front old nodes back : List NodeId}
  {warning : ResolveWarning} {first : Nat} {site : EditSite}

theorem Sound.warn (sound : state.Sound) (warning : ResolveWarning) :
    state.Misses warning (state.warn warning) ∧ (state.warn warning).Sound :=
  ⟨⟨rfl, fun _ => rfl, rfl⟩, sound.linked, sound.detached, sound.type⟩

variable {copied : Forest} {copies : List NodeId}

/-- The list that is left when copies are made and what they replace is removed. -/
theorem Sound.replaces (sound : state.Sound) (split : state.content.elements = front ++ old ++ back)
    {erased : Forest}
    (copies_of : state.forest.CopiesOf nodes copied copies) (erases : copied.Erases old erased)
    (linked : erased.Linked)
    (content : after.content = { state.content with elements := front ++ copies ++ back })
    (forest : after.forest = erased) (warnings : after.warnings = state.warnings) :
    state.Replaces front old nodes back after ∧ after.Sound := by
  have detached := sound.detached
  rw [split] at detached
  obtain ⟨exchanges, detached', shown⟩ := copies_of.splice sound.linked detached erases linked
  subst forest
  have elements : after.content.elements = front ++ copies ++ back := by rw [content]
  refine ⟨⟨split, ⟨copies, content, exchanges⟩, by rw [elements, shown], warnings⟩, linked, ?_, ?_⟩
  · rw [elements]
    exact detached'
  · rw [content]
    exact sound.type

theorem Sound.removeElement (sound : state.Sound) {id : NodeId}
    (split : state.content.elements = front ++ id :: back) :
    state.Replaces front [id] [] back (state.removeElement front.length) ∧
      (state.removeElement front.length).Sound := by
  have split' : state.content.elements = front ++ [id] ++ back := by simp [split]
  have member : id ∈ state.content.elements := by simp [split]
  have erases := sound.linked.erases_root (sound.detached.isRoot id member)
    (sound.detached.ne_root member)
  refine sound.replaces split' sound.linked.copiesOf_nil erases (sound.linked.remove id) ?_ ?_ rfl
  · simp [EditState.removeElement, split, List.eraseIdx_append_of_length_le]
  · simp [EditState.removeElement, split]

/-- Deletes what a target points at, or warns. -/
def deleteAt (state : EditState) (first : Nat) (target : Target) (warning : ResolveWarning) :
    EditState :=
  match Content.findElement? state.forest first state.content.elements target with
  | some index => state.removeElement index
  | none => state.warn warning

theorem Sound.deleteAt (sound : state.Sound) (first : Nat) (target : Target)
    (warning : ResolveWarning) :
    ((∃ front id back, state.forest.Addresses first target front id ∧
        state.Replaces front [id] [] back (state.deleteAt first target warning)) ∨
      state.forest.Unaddressed first target state.content.elements ∧
        state.Misses warning (state.deleteAt first target warning)) ∧
    (state.deleteAt first target warning).Sound := by
  unfold EditState.deleteAt
  cases search : Content.findElement? state.forest first state.content.elements target with
  | none =>
    obtain ⟨misses, sound'⟩ := sound.warn warning
    exact ⟨.inr ⟨Forest.findElement?_eq_none_iff.1 search, misses⟩, sound'⟩
  | some index =>
    obtain ⟨front, id, back, split, rfl, here⟩ := Forest.findElement?_eq_some_iff.1 search
    obtain ⟨replaces, sound'⟩ := sound.removeElement split
    exact ⟨.inl ⟨front, id, back, here, replaces⟩, sound'⟩

theorem Sound.deleteElement (sound : state.Sound) (first : Nat) (site : EditSite)
    (target : Target) :
    Edits first site (.deleteElement target) state (state.deleteElement first site target) ∧
      (state.deleteElement first site target).Sound := by
  have same : state.deleteElement first site target =
      state.deleteAt first target (.noElementAt site target) := rfl
  obtain ⟨⟨front, id, back, here, replaces⟩ | ⟨nowhere, misses⟩, sound'⟩ :=
    sound.deleteAt first target (.noElementAt site target)
  · exact ⟨.deleted here (same ▸ replaces), same ▸ sound'⟩
  · exact ⟨.notDeleted nowhere (same ▸ misses), same ▸ sound'⟩

theorem Sound.deleteNames (sound : state.Sound) (first : Nat) (site : EditSite)
    (names : List String) :
    let after := names.foldl (fun state name => state.deleteName first site name) state
    Edits first site (.deleteNames names) state after ∧ after.Sound := by
  induction names generalizing state with
  | nil => exact ⟨.noName, sound⟩
  | cons name names ih =>
    have same : state.deleteName first site name =
        state.deleteAt first ⟨name, none⟩ (.noElementNamed site name) := by
      rw [EditState.deleteName, if_pos sound.type]
      rfl
    intro after
    have after_eq : after = names.foldl (fun state name => state.deleteName first site name)
        (state.deleteAt first ⟨name, none⟩ (.noElementNamed site name)) := by
      rw [← same]
      rfl
    obtain ⟨step, sound'⟩ := sound.deleteAt first ⟨name, none⟩ (.noElementNamed site name)
    obtain ⟨rest, sound''⟩ := ih sound'
    rw [← after_eq] at rest sound''
    refine ⟨?_, sound''⟩
    rcases step with ⟨front, id, back, here, replaces⟩ | ⟨nowhere, misses⟩
    · exact .nameDeleted here replaces rest
    · exact .nameNotDeleted nowhere misses rest

/-- Where nothing is replaced, the copies are placed and nothing else happens. -/
theorem Sound.place (sound : state.Sound)
    (copies_of : state.forest.CopiesOf nodes copied copies) (front back : List NodeId)
    (split : state.content.elements = front ++ back) :
    let after := { state with forest := copied }.placeElements front.length copies
    state.Replaces front [] nodes back after ∧ after.Sound := by
  refine sound.replaces (by simpa using split) copies_of ⟨by simp, fun _ _ => rfl⟩
    copies_of.linked ?_ rfl rfl
  simp [placeElements, split]

theorem Sound.exchange (sound : state.Sound) {id : NodeId}
    (copies_of : state.forest.CopiesOf nodes copied copies)
    (split : state.content.elements = front ++ id :: back) :
    let after := ({ state with forest := copied }.removeElement front.length).placeElements
      front.length copies
    state.Replaces front [id] nodes back after ∧ after.Sound := by
  have split' : state.content.elements = front ++ [id] ++ back := by simp [split]
  have member : id ∈ state.content.elements := by simp [split]
  have roots := copies_of.roots_append sound.detached.toRoots
  have erases := copies_of.linked.erases_root (roots.left.isRoot id member)
    (sound.detached.ne_root member)
  refine sound.replaces split' copies_of erases (copies_of.linked.remove id) ?_ ?_ rfl
  · simp [placeElements, EditState.removeElement, split, List.eraseIdx_append_of_length_le]
  · simp [placeElements, EditState.removeElement, split]

theorem Sound.undo (sound : state.Sound)
    (copies_of : state.forest.CopiesOf nodes copied copies) (warning : ResolveWarning) :
    let after := { state with forest := Forest.removeAll copies copied }.warn warning
    state.Misses warning after ∧ after.Sound := by
  obtain ⟨slots, linked⟩ := copies_of.slot?_removeAll sound.linked
  exact ⟨⟨rfl, slots, rfl⟩, linked, ⟨⟨sound.detached.nodup, fun id member =>
    (sound.detached.isRoot id member).congr (slots id)⟩, sound.detached.outside⟩, sound.type⟩

/-- Copies are put where the position says, or made and removed again. -/
theorem Sound.insertElements (sound : state.Sound) (first : Nat) (site : EditSite)
    (position : InsertPosition) (there : ∀ id ∈ nodes, state.forest.contains id) :
    let after := state.insertElements first site position nodes
    Edits first site (.insert position (.elements nodes)) state after ∧ after.Sound := by
  have copied := sound.linked.copiesOf_copyAll there
  have search (target : Target) : Content.findElement? (Forest.copyAll nodes state.forest).2 first
      state.content.elements target =
      Content.findElement? state.forest first state.content.elements target := by
    refine Forest.findElement?_congr (fun id member => ?_) first target
    rw [Forest.get?, copied.extend.slots id (sound.detached.isRoot id member).lt_size, Forest.get?]
  have missed {target : Target} (points : position.target? = some target)
      (none : Content.findElement? state.forest first state.content.elements target = none) :
      let after := { state with
        forest := Forest.removeAll (Forest.copyAll nodes state.forest).1
          (Forest.copyAll nodes state.forest).2 }.warn (.noElementToInsertAt site target)
      Edits first site (.insert position (.elements nodes)) state after ∧ after.Sound :=
    (sound.undo copied _).imp_left (.notInserted points (Forest.findElement?_eq_none_iff.1 none))
  unfold EditState.insertElements
  cases position with
  | top => exact (sound.place copied [] _ rfl).imp_left (.inserted .top)
  | bottom =>
    exact (sound.place copied _ [] (List.append_nil _).symm).imp_left (.inserted .bottom)
  | before target =>
    dsimp only
    rw [search]
    cases found : Content.findElement? state.forest first state.content.elements target with
    | none => exact missed rfl found
    | some index =>
      obtain ⟨front, id, back, split, rfl, here⟩ := Forest.findElement?_eq_some_iff.1 found
      exact (sound.place copied _ _ split).imp_left (.inserted (.before here))
  | after target =>
    dsimp only
    rw [search]
    cases found : Content.findElement? state.forest first state.content.elements target with
    | none => exact missed rfl found
    | some index =>
      obtain ⟨front, id, back, split, rfl, here⟩ := Forest.findElement?_eq_some_iff.1 found
      have placed := sound.place copied (front ++ [id]) back (by simp [split])
      rw [List.length_append] at placed
      exact placed.imp_left (.inserted (.after here))
  | replace target =>
    dsimp only
    rw [search]
    cases found : Content.findElement? state.forest first state.content.elements target with
    | none => exact missed rfl found
    | some index =>
      obtain ⟨front, id, back, split, rfl, here⟩ := Forest.findElement?_eq_some_iff.1 found
      exact (sound.exchange copied split).imp_left (.inserted (.replace here))

/-- One edit of element content does to the list of elements and to the forest what `Edits` says,
and leaves content behind that can be edited again. -/
theorem apply_edits (state : EditState) (sound : state.Sound) (first : Nat) (site : EditSite)
    (edit : Edit) (there : ∀ id ∈ edit.payload, state.forest.contains id) :
    Edits first site edit state (state.apply first site edit) ∧
      (state.apply first site edit).Sound := by
  cases edit with
  | deleteNames names => exact sound.deleteNames first site names
  | deleteElement target => exact sound.deleteElement first site target
  | deleteParent type name => exact (sound.warn _).imp_left .noParent
  | insert position payload =>
    cases payload with
    | elements nodes =>
      rw [apply, if_pos sound.type]
      exact sound.insertElements first site position there
    | properties properties =>
      rw [apply, if_pos sound.type, sound.type]
      exact (sound.warn _).imp_left .unfit

/-- Where numbers begin with one, `div[2]` is the second of the `div` elements; what stands between
them is not counted. -/
theorem apply_edits_second :
    let box (name : String) : Node := { kind := .element, name }
    let operations : List Forest.Operation := [.insertDetached (box "div"),
      .insertDetached (box "span"), .insertDetached (box "div"), .insertChild ⟨1⟩ (box "em"),
      .insertChild Forest.root (box "p"), .insertChild ⟨5⟩ { kind := .text }]
    let forest := Forest.runAll operations .empty
    let state : EditState := { content := { type := .element, elements := [⟨1⟩, ⟨2⟩, ⟨3⟩] }, forest }
    let site := EditSite.definition
      { kind := .custom, type := .element, name := { scope := "", name := "Box" } }
    let edit := Edit.insert (.replace ⟨"div", some 2⟩) (.elements [⟨5⟩])
    let after := state.apply 1 site edit
    state.Sound ∧ (∀ id ∈ edit.payload, forest.contains id) ∧
      after.content.elements = [⟨1⟩, ⟨2⟩, ⟨7⟩] ∧ after.forest.contains ⟨3⟩ = false ∧
      after.forest.children ⟨7⟩ = [⟨8⟩] ∧ Edits 1 site edit state after := by
  intro box operations forest state site edit after
  have linked : forest.Linked := Forest.linked_empty.runAll
    (by decide +kernel : Forest.Along Forest.Operation.Proper operations .empty)
    (by decide +kernel : Forest.Along Forest.Operation.Aimed operations .empty)
  have roots : ∀ id ∈ state.content.elements, forest.contains id ∧ forest.parent? id = none := by
    decide +kernel
  have sound : state.Sound := by
    refine ⟨linked, ⟨⟨by decide, fun id member => ?_⟩, by decide⟩, rfl⟩
    exact Forest.isRoot_iff.2 (roots id member)
  have there : ∀ id ∈ edit.payload, forest.contains id := by decide +kernel
  exact ⟨sound, there, by decide +kernel, by decide +kernel, by decide +kernel,
    (apply_edits state sound 1 site edit there).1⟩

end EditState

end TemplateMarkup
