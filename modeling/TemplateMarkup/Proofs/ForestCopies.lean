import Mathlib.Data.List.Nodup
import TemplateMarkup.Proofs.ForestRoots

/-! Copies of subtrees, and subtrees that are put below a node. -/
namespace TemplateMarkup.Forest

variable {f g : Forest} {a c k p q r : NodeId} {slot : Slot} {index : Nat}

section Attaching

section

variable (root : f.IsRoot c)

include root

section

variable (ne : p ≠ c)

include ne

theorem slot?_insertAt :
    (f.insertAt p index c).slot? k =
      if k = c then (f.slot? k).map fun slot => { slot with parent := some p }
      else if k = p then (f.slot? k).map fun slot =>
        { slot with children := slot.children.take index ++ c :: slot.children.drop index }
      else f.slot? k := by
  rw [insertAt, detach_of_isRoot root, setChildren, setParent, slot?_modifySlot, slot?_modifySlot]
  by_cases child : k = c
  · subst child
    rw [if_neg (Ne.symm ne), if_pos rfl, if_pos rfl]
  · rw [if_neg child, if_neg child]

theorem slot?_insertAt_child :
    (f.insertAt p index c).slot? c =
      (f.slot? c).map fun slot => { slot with parent := some p } := by
  rw [slot?_insertAt root ne, if_pos rfl]

theorem slot?_insertAt_parent :
    (f.insertAt p index c).slot? p = (f.slot? p).map fun slot =>
      { slot with children := slot.children.take index ++ c :: slot.children.drop index } := by
  rw [slot?_insertAt root ne, if_neg ne, if_pos rfl]

theorem slot?_insertAt_other (hc : k ≠ c) (hp : k ≠ p) :
    (f.insertAt p index c).slot? k = f.slot? k := by
  rw [slot?_insertAt root ne, if_neg hc, if_neg hp]

theorem spares_insertAt (hp : ¬ f.Below r p) (hc : ¬ f.Below r c) :
    f.Spares (f.insertAt p index c) r := by
  intro k below
  refine slot?_insertAt_other root ne ?_ ?_
  · rintro rfl
    exact hc below
  · rintro rfl
    exact hp below

theorem isRoot_insertAt (isRoot : f.IsRoot r) (other : r ≠ c) :
    (f.insertAt p index c).IsRoot r := by
  obtain ⟨slot, found, free⟩ := isRoot
  unfold IsRoot
  rw [slot?_insertAt root ne, if_neg other, found]
  split
  · exact ⟨_, rfl, free⟩
  · exact ⟨slot, rfl, free⟩

theorem children_insertAt (hq : q ≠ p) : (f.insertAt p index c).children q = f.children q := by
  by_cases child : q = c
  · subst child
    rw [children, slot?_insertAt_child root ne, children]
    cases f.slot? q <;> rfl
  · rw [children_congr (slot?_insertAt_other root ne child hq)]

theorem children_insertAt_parent (found : f.slot? p = some slot) :
    (f.insertAt p index c).children p =
      slot.children.take index ++ c :: slot.children.drop index := by
  rw [children, slot?_insertAt_parent root ne, found]
  rfl

theorem mem_children_insertAt (link : k ∈ (f.insertAt p index c).children q) :
    k ∈ f.children q ∨ q = p ∧ k = c := by
  by_cases parent : q = p
  · subst parent
    cases found : f.slot? q with
    | none =>
      rw [children, slot?_insertAt_parent root ne, found] at link
      cases link
    | some slot =>
      rw [children_insertAt_parent root ne found] at link
      rw [children_eq found]
      rcases List.mem_append.1 link with front | back
      · exact .inl (List.mem_of_mem_take front)
      · rcases List.mem_cons.1 back with rfl | back
        · exact .inr ⟨rfl, rfl⟩
        · exact .inl (List.mem_of_mem_drop back)
  · rw [children_insertAt root ne parent] at link
    exact .inl link

end

end

theorem Grown.insertAt (grown : f.Grown) (root : f.IsRoot c) (lt : p.index < c.index) :
    (f.insertAt p index c).Grown := by
  have ne : p ≠ c := by
    rintro rfl
    omega
  have stranger (q : NodeId) : c ∉ f.children q := grown.ordered.not_mem_children root.parent?
  refine ⟨fun q k link => ?_, fun q k link => ?_, fun q => ?_⟩
  · rw [parent?_insertAt (isRoot_iff.1 root).1]
    rcases mem_children_insertAt root ne link with old | ⟨rfl, rfl⟩
    · have other : k ≠ c := by
        rintro rfl
        exact stranger q old
      rw [if_neg other]
      exact grown.back q k old
    · rw [if_pos rfl]
  · rcases mem_children_insertAt root ne link with old | ⟨rfl, rfl⟩
    · exact grown.lt q k old
    · exact lt
  · by_cases parent : q = p
    · subst parent
      cases found : f.slot? q with
      | none =>
        rw [children, slot?_insertAt_parent root ne, found]
        exact List.nodup_nil
      | some slot =>
        have old := grown.nodup q
        have apart := stranger q
        rw [children_eq found] at old apart
        rw [children_insertAt_parent root ne found, List.nodup_middle, List.take_append_drop]
        exact List.nodup_cons.2 ⟨apart, old⟩
    · rw [children_insertAt root ne parent]
      exact grown.nodup q

/-- Ways down stay when a subtree is put below a node. -/
theorem below_insertAt (root : f.IsRoot c) (ne : p ≠ c) (below : f.Below a k) :
    (f.insertAt p index c).Below a k := by
  refine Relation.ReflTransGen.mono (fun q d link => ?_) _ _ below
  by_cases here : q = p
  · subst here
    obtain ⟨slot, found, link⟩ := exists_slot_of_mem_children link
    rw [children_insertAt_parent root ne found]
    rw [← List.take_append_drop index slot.children, List.mem_append] at link
    exact List.mem_append.2 (link.imp_right (List.mem_cons_of_mem c))
  · rwa [children_insertAt root ne here]

/-- A subtree is the same wherever it stands. -/
theorem Ordered.tree?_insertAt (ordered : f.Ordered) (root : f.IsRoot c) (outside : ¬f.Below c p)
    (ordered' : (f.insertAt p index c).Ordered) :
    (f.insertAt p index c).tree? c = f.tree? c := by
  have ne : p ≠ c := by
    rintro rfl
    exact outside .refl
  obtain ⟨slot, found, -⟩ := id root
  have moved : (f.insertAt p index c).slot? c = some { slot with parent := some p } := by
    rw [slot?_insertAt_child root ne, found, Option.map_some]
  rw [ordered'.tree?_of_slot? moved, ordered.tree?_of_slot? found]
  have below : slot.children.filterMap (f.insertAt p index c).tree? =
      slot.children.filterMap f.tree? := by
    apply List.filterMap_congr
    intro k link
    rw [← children_eq found] at link
    refine ordered.tree?_of_spares ordered' (spares_insertAt root ne ?_ (ordered.acyclic c k link))
    exact fun under => outside (under.head link)
  rw [below]

theorem Grown.tree?_insertAt (grown : f.Grown) (root : f.IsRoot c) (lt : p.index < c.index) :
    (f.insertAt p index c).tree? c = f.tree? c := by
  refine grown.ordered.tree?_insertAt root (fun under => ?_) (grown.insertAt root lt).ordered
  have := grown.index_le under
  omega

end Attaching

section Copying

/-- What stays while nodes are copied: the links are in order, and what holds before a node is made
or a new subtree is put below an older root holds behind it. -/
structure Copyable (good : Forest → Prop) : Prop where
  ordered : ∀ {f : Forest}, good f → f.Ordered
  make : ∀ {f : Forest} (node : Node), good f → good (f.insertDetached node).2
  attach : ∀ {f : Forest} {p c : NodeId} (index : Nat), good f → f.IsRoot p → f.IsRoot c →
    p.index < c.index → good (f.insertAt p index c)

theorem grown_copyable : Copyable Grown where
  ordered := Grown.ordered
  make node grown := grown.insertDetached node
  attach _ grown _ root lt := grown.insertAt root lt

/-- New nodes stand behind all others, below a root of theirs. -/
structure Fresh (f g : Forest) (top : NodeId) : Prop where
  extend : f.Extends g
  root : g.IsRoot top
  below : ∀ k, f.slots.size ≤ k.index → g.contains k → g.Below top k

/-- A copy under way: its node has been made, and `copies` of the first children stand below it. -/
structure Copying (good : Forest → Prop) (f : Forest) (node : Node) (trees : List NodeTree)
    (g : Forest) : Prop where
  fresh : f.Fresh g ⟨f.slots.size⟩
  keeps : good g
  copies : ∃ copies, g.slot? ⟨f.slots.size⟩ = some { node, children := copies } ∧
    g.Shows copies trees

variable {good : Forest → Prop}

theorem fresh_insertDetached (f : Forest) (node : Node) :
    f.Fresh (f.insertDetached node).2 ⟨f.slots.size⟩ where
  extend := extends_insertDetached f node
  root := ⟨_, slot?_insertDetached_self f node, rfl⟩
  below k new live := by
    rw [contains, slot?_insertDetached] at live
    split at live
    · rename_i same
      rw [same]
      exact .refl
    · rw [slot?_of_size_le new] at live
      cases live

theorem copying_start (copyable : Copyable good) (keeps : good f) (node : Node) :
    Copying good f node [] (f.insertDetached node).2 :=
  ⟨fresh_insertDetached f node, copyable.make node keeps, [], slot?_insertDetached_self f node,
    rfl⟩

/-- A new subtree that is put below another one behind all that was there is part of that. -/
theorem Fresh.append {h : Forest} (first : f.Fresh g p) (second : g.Fresh h c)
    (behind : f.slots.size ≤ p.index) (new : g.slots.size ≤ c.index) :
    f.Fresh (h.append p c) p := by
  have made := first.root.lt_size
  have ne : p ≠ c := by
    rintro rfl
    omega
  obtain ⟨slot, found, free⟩ := first.root
  have found' : h.slot? p = some slot := (second.extend.slots p made).trans found
  rw [Forest.append]
  refine ⟨⟨?_, fun k old => ?_⟩, isRoot_insertAt second.root ne ⟨slot, found', free⟩ ne,
    fun k fresh live => ?_⟩
  · rw [size_insertAt]
    exact Nat.le_trans first.extend.size_le second.extend.size_le
  · have hc : k ≠ c := by
      rintro rfl
      omega
    have hp : k ≠ p := by
      rintro rfl
      omega
    have size := first.extend.size_le
    rw [slot?_insertAt_other second.root ne hc hp, second.extend.slots k (by omega),
      first.extend.slots k old]
  · rw [contains_insertAt] at live
    by_cases old : k.index < g.slots.size
    · have under := first.below k fresh (by rwa [contains, ← second.extend.slots k old])
      exact below_insertAt second.root ne (second.extend.below under)
    · have under := second.below k (by omega) live
      refine Relation.ReflTransGen.head ?_ (below_insertAt second.root ne under)
      rw [children_insertAt_parent second.root ne found']
      simp

section

variable (copyable : Copyable good)

include copyable

theorem Copying.add {node : Node} {trees : List NodeTree} {tree : NodeTree} {h : Forest}
    (copying : Copying good f node trees g) (fresh : g.Fresh h c) (keeps : good h)
    (new : g.slots.size ≤ c.index) (shown : h.tree? c = some tree) :
    Copying good f node (trees ++ [tree]) (h.append ⟨f.slots.size⟩ c) := by
  have whole := copying.fresh.append fresh (Nat.le_refl _) new
  obtain ⟨copies, found, shows⟩ := copying.copies
  have made : f.slots.size < g.slots.size := lt_size_of_slot? found
  have found' : h.slot? ⟨f.slots.size⟩ = some { node, children := copies } :=
    (fresh.extend.slots _ made).trans found
  have behind : f.slots.size < c.index := by omega
  have ne : (⟨f.slots.size⟩ : NodeId) ≠ c := by
    rintro rfl
    exact Nat.lt_irrefl _ behind
  have top : h.IsRoot ⟨f.slots.size⟩ := ⟨_, found', rfl⟩
  have count : (h.children ⟨f.slots.size⟩).length = copies.length := by rw [children_eq found']
  have ordered := copyable.ordered keeps
  rw [Forest.append, count] at whole ⊢
  have keeps' := copyable.attach copies.length keeps top fresh.root behind
  have ordered' := copyable.ordered keeps'
  have outside : ¬h.Below c ⟨f.slots.size⟩ := fun below =>
    ne (ordered.eq_of_below_root top.parent? below).symm
  refine ⟨whole, keeps', copies ++ [c], ?_, ?_⟩
  · rw [slot?_insertAt_parent fresh.root ne, found', Option.map_some]
    simp
  · have last : (h.insertAt ⟨f.slots.size⟩ copies.length c).Shows [c] [tree] :=
      shows_singleton.2 ((ordered.tree?_insertAt fresh.root outside ordered').trans shown)
    refine Shows.append ?_ last
    -- the copies made before stand beside the new one, and below none of them is their parent
    have link (x : NodeId) (member : x ∈ copies) : x ∈ h.children ⟨f.slots.size⟩ := by
      rwa [children_eq found']
    have ordered₀ := copyable.ordered copying.keeps
    have kept : ∀ x ∈ copies, g.Spares (h.insertAt ⟨f.slots.size⟩ copies.length c) x := by
      intro x member
      obtain ⟨slot, there, -⟩ := ordered₀.exists_slot
        (show x ∈ g.children ⟨f.slots.size⟩ by rwa [children_eq found])
      refine (fresh.extend.spares_of_ordered ordered₀ there).trans
        (spares_insertAt fresh.root ne (ordered.acyclic _ x (link x member)) fun under => ?_)
      have same := ordered.eq_of_below_root fresh.root.parent? under
      exact ordered.not_mem_children fresh.root.parent? (same ▸ link x member)
    have same : copies.map (h.insertAt ⟨f.slots.size⟩ copies.length c).tree? =
        copies.map g.tree? := List.map_congr_left fun x member =>
      ordered₀.tree?_of_spares ordered' (kept x member)
    rw [Shows, same, shows]

/-- What a copy with some fuel gives: a tree as deep as the fuel goes, on its own behind all that
was there. -/
private def CopiesTo (good : Forest → Prop) (f : Forest) (fuel : Nat) (id : NodeId) : Prop :=
  match f.treeFrom fuel id with
  | none => copyFrom fuel id f = (none, f)
  | some tree => ∃ g, copyFrom fuel id f = (some ⟨f.slots.size⟩, g) ∧
      f.Fresh g ⟨f.slots.size⟩ ∧ good g ∧ g.tree? ⟨f.slots.size⟩ = some tree

private theorem Copying.children {fuel : Nat} {node : Node} {trees : List NodeTree}
    (ordered : f.Ordered) (ih : ∀ g id, good g → CopiesTo good g fuel id) (ids : List NodeId)
    (there : ∀ id ∈ ids, ∃ slot, f.slot? id = some slot) (copying : Copying good f node trees g) :
    Copying good f node (trees ++ ids.filterMap (f.treeFrom fuel))
      (ids.foldl (fun g id =>
        match copyFrom fuel id g with
        | (some copy, g) => g.append ⟨f.slots.size⟩ copy
        | (none, g) => g) g) := by
  induction ids generalizing trees g with
  | nil => simpa using copying
  | cons id ids rest =>
    obtain ⟨slot, found⟩ := there id (.head _)
    have same : g.treeFrom fuel id = f.treeFrom fuel id :=
      treeFrom_of_spares fuel (copying.fresh.extend.spares_of_ordered ordered found)
    have copies := ih g id copying.keeps
    have others := fun id member => there id (.tail _ member)
    rw [CopiesTo, same] at copies
    rw [List.foldl_cons]
    cases tree : f.treeFrom fuel id with
    | none =>
      rw [tree] at copies
      rw [copies, List.filterMap_cons_none tree]
      exact rest others copying
    | some tree =>
      rw [tree] at copies
      obtain ⟨h, run, fresh, keeps, shown⟩ := copies
      rw [run, List.filterMap_cons_some (by assumption)]
      have next := rest others (copying.add copyable fresh keeps (Nat.le_refl _) shown)
      simpa using next

private theorem copiesTo (fuel : Nat) (f : Forest) (id : NodeId) (keeps : good f) :
    CopiesTo good f fuel id := by
  induction fuel generalizing f id with
  | zero => rfl
  | succ fuel ih =>
    have ordered := copyable.ordered keeps
    rw [CopiesTo, treeFrom]
    cases found : f.slot? id with
    | none =>
      have gone : f.get? id = none := by rw [get?, found, Option.map_none]
      simp only [Option.map_none, copyFrom, gone]
    | some slot =>
      have node : f.get? id = some slot.node := by rw [get?, found, Option.map_some]
      simp only [Option.map_some, copyFrom, node, children_eq found]
      have there : ∀ c ∈ slot.children, ∃ slot, f.slot? c = some slot := by
        intro c link
        rw [← children_eq found] at link
        obtain ⟨slot, found, -⟩ := ordered.exists_slot link
        exact ⟨slot, found⟩
      have copied := (copying_start copyable keeps slot.node).children copyable ordered ih
        slot.children there
      obtain ⟨copies, made, shows⟩ := copied.copies
      have whole := (copyable.ordered copied.keeps).tree?_of_slot? made
      rw [shows.filterMap, List.nil_append] at whole
      exact ⟨_, rfl, copied.fresh, copied.keeps, whole⟩

/-- A node that is there is copied, with all that is below it, behind all that was there. -/
theorem Copyable.copy (keeps : good f) {tree : NodeTree} (there : f.tree? a = some tree) :
    ∃ g, f.copy a = (some ⟨f.slots.size⟩, g) ∧ f.Fresh g ⟨f.slots.size⟩ ∧ good g ∧
      g.tree? ⟨f.slots.size⟩ = some tree := by
  have copies := copiesTo copyable f.slots.size f a keeps
  have whole : f.treeFrom f.slots.size a = some tree := there
  rw [CopiesTo, whole] at copies
  exact copies

theorem Copyable.copy_of_missing (keeps : good f) (missing : f.tree? a = none) :
    f.copy a = (none, f) := by
  have copies := copiesTo copyable f.slots.size f a keeps
  have whole : f.treeFrom f.slots.size a = none := missing
  rw [CopiesTo, whole] at copies
  exact copies

end

/-- A copy of any node, if the node is there, stands on its own behind all that was there. -/
theorem Grown.turns_copy (grown : f.Grown) (id : NodeId) :
    f.Turns [] (f.copy id).2 (f.copy id).1.toList := by
  cases there : f.tree? id with
  | none =>
    rw [grown_copyable.copy_of_missing grown there]
    exact .refl grown []
  | some tree =>
    obtain ⟨g, run, fresh, grown', -⟩ := grown_copyable.copy grown there
    rw [run]
    exact fresh.extend.turns grown grown' fresh.root (Nat.le_refl _)

theorem Grown.turns_copies (grown : f.Grown) (ids : List NodeId) :
    f.Turns [] (copyAll ids f).2 (copyAll ids f).1 := by
  induction ids generalizing f with
  | nil => exact .refl grown []
  | cons id ids ih =>
    have first := grown.turns_copy id
    have rest := (ih first.grown).frame (f.copy id).1.toList
    have both := first.trans rest ⟨List.nodup_nil, by simp⟩
    exact both.perm (.refl _) List.perm_append_comm

/-- Copies show the same trees, and stand on their own behind all that was there. -/
theorem Grown.turns_copyAll {ids : List NodeId} {trees : List NodeTree} (grown : f.Grown)
    (shown : f.Shows ids trees) :
    f.Turns [] (copyAll ids f).2 (copyAll ids f).1 ∧
      (copyAll ids f).2.Shows (copyAll ids f).1 trees := by
  refine ⟨grown.turns_copies ids, ?_⟩
  induction ids generalizing f trees with
  | nil =>
    rw [shown.eq_nil]
    rfl
  | cons id ids ih =>
    obtain ⟨tree, trees, rfl, first, rest⟩ := shown.cons_inv
    obtain ⟨g, run, fresh, grown', shows⟩ := grown_copyable.copy grown first
    have kept : g.Shows ids trees := by
      refine Shows.of_spares grown grown' rest fun id member => ?_
      obtain ⟨slot, found⟩ := Shows.exists_slot grown rest member
      exact fresh.extend.spares grown found
    have more := ih grown' kept
    have all : copyAll (id :: ids) f =
        (⟨f.slots.size⟩ :: (copyAll ids g).1, (copyAll ids g).2) := by
      rw [copyAll, run]
      rfl
    have turns := grown'.turns_copies ids
    have stays := grown'.tree?_of_spares turns.grown (turns.spares _ fresh.root (by simp))
    rw [all, Shows, List.map_cons, stays, shows, more]
    rfl

end Copying

end TemplateMarkup.Forest
