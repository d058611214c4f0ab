import TemplateMarkup.Proofs.ForestCopies

/-! Changes inside the tree of a document. Children of one node give way to others, and the rest of
the tree stays as it is. -/
namespace TemplateMarkup.Forest

variable {f g h : Forest} {a b c k p : NodeId} {slot : Slot}
  {pre old new old' new' post : List NodeId}

/-- A node stands in the tree of the document. -/
def Stands (f : Forest) (k : NodeId) : Prop := f.Below root k

theorem Grown.not_mem_others (grown : f.Grown)
    (h : f.slot? p = some { slot with children := pre ++ (c :: post) }) : c ∉ pre ++ post := by
  have nodup := grown.nodup p
  rw [children_eq h, List.nodup_middle, List.nodup_cons] at nodup
  exact nodup.1

/-- Of two nodes above a third, one is above the other. -/
theorem Grown.below_or_below (grown : f.Grown) (ha : f.Below a k) (hb : f.Below b k) :
    f.Below a b ∨ f.Below b a := by
  induction ha with
  | refl => exact .inr hb
  | tail above link ih =>
    rcases Relation.ReflTransGen.cases_tail hb with same | ⟨q, under, link'⟩
    · subst same
      exact .inl (above.tail link)
    · cases (grown.back _ _ link).symm.trans (grown.back _ _ link')
      exact ih under

theorem Grown.not_below_child (grown : f.Grown) (link : c ∈ f.children p) : ¬f.Below c p := by
  intro under
  have := grown.index_le under
  have := grown.lt p c link
  omega

/-- Two children of one node have nothing below them in common. -/
theorem Grown.not_below_sibling (grown : f.Grown) (ha : a ∈ f.children p) (hb : b ∈ f.children p)
    (ne : a ≠ b) (under : f.Below a k) : ¬f.Below b k := by
  have apart {a b : NodeId} (ha : a ∈ f.children p) (hb : b ∈ f.children p) (ne : a ≠ b) :
      ¬f.Below a b := by
    intro below
    rcases Relation.ReflTransGen.cases_tail below with same | ⟨q, under, link⟩
    · exact ne same.symm
    · cases (grown.back p b hb).symm.trans (grown.back q b link)
      exact grown.not_below_child ha under
  intro under'
  rcases grown.below_or_below under under' with below | below
  · exact apart ha hb ne below
  · exact apart hb ha ne.symm below

/-- On the way from `f` to `g` the children `old` of a node give way to `new`, and the tree changes
only there and below them. -/
structure Replaces (f g : Forest) (p : NodeId) (slot : Slot) (pre old new post : List NodeId) :
    Prop where
  before : f.slot? p = some { slot with children := pre ++ (old ++ post) }
  after : g.slot? p = some { slot with children := pre ++ (new ++ post) }
  slots : ∀ k, f.Stands k → k ≠ p → (∀ c ∈ old, ¬f.Below c k) → g.slot? k = f.slot? k

namespace Replaces

theorem children (replaces : f.Replaces g p slot pre old new post) :
    f.children p = pre ++ (old ++ post) := children_eq replaces.before

theorem refl (found : f.slot? p = some slot) :
    f.Replaces f p slot [] slot.children slot.children [] :=
  ⟨by simpa using found, by simpa using found, fun _ _ _ _ => rfl⟩

section

variable (replaces : f.Replaces g p slot pre old new post)

include replaces

theorem stands (stands : f.Stands k) (apart : ∀ c ∈ old, ¬f.Below c k) : g.Stands k := by
  induction stands with
  | refl => exact .refl
  | @tail q c above link ih =>
    refine (ih fun o member under => apart o member (under.tail link)).tail ?_
    by_cases same : q = p
    · subst same
      rw [replaces.children] at link
      rw [children_eq replaces.after]
      rcases List.mem_append.1 link with front | back
      · exact List.mem_append_left _ front
      · rcases List.mem_append.1 back with gone | back
        · exact absurd .refl (apart c gone)
        · exact List.mem_append_right _ (List.mem_append_right _ back)
    · rwa [children_congr
        (replaces.slots q above same fun o member under => apart o member (under.tail link))]

theorem spares (grown : f.Grown) (stands : f.Stands p) (link : c ∈ f.children p) (apart : c ∉ old) :
    f.Spares g c := by
  intro k below
  refine replaces.slots k (Relation.ReflTransGen.trans (stands.tail link) below) ?_ ?_
  · rintro rfl
    exact grown.not_below_child link below
  · intro o member
    have link' : o ∈ f.children p := by
      rw [replaces.children]
      exact List.mem_append_right _ (List.mem_append_left _ member)
    exact grown.not_below_sibling link link' (fun same => apart (same ▸ member)) below

theorem slot?_above (grown : f.Grown) (stands : f.Stands k) (link : c ∈ f.children k)
    (under : f.Below c p) : g.slot? k = f.slot? k := by
  refine replaces.slots k stands ?_ fun o member inside => ?_
  · rintro rfl
    exact grown.not_below_child link under
  · have link' : o ∈ f.children p := by
      rw [replaces.children]
      simp [member]
    exact grown.not_below_child link' (Relation.ReflTransGen.trans (inside.tail link) under)

theorem spares_beside (grown : f.Grown) (stands : f.Stands k) (link : c ∈ f.children k)
    (under : f.Below c p) (link' : a ∈ f.children k) (ne : a ≠ c) : f.Spares g a := by
  intro j inside
  have apart : ¬f.Below c j := grown.not_below_sibling link' link ne inside
  refine replaces.slots j (Relation.ReflTransGen.trans (stands.tail link') inside) ?_ ?_
  · rintro rfl
    exact apart under
  · intro o member below
    have child : o ∈ f.children p := by
      rw [replaces.children]
      simp [member]
    exact apart (Relation.ReflTransGen.trans (under.tail child) below)

end

theorem trans (first : f.Replaces g p slot pre old new (old' ++ post)) (grown : f.Grown)
    (stands : f.Stands p) (second : g.Replaces h p slot (pre ++ new) old' new' post) :
    f.Replaces h p slot pre (old ++ old') (new ++ new') post where
  before := by simpa using first.before
  after := by simpa using second.after
  slots := by
    intro k standing other apart
    have early : ∀ c ∈ old, ¬f.Below c k := fun c member => apart c (List.mem_append_left _ member)
    rw [← first.slots k standing other early]
    refine second.slots k (first.stands standing early) other fun c member => ?_
    have link : c ∈ f.children p := by
      rw [first.children]
      simp [member]
    have distinct : c ∉ old := by
      have nodup := grown.nodup p
      rw [first.children, List.nodup_append] at nodup
      have later := nodup.2.1
      rw [List.nodup_append] at later
      exact fun here => later.2.2 c here c (List.mem_append_left _ member) rfl
    rw [(first.spares grown stands link distinct).below_iff]
    exact apart c (List.mem_append_right _ member)

/-- What was taken away is replaced by what is put there later. -/
theorem fill (first : f.Replaces g p slot pre old [] post) (grown : f.Grown) (stands : f.Stands p)
    (second : g.Replaces h p slot pre [] new post) : f.Replaces h p slot pre old new post := by
  rw [← List.append_nil pre] at second
  have both : f.Replaces h p slot pre (old ++ []) ([] ++ new) post :=
    first.trans grown stands second
  rwa [List.append_nil] at both

theorem again (first : f.Replaces g p slot pre old new post)
    (second : g.Replaces h p slot pre new new' post)
    (apart : ∀ k, f.Stands k → ∀ c ∈ new, ¬g.Below c k) :
    f.Replaces h p slot pre old new' post where
  before := first.before
  after := second.after
  slots := by
    intro k stands other outside
    rw [← first.slots k stands other outside]
    exact second.slots k (first.stands stands outside) other (apart k stands)

/-- A change that spares the tree makes no difference before. -/
theorem after_spares (replaces : g.Replaces h p slot pre old new post) (stands : f.Stands p)
    (spares : f.Spares g root) : f.Replaces h p slot pre old new post where
  before := (spares p stands).symm.trans replaces.before
  after := replaces.after
  slots := by
    intro k standing other outside
    rw [← spares k standing]
    refine replaces.slots k (spares.below standing) other fun c member under => ?_
    have link : c ∈ f.children p := by
      rw [← children_congr (spares p stands), replaces.children]
      simp [member]
    have spared : f.Spares g c := fun k below =>
      spares k (Relation.ReflTransGen.trans (stands.tail link) below)
    exact outside c member (spared.below_iff.1 under)

end Replaces

section Splicing

variable {trees : List NodeTree} {r : NodeId} {index : Nat}

theorem Grown.not_stands (grown : f.Grown) (top : f.IsRoot root) (isRoot : f.IsRoot c)
    (ne : c ≠ root) : ¬f.Stands c :=
  fun stands => ne (grown.ordered.eq_of_below isRoot.parent? top.parent? .refl stands)

theorem Grown.replaces_insertAt (grown : f.Grown) (top : f.IsRoot root)
    (before : f.slot? p = some { slot with children := pre ++ post }) (isRoot : f.IsRoot c)
    (ne : c ≠ root) (lt : p.index < c.index) :
    f.Replaces (f.insertAt p pre.length c) p slot pre [] [c] post where
  before := before
  after := by
    have other : p ≠ c := by
      rintro rfl
      exact Nat.lt_irrefl _ lt
    rw [slot?_insertAt_parent isRoot other, before]
    simp
  slots := by
    intro k stands other _
    have apart : k ≠ c := by
      rintro rfl
      exact grown.not_stands top isRoot ne stands
    refine slot?_insertAt_other isRoot ?_ apart other
    rintro rfl
    exact Nat.lt_irrefl _ lt

/-- What becomes of a forest in which new nodes are put into the tree. -/
structure Plants (f g : Forest) (new : List NodeId) (trees : List NodeTree) : Prop where
  grown : g.Grown
  top : g.IsRoot root
  shown : g.Shows new trees
  spares : ∀ r, f.IsRoot r → r ≠ root → r ∉ new → f.Spares g r

namespace Plants

variable {trees' : List NodeTree}

theorem trans (first : f.Plants g new trees) (second : g.Plants h new' trees')
    (kept : h.Shows new trees) : f.Plants h (new ++ new') (trees ++ trees') where
  grown := second.grown
  top := second.top
  shown := kept.append second.shown
  spares := by
    intro r isRoot ne away
    have spared := first.spares r isRoot ne fun member => away (List.mem_append_left _ member)
    exact spared.trans (second.spares r (spared.isRoot isRoot) ne fun member =>
      away (List.mem_append_right _ member))

theorem waits (plants : f.Plants g new trees) (roots : f.Roots (root :: (new ++ new')))
    (member : r ∈ new') : f.Spares g r := by
  obtain ⟨apart, nodup⟩ := List.nodup_cons.1 roots.nodup
  refine plants.spares r (roots.isRoot r (.tail _ (List.mem_append_right _ member))) ?_ ?_
  · rintro rfl
    exact apart (List.mem_append_right _ member)
  · exact fun planted => (List.nodup_append.1 nodup).2.2 r planted r member rfl

theorem roots (plants : f.Plants g new trees) (roots : f.Roots (root :: (new ++ new'))) :
    g.Roots (root :: new') := by
  refine ⟨roots.nodup.sublist ((List.sublist_append_right _ _).cons_cons _), fun r member => ?_⟩
  rcases List.mem_cons.1 member with rfl | later
  · exact plants.top
  · refine (plants.waits roots later).isRoot (roots.isRoot r ?_)
    exact .tail _ (List.mem_append_right _ later)

theorem shows (plants : f.Plants g new trees) (grown : f.Grown)
    (roots : f.Roots (root :: (new ++ new'))) (shown : f.Shows new' trees') :
    g.Shows new' trees' :=
  shown.of_spares grown plants.grown fun _ member => plants.waits roots member

end Plants

theorem Grown.plants_insertAt (grown : f.Grown) (stands : f.Stands p) (top : f.IsRoot root)
    (isRoot : f.IsRoot c) (ne : c ≠ root) (lt : p.index < c.index) {tree : NodeTree}
    (here : f.tree? c = some tree) : f.Plants (f.insertAt p index c) [c] [tree] := by
  have other : p ≠ c := by
    rintro rfl
    exact Nat.lt_irrefl _ lt
  refine ⟨grown.insertAt isRoot lt, isRoot_insertAt isRoot other top ne.symm,
    shows_singleton.2 ((grown.tree?_insertAt isRoot lt).trans here), fun r alone far away => ?_⟩
  -- a subtree on its own holds neither the new node nor the place where it is put
  refine spares_insertAt isRoot other (fun under => far ?_) fun under => away ?_
  · exact grown.ordered.eq_of_below alone.parent? top.parent? under stands
  · exact List.mem_singleton.2 (grown.ordered.eq_of_below alone.parent? isRoot.parent? under .refl)

theorem Grown.insertAllAt (grown : f.Grown) (stands : f.Stands p)
    (before : f.slot? p = some { slot with children := pre ++ post })
    (roots : f.Roots (root :: new)) (lt : ∀ c ∈ new, p.index < c.index)
    (shown : f.Shows new trees) :
    f.Plants (insertAllAt p pre.length new f) new trees ∧
      f.Replaces (insertAllAt p pre.length new f) p slot pre [] new post := by
  have top : f.IsRoot root := roots.isRoot root (.head _)
  induction new generalizing f pre trees with
  | nil =>
    exact ⟨⟨grown, top, shown, fun r _ _ _ => .refl f r⟩, before, before, fun _ _ _ _ => rfl⟩
  | cons c new ih =>
    obtain ⟨tree, trees, rfl, here, shown⟩ := shown.cons_inv
    have waiting : f.Roots (root :: ([c] ++ new)) := roots
    have isRoot := roots.isRoot c (.tail _ (.head _))
    have ne : c ≠ root := fun same => (List.nodup_cons.1 roots.nodup).1 (same ▸ .head _)
    have put := grown.replaces_insertAt top before isRoot ne (lt c (.head _))
    have planted : f.Plants (f.insertAt p pre.length c) [c] [tree] :=
      grown.plants_insertAt stands top isRoot ne (lt c (.head _)) here
    have before' : (f.insertAt p pre.length c).slot? p =
        some { slot with children := (pre ++ [c]) ++ post } := by simpa using put.after
    have stands' := put.stands stands (by simp)
    obtain ⟨plants, replaces⟩ := ih planted.grown stands' before' (planted.roots waiting)
      (fun c member => lt c (.tail _ member)) (planted.shows grown waiting shown) planted.top
    rw [List.length_append, List.length_singleton] at plants replaces
    have kept := planted.shown.of_spares planted.grown plants.grown fun r member => by
      rw [List.mem_singleton.1 member]
      exact replaces.spares planted.grown stands' (mem_children_of_slot? put.after) (by simp)
    have both : f.Replaces _ p slot pre ([] ++ []) ([c] ++ new) post :=
      put.trans grown stands replaces
    exact ⟨planted.trans plants kept, both⟩

theorem Grown.replaces_detach (grown : f.Grown)
    (before : f.slot? p = some { slot with children := pre ++ (c :: post) }) :
    f.Replaces (f.detach c) p slot pre [c] [] post := by
  have link := mem_children_of_slot? before
  have back := grown.back p c link
  refine ⟨before, ?_, fun k _ other apart => ?_⟩
  · have ne : p ≠ c := by
      rintro rfl
      exact grown.not_below_child link .refl
    have rest : (pre ++ (c :: post)).filter (· ≠ c) = pre ++ post := by
      have others : (pre ++ post).filter (· ≠ c) = pre ++ post := by
        refine List.filter_eq_self.2 fun k member => decide_eq_true ?_
        rintro rfl
        exact grown.not_mem_others before member
      rw [List.filter_append, List.filter_cons_of_neg (by simp), ← List.filter_append, others]
    rw [slot?_detach ne, if_pos back, before, Option.map_some]
    dsimp only
    rw [rest]
    rfl
  · have ne : k ≠ c := by
      rintro rfl
      exact apart k (.head _) .refl
    rw [slot?_detach ne, back, if_neg fun same => other (Option.some.inj same).symm]

theorem Replaces.of_spares (before : f.slot? p = some { slot with children := pre ++ post })
    (stands : f.Stands p) (spares : f.Spares g root) : f.Replaces g p slot pre [] [] post :=
  ⟨before, (spares p stands).trans before, fun k stands _ _ => spares k stands⟩

private theorem findIdx?_middle (apart : c ∉ pre) :
    (pre ++ (c :: post)).findIdx? (· = c) = some pre.length := by
  induction pre with
  | nil => simp [List.findIdx?_cons]
  | cons a pre ih =>
    have ne : a ≠ c := fun same => apart (same ▸ .head _)
    rw [List.cons_append, List.findIdx?_cons, ih fun member => apart (.tail _ member)]
    simp [ne]

theorem Grown.remove_child (grown : f.Grown) (stands : f.Stands p)
    (before : f.slot? p = some { slot with children := pre ++ (c :: post) })
    (top : f.IsRoot root) :
    f.Plants (f.remove c).2 [] [] ∧ f.Replaces (f.remove c).2 p slot pre [c] [] post := by
  have link := mem_children_of_slot? before
  have cut := grown.replaces_detach before
  have stands' : (f.detach c).Stands p := cut.stands stands fun k member => by
    rw [List.mem_singleton.1 member]
    exact grown.not_below_child link
  have alone (r : NodeId) (isRoot : f.IsRoot r) : r ∉ [c] := fun member => by
    rw [List.mem_singleton.1 member] at isRoot
    exact grown.ordered.not_mem_children isRoot.parent? link
  have ne : c ≠ root := fun same => alone root top (by simp [same])
  have live := contains_of_parent? (grown.back p c link)
  have placed := (erases_remove grown.detach.ordered grown.detach.nodup ne live).turns grown.detach
    (isRoot_detach live) (by rw [size_remove, size_detach])
  have spares (r : NodeId) (isRoot : f.IsRoot r) : (f.detach c).Spares (f.remove c).2 r :=
    placed.spares r isRoot.detach (alone r isRoot)
  refine ⟨⟨placed.grown, (spares root top).isRoot top.detach, rfl, ?_⟩,
    cut.fill grown stands (.of_spares cut.after stands' (spares root top))⟩
  intro r isRoot ne _
  have away (k : NodeId) (standing : f.Stands k) : ¬f.Below r k := fun under =>
    ne (grown.ordered.eq_of_below isRoot.parent? top.parent? under standing)
  have first : f.Spares (f.detach c) r := by
    intro k under
    rw [slot?_detach, grown.back p c link, if_neg]
    · rintro ⟨⟩
      exact away _ stands under
    · rintro rfl
      exact away k (stands.tail link) under
  exact first.trans (spares r isRoot)

theorem size_splice : (f.splice c new).slots.size = f.slots.size := by
  have inserted (parent : NodeId) (index : Nat) (g : Forest) :
      (Forest.insertAllAt parent index new g).slots.size = g.slots.size := by
    induction new generalizing g index with
    | nil => rfl
    | cons c new ih => rw [Forest.insertAllAt, ih, size_insertAt]
  unfold splice
  split
  · rfl
  · split
    · rfl
    · rw [inserted, size_remove]

/-- New nodes take the place of a child. -/
theorem Grown.splice (grown : f.Grown) (stands : f.Stands p)
    (before : f.slot? p = some { slot with children := pre ++ (c :: post) })
    (roots : f.Roots (root :: new)) (lt : ∀ c ∈ new, p.index < c.index)
    (shown : f.Shows new trees) :
    f.Plants (f.splice c new) new trees ∧ f.Replaces (f.splice c new) p slot pre [c] new post := by
  have top : f.IsRoot root := roots.isRoot root (.head _)
  have link := mem_children_of_slot? before
  have apart : c ∉ pre := fun member =>
    grown.not_mem_others before (List.mem_append_left _ member)
  have waiting : f.Roots (root :: ([] ++ new)) := roots
  obtain ⟨cleared, removed⟩ := grown.remove_child stands before top
  have stands' := removed.stands stands fun k member => by
    rw [List.mem_singleton.1 member]
    exact grown.not_below_child link
  obtain ⟨plants, replaces⟩ := cleared.grown.insertAllAt stands' removed.after
    (cleared.roots waiting) lt (cleared.shows grown waiting shown)
  have spliced : f.splice c new = Forest.insertAllAt p pre.length new (f.remove c).2 := by
    rw [Forest.splice, grown.back p c link]
    dsimp only
    rw [children_eq before]
    dsimp only
    rw [findIdx?_middle apart]
  rw [spliced]
  exact ⟨cleared.trans plants rfl, removed.fill grown stands replaces⟩

end Splicing

end TemplateMarkup.Forest
