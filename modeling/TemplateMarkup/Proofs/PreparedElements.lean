import TemplateMarkup.Proofs.ForestReplacements
import TemplateMarkup.Proofs.TreeLevels
import TemplateMarkup.Proofs.WriteStates

/-! Elements that are given their names and inline style. Only attributes and selectors change, on
the element and on the blocks inside it. -/
namespace TemplateMarkup

/-- Two nodes that differ in their attributes and selectors at most. -/
structure Node.Alike (a b : Node) : Prop where
  name : b.name = a.name
  isElement : b.isElement = a.isElement
  usages : b.usages = a.usages
  comment : b.comment? = a.comment?

theorem Node.Alike.refl (node : Node) : node.Alike node := ⟨rfl, rfl, rfl, rfl⟩

theorem Node.Alike.trans {a b c : Node} (first : a.Alike b) (second : b.Alike c) : a.Alike c :=
  ⟨second.name.trans first.name, second.isElement.trans first.isElement,
    second.usages.trans first.usages, second.comment.trans first.comment⟩

namespace Forest

variable {f g h : Forest} {id k c : NodeId} {P : Node → Prop}

/-- The tree stays as it is, but for the attributes and selectors of nodes at `id` and below. -/
def Adjusts (f g : Forest) (id : NodeId) : Prop :=
  ∀ k, f.Stands k → g.slot? k = f.slot? k ∨ f.Below id k ∧
    ∃ slot node, f.slot? k = some slot ∧ g.slot? k = some { slot with node } ∧ slot.node.Alike node

namespace Adjusts

theorem of_spares (spares : f.Spares g root) (id : NodeId) : f.Adjusts g id :=
  fun k stands => .inl (spares k stands)

section

variable (adjusts : f.Adjusts g id)

include adjusts

theorem children (stands : f.Stands k) : g.children k = f.children k := by
  rcases adjusts k stands with same | ⟨-, slot, node, found, found', -⟩
  · exact children_congr same
  · rw [children_eq found, children_eq found']

theorem below (stands : f.Stands k) (under : f.Below k c) : g.Below k c := by
  induction under with
  | refl => exact .refl
  | @tail q c above link ih =>
    refine ih.tail ?_
    rwa [adjusts.children (Relation.ReflTransGen.trans stands above)]

theorem below_iff (stands : f.Stands k) : g.Below k c ↔ f.Below k c := by
  refine ⟨fun under => ?_, adjusts.below stands⟩
  induction under with
  | refl => exact .refl
  | @tail q c above link ih =>
    refine ih.tail ?_
    rwa [adjusts.children (Relation.ReflTransGen.trans stands ih)] at link

theorem stands_iff : g.Stands k ↔ f.Stands k := adjusts.below_iff .refl

end

theorem trans (first : f.Adjusts g id) (second : g.Adjusts h id) (stands : f.Stands id) :
    f.Adjusts h id := by
  intro k standing
  rcases second k (first.stands_iff.2 standing) with
    same | ⟨under, slot, node, found, found', alike⟩
  · rw [same]
    exact first k standing
  · rw [first.below_iff stands] at under
    rcases first k standing with same | ⟨-, slot', node', early, early', alike'⟩
    · rw [same] at found
      exact .inr ⟨under, slot, node, found, found', alike⟩
    · rw [early'] at found
      cases found
      exact .inr ⟨under, slot', node, early, found', alike'.trans alike⟩

theorem modify {change : Node → Node} (under : f.Below id k)
    (alike : ∀ node : Node, node.Alike (change node)) : f.Adjusts (f.modify k change) id := by
  intro n _
  rw [slot?_modify]
  by_cases same : n = k
  · subst same
    rw [if_pos rfl]
    cases found : f.slot? n with
    | none => exact .inl rfl
    | some slot => exact .inr ⟨under, slot, change slot.node, rfl, rfl, alike slot.node⟩
  · rw [if_neg same]
    exact .inl rfl

theorem fits (adjusts : f.Adjusts g id) (hf : f.Grown) (hg : g.Grown)
    (respects : ∀ a b : Node, a.Alike b → P a → P b) {levels : Nat} (stands : f.Stands k)
    (fits : f.Fits P levels k) : g.Fits P levels k := by
  induction levels generalizing k with
  | zero => exact absurd fits.pos (Nat.lt_irrefl 0)
  | succ levels ih =>
    obtain ⟨slot, found, here, below⟩ := hf.fits_iff.1 fits
    have inside : ∀ c ∈ g.children k, g.Fits P levels c := by
      intro c link
      rw [adjusts.children stands] at link
      exact ih (stands.tail link) (below c link)
    rcases adjusts k stands with same | ⟨-, slot', node, early, later, alike⟩
    · exact hg.fits_iff.2 ⟨slot, same.trans found, here, inside⟩
    · cases found.symm.trans early
      exact hg.fits_iff.2 ⟨_, later, respects _ _ alike here, inside⟩

/-- Seen from the parent, a child that is adjusted and then changed below stays in its place. -/
theorem replaces {p : NodeId} {slot slot' : Slot} {pre post pre' old' new' post' : List NodeId}
    (adjusts : f.Adjusts g id) (grown : f.Grown) (stands : f.Stands p)
    (before : f.slot? p = some { slot with children := pre ++ (id :: post) })
    (inside : g.Replaces h id slot' pre' old' new' post') :
    f.Replaces h p slot pre [id] [id] post := by
  have link := mem_children_of_slot? before
  have stands' : f.Stands id := stands.tail link
  have kept (k : NodeId) (standing : f.Stands k) (outside : ¬f.Below id k) :
      h.slot? k = f.slot? k := by
    have first : g.slot? k = f.slot? k := by
      rcases adjusts k standing with same | ⟨under, -⟩
      · exact same
      · exact absurd under outside
    rw [← first]
    refine inside.slots k (adjusts.stands_iff.2 standing) ?_ fun c member under => outside ?_
    · rintro rfl
      exact outside .refl
    · have link' : c ∈ g.children id := by
        rw [inside.children]
        simp [member]
      exact (adjusts.below_iff stands').1 (.head link' under)
  refine ⟨before, ?_, fun k standing _ apart => kept k standing (apart id (.head _))⟩
  exact (kept p stands (grown.not_below_child link)).trans before

/-- The element itself, adjusted. -/
theorem self (adjusts : f.Adjusts g id) (stands : f.Stands id) {slot : Slot}
    (found : f.slot? id = some slot) :
    ∃ node, g.slot? id = some { slot with node } ∧ slot.node.Alike node := by
  rcases adjusts id stands with same | ⟨-, slot', node, early, later, alike⟩
  · exact ⟨slot.node, same.trans found, .refl _⟩
  · cases found.symm.trans early
    exact ⟨node, later, alike⟩

end Adjusts

end Forest

theorem ElementNames.size_apply (document : Document) (id : NodeId) :
    (apply document id).2.forest.slots.size = document.forest.slots.size := by
  have renamed (slot : NameSlot) (old new : String) (ids : List NodeId) (forest : Forest) :
      (ids.foldl (fun forest child => forest.modify child (renameIn slot old new))
        forest).slots.size = forest.slots.size := by
    induction ids generalizing forest with
    | nil => rfl
    | cons c ids ih => rw [List.foldl_cons, ih, Forest.size_modify]
  unfold apply
  split
  · refine List.foldlRecOn _ _ (motive := fun (state : Outcome × Document) =>
      state.2.forest.slots.size = document.forest.slots.size) rfl ?_
    intro state same candidate _
    unfold take
    dsimp only
    split
    · exact same
    · dsimp only
      rw [Forest.size_modify]
      split
      · exact same
      · rw [renameAround, renamed, same]
  · rfl

namespace Write

/-- An element of a document has been adjusted. -/
structure Adjusted (original document document' : Document) (id : NodeId) : Prop where
  ready : Ready original document'
  adjusts : document.forest.Adjusts document'.forest id

variable {original document document' document'' : Document} {id k : NodeId} {s : WriteState}

theorem Adjusted.refl (ready : Ready original document) (id : NodeId) :
    Adjusted original document document id := ⟨ready, .of_spares (.refl _ _) id⟩

theorem Adjusted.trans (first : Adjusted original document document' id)
    (second : Adjusted original document' document'' id) (stands : document.forest.Stands id) :
    Adjusted original document document'' id :=
  ⟨second.ready, first.adjusts.trans second.adjusts stands⟩

theorem Ready.modify (ready : Ready original document) (stands : document.forest.Stands k)
    (change : Node → Node) :
    Ready original { document with forest := document.forest.modify k change } := by
  have grown := ready.grown
  refine ready.sparing (grown.modify k change) ((Forest.isRoot_modify k change).2 ready.top) ?_
  intro r isRoot ne _ n under
  rw [Forest.slot?_modify, if_neg]
  rintro rfl
  exact ne (grown.ordered.eq_of_below isRoot.parent? ready.top.parent? under stands)

/-- One node at the element or below it is changed. -/
theorem Adjusted.modify (adjusted : Adjusted original document document' id)
    (stands : document.forest.Stands id) (under : document.forest.Below id k)
    {change : Node → Node} (alike : ∀ node : Node, node.Alike (change node)) :
    Adjusted original document
      { document' with forest := document'.forest.modify k change } id := by
  have standing : document'.forest.Stands k :=
    adjusted.adjusts.stands_iff.2 (Relation.ReflTransGen.trans stands under)
  have under' := adjusted.adjusts.below stands under
  exact adjusted.trans ⟨adjusted.ready.modify standing change, .modify under' alike⟩ stands

/-- Names are counted. -/
theorem Ready.counted (ready : Ready original document) (counts : NameCounts) :
    Ready original { document with symbols := document.symbols.withCounts counts } := by
  have resembles := ready.standing.stored.resembles
  have resembles' : original.symbols.Resembles (document.symbols.withCounts counts) :=
    ⟨by rw [SymbolTable.withCounts, resembles.rest], resembles.keys, resembles.headings⟩
  have stored := ready.standing.stored
  have rests := ready.standing.rests
  exact ⟨⟨⟨resembles', stored.grown, stored.roots, stored.brought, stored.tells⟩,
    ⟨resembles', rests.underway, rests.settled⟩⟩, ready.top, ready.apart, ready.outside⟩

theorem usagesIn_mapSelector (f : Selector → Selector) (items : List StyleItem) :
    StyleItem.usagesIn (items.map (StyleItem.mapSelector f)) = StyleItem.usagesIn items := by
  induction items with
  | nil => rfl
  | cons item items ih =>
    rw [List.map_cons, StyleItem.usagesIn, StyleItem.usagesIn, ih]
    cases item <;> rfl

theorem alike_mapNames (names : NameSlot → String → String) (node : Node) :
    node.Alike (node.mapNames names) := by
  unfold Node.mapNames
  split
  · next block kind =>
    refine ⟨rfl, by simp only [Node.isElement, kind], ?_, by simp only [Node.comment?, kind]⟩
    simp only [Node.usages, kind]
    exact usagesIn_mapSelector _ block.items
  · next block kind =>
    exact ⟨rfl, by simp only [Node.isElement, kind], by simp only [Node.usages, kind],
      by simp only [Node.comment?, kind]⟩
  · exact .refl node

open ElementNames in
theorem alike_assignment (config : Config) (node : Node) (children : List Node)
    (counts : NameCounts) : node.Alike (Assignment.of config node children counts).node := by
  refine List.foldlRecOn _ _ (motive := fun assignment : Assignment => node.Alike assignment.node)
    (.refl node) fun assignment here candidate _ => ?_
  unfold Assignment.take
  split
  · exact here
  · exact here.trans ⟨rfl, rfl, rfl, rfl⟩

/-- Assigning names to an element adjusts it. -/
theorem Ready.assigned {node : Node} {assignment : ElementNames.Assignment}
    (ready : Ready original document) (stands : document.forest.Stands id)
    (found : document.forest.get? id = some node) (here : node.Alike assignment.node)
    {state : ElementNames.Outcome × Document}
    (assigned : ElementNames.Assigned document state id assignment) :
    Adjusted original document state.2 id := by
  have grown := ready.grown
  obtain ⟨relabels, symbols, -⟩ := assigned
  have elsewhere (k : NodeId) (ne : k ≠ id) (apart : k ∉ document.forest.children id) :
      state.2.forest.slot? k = document.forest.slot? k :=
    relabels.slot?_of_eq fun other => by
      rw [ElementNames.Assignment.change, if_neg ne, if_neg apart]
  constructor
  · have sparing : Ready original { document with forest := state.2.forest } := by
      refine ready.sparing (relabels.grown grown) (relabels.isRoot_iff.2 ready.top) ?_
      intro r isRoot ne _ k under
      have away (standing : document.forest.Stands k) : False :=
        ne (grown.ordered.eq_of_below isRoot.parent? ready.top.parent? under standing)
      exact elsewhere k (fun same => away (same ▸ stands)) fun link => away (stands.tail link)
    have counted := sparing.counted assignment.counts
    rwa [← symbols] at counted
  · intro k _
    have turned := relabels k
    unfold ElementNames.Assignment.change at turned
    by_cases same : k = id
    · subst same
      obtain ⟨slot, there, rfl⟩ := Option.map_eq_some_iff.1 found
      rw [there, Option.map_some, if_pos rfl] at turned
      exact .inr ⟨.refl, slot, assignment.node, there, turned, here⟩
    · by_cases child : k ∈ document.forest.children id
      · obtain ⟨slot, there, -⟩ := grown.exists_slot child
        rw [there, Option.map_some, if_neg same, if_pos child] at turned
        exact .inr ⟨.single child, slot, _, there, turned, alike_mapNames _ slot.node⟩
      · exact .inl (elsewhere k same child)

theorem adjusted_apply (ready : Ready original document) (stands : document.forest.Stands id) :
    Adjusted original document (ElementNames.apply document id).2 id := by
  by_cases element : ElementNames.isElement document.forest id
  · cases found : document.forest.get? id with
    | none => simp [ElementNames.isElement, found] at element
    | some node =>
      have kind : node.isElement := by simpa [ElementNames.isElement, found] using element
      exact ready.assigned stands found (alike_assignment _ _ _ _)
        (ElementNames.apply_assigned found kind)
  · rw [ElementNames.apply, if_neg element]
    exact .refl ready id

variable {s s' s'' : WriteState}

/-- Preparing an element, with what is gathered on the way. -/
structure Prepares (original : Document) (s s' : WriteState) (id : NodeId) : Prop
    extends Grows s s' where
  adjusted : Adjusted original s.document s'.document id

theorem Prepares.trans (first : Prepares original s s' id) (second : Prepares original s' s'' id)
    (stands : s.document.forest.Stands id) : Prepares original s s'' id :=
  ⟨first.toGrows.trans second.toGrows, first.adjusted.trans second.adjusted stands⟩

theorem Beside.prepares (beside : Beside original s s') (id : NodeId) :
    Prepares original s s' id := ⟨beside.toGrows, beside.ready, .of_spares beside.spares id⟩

theorem Prepares.modify (prepares : Prepares original s s' id)
    (stands : s.document.forest.Stands id) {change : Node → Node}
    (alike : ∀ node : Node, node.Alike (change node)) :
    Prepares original s (modifyForest (·.modify id change) s').2 id :=
  ⟨⟨prepares.errors, Nat.le_trans prepares.size_le (Nat.le_of_eq (Forest.size_modify id _).symm)⟩,
    prepares.adjusted.modify stands .refl alike⟩

theorem brought_of_alike {a b : Node} (alike : a.Alike b) (brought : a.Brought original) :
    b.Brought original := by
  refine ⟨?_, ?_⟩
  · rw [alike.usages]
    exact brought.usages
  · rw [alike.comment]
    exact brought.comment

/-- The nodes inside an element are those of its branches. -/
theorem childNodes_eq {trees : List NodeTree} (grown : s.document.forest.Grown)
    (shown : s.document.forest.Shows (s.document.forest.children id) trees) :
    (childNodes id s).1 = trees.map NodeTree.node := by
  change (s.document.forest.children id).filterMap s.document.forest.get? = _
  have get : s.document.forest.get? = fun id => (s.document.forest.tree? id).map NodeTree.node :=
    funext grown.get?_eq
  rw [get, ← List.map_filterMap, shown.filterMap]

variable {levels : Nat}

theorem brought_children (grown : s.document.forest.Grown)
    (fits : s.document.forest.Fits (Node.Brought original) levels id) :
    ∀ child ∈ (childNodes id s).1, child.Brought original := by
  obtain ⟨levels, rfl⟩ : ∃ n, levels = n + 1 := ⟨levels - 1, by have := fits.pos; omega⟩
  intro child member
  obtain ⟨c, link, found⟩ := List.mem_filterMap.1 member
  obtain ⟨_, _, _, below⟩ := grown.fits_iff.1 fits
  have fits' := below c link
  obtain ⟨levels, rfl⟩ : ∃ n, levels = n + 1 := ⟨levels - 1, by have := fits'.pos; omega⟩
  obtain ⟨slot, there, brought, -⟩ := grown.fits_iff.1 fits'
  rw [Forest.get?, there] at found
  cases found
  exact brought

theorem brought_styleBlocks {children : List Node}
    (inside : ∀ child ∈ children, child.Brought original) :
    ∀ block ∈ children.filterMap Node.styleBlock?,
      ∀ usage ∈ StyleItem.usagesIn block.items, usage.Brought original := by
  intro block member
  obtain ⟨child, there, found⟩ := List.mem_filterMap.1 member
  have brought := (inside child there).usages
  unfold Node.usages at brought
  unfold Node.styleBlock? at found
  split at found
  · next kind =>
    cases found
    rwa [kind] at brought
  · cases found

/-- The blocks that are written are those inside the element, with their new names. -/
theorem brought_named (ready : Ready original s.document) (stands : s.document.forest.Stands id)
    (fits : s.document.forest.Fits (Node.Brought original) levels id) :
    ∀ child ∈ (childNodes id (nameElement id s).2).1, child.Brought original := by
  have applied := adjusted_apply ready stands
  have fits' := applied.adjusts.fits ready.grown applied.ready.grown (fun _ _ => brought_of_alike)
    stands fits
  exact brought_children applied.ready.grown fits'

theorem prepareElement_apply (id : NodeId) (node : Node) (s : WriteState) :
    (prepareElement id node s).2 =
      if !Tags.isDocumentLevel node.name then
        let named := (nameElement id s).2
        let children := (childNodes id named).1
        let here := (named.document.forest.get? id).getD node
        let styled := localStyles node.span (ElementNames.contextSelector here .style)
          (children.filterMap Node.styleBlock?) named
        let scripted := (children.filterMap Node.scriptBlock?).forM
          (script node.span (ElementNames.contextSelector here .script) node.scope) styled.2
        (modifyForest (·.modify id fun node => { node with properties := styled.1 }) scripted.2).2
      else (modifyForest (·.modify id fun node => { node with properties := {} }) s).2 := by
  unfold prepareElement
  split <;> rfl

theorem prepareElement_prepares (keyed : original.symbols.Keyed) (ready : Ready original s.document)
    (stands : s.document.forest.Stands id)
    (fits : s.document.forest.Fits (Node.Brought original) levels id) (node : Node) :
    Prepares original s (prepareElement id node s).2 id := by
  rw [prepareElement_apply]
  split
  · have applied := adjusted_apply ready stands
    have named : Prepares original s (nameElement id s).2 id :=
      ⟨⟨List.prefix_rfl, Nat.le_of_eq (ElementNames.size_apply s.document id).symm⟩, applied⟩
    have stands' : (nameElement id s).2.document.forest.Stands id :=
      applied.adjusts.stands_iff.2 stands
    have inside := brought_named ready stands fits
    refine named.trans ?_ stands
    refine Prepares.modify (Beside.prepares ?_ id) stands' fun node => ⟨rfl, rfl, rfl, rfl⟩
    have ready' : Ready original (nameElement id s).2.document := applied.ready
    refine Calm.after ((collects_scripts _ _ node.scope _).calm keyed) ?_
    exact ((collects_localStyles (brought_styleBlocks inside) _ _).calm keyed).beside _ ready'
  · exact ((Beside.refl ready).prepares id).modify stands fun node => ⟨rfl, rfl, rfl, rfl⟩

end Write

end TemplateMarkup
