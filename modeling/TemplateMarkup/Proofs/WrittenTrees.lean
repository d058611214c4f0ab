import Mathlib.Data.List.Perm.Subperm
import TemplateMarkup.Proofs.PreparedElements
import TemplateMarkup.Proofs.ParsedDocuments
import TemplateMarkup.Proofs.SerializedTrees
import TemplateMarkup.Proofs.TokenPlaces

/-! What is written is the markup of the tree that is left. A node is written once, and what
stands in its place then is not changed any more. -/
namespace TemplateMarkup

theorem Forest.Fits.of_spares {f g : Forest} {P : Node → Prop} {levels : Nat} {id : NodeId}
    (fits : f.Fits P levels id) (hf : f.Grown) (hg : g.Grown) (spares : f.Spares g id) :
    g.Fits P levels id := by
  obtain ⟨tree, there, fits⟩ := fits
  exact ⟨tree, (hf.tree?_of_spares hg spares).trans there, fits⟩

theorem Forest.Fits.here {f : Forest} {P : Node → Prop} {levels : Nat} {id : NodeId} {slot : Slot}
    (fits : f.Fits P levels id) (grown : f.Grown) (found : f.slot? id = some slot) :
    P slot.node := by
  obtain ⟨n, rfl⟩ : ∃ n, levels = n + 1 := ⟨levels - 1, by have := fits.pos; omega⟩
  obtain ⟨slot', found', here, -⟩ := grown.fits_iff.1 fits
  cases found.symm.trans found'
  exact here

namespace Write

/-- The children `old` of a node have been written as `text`, and `new` stand in their place. -/
structure Wrote (original : Document) (s s' : WriteState) (p : NodeId) (slot : Slot)
    (pre old new post : List NodeId) (text : String) : Prop extends Grows s s' where
  ready : Ready original s'.document
  replaces : s.document.forest.Replaces s'.document.forest p slot pre old new post
  shown : ∃ trees, s'.document.forest.Shows new trees ∧
    (s'.errors = [] → NodeTree.markupAll original.symbols trees = text)

variable {original : Document} {s s' s'' : WriteState} {p id : NodeId} {slot : Slot}
  {pre old new old' new' post : List NodeId} {text text' : String} {fuel levels : Nat}

theorem Wrote.trans (first : Wrote original s s' p slot pre old new (old' ++ post) text)
    (ready : Ready original s.document) (stands : s.document.forest.Stands p)
    (stands' : s'.document.forest.Stands p)
    (second : Wrote original s' s'' p slot (pre ++ new) old' new' post text') :
    Wrote original s s'' p slot pre (old ++ old') (new ++ new') post (text ++ text') where
  toGrows := first.toGrows.trans second.toGrows
  ready := second.ready
  replaces := first.replaces.trans ready.grown stands second.replaces
  shown := by
    obtain ⟨trees, shown, same⟩ := first.shown
    obtain ⟨trees', shown', same'⟩ := second.shown
    have kept : s''.document.forest.Shows new trees := by
      refine shown.of_spares first.ready.grown second.ready.grown fun c member => ?_
      have children := second.replaces.children
      refine second.replaces.spares first.ready.grown stands' ?_ ?_
      · rw [children]
        simp [member]
      · have nodup := first.ready.grown.nodup p
        rw [children, List.append_assoc, List.nodup_append] at nodup
        have later := nodup.2.1
        rw [List.nodup_append] at later
        exact fun again => later.2.2 c member c (List.mem_append_left _ again) rfl
    refine ⟨trees ++ trees', kept.append shown', fun none => ?_⟩
    have early : s'.errors = [] := List.prefix_nil.1 (none ▸ second.errors)
    rw [NodeTree.markupAll_append, same early, same' none]

theorem Wrote.nothing (ready : Ready original s.document)
    (before : s.document.forest.slot? p = some { slot with children := pre ++ post }) :
    Wrote original s s p slot pre [] [] post "" :=
  ⟨.refl s, ready, ⟨before, before, fun _ _ _ _ => rfl⟩, [], rfl, fun _ => by simp⟩

/-- There is fuel enough for a tree of so many levels and all that can be expanded in it: one
definition stands in another no more often than there are definitions. -/
structure Room (original : Document) (fuel levels : Nat) (expanding : List String) : Prop where
  nodup : expanding.Nodup
  labels : ∀ label ∈ expanding, ∃ key definition,
    original.symbols.definition? key = some definition ∧ key.name.label = label
  enough : levels + (original.symbols.definitions.size - expanding.length) *
    (original.forest.slots.size + 1) ≤ fuel

variable {expanding : List String}

theorem Room.inside (room : Room original (fuel + 1) (levels + 1) expanding) :
    Room original fuel levels expanding :=
  ⟨room.nodup, room.labels, by have := room.enough; omega⟩

theorem Room.expand {key : DefinitionKey} {definition : Definition}
    (room : Room original (fuel + 1) levels expanding) (pos : 0 < levels)
    (found : original.symbols.definition? key = some definition)
    (apart : key.name.label ∉ expanding) :
    Room original fuel original.forest.slots.size (expanding ++ [key.name.label]) := by
  have nodup : (expanding ++ [key.name.label]).Nodup := by
    rw [List.nodup_append]
    refine ⟨room.nodup, by simp, ?_⟩
    rintro a member b last rfl
    rw [List.mem_singleton] at last
    exact apart (last ▸ member)
  have labels : ∀ label ∈ expanding ++ [key.name.label], ∃ key definition,
      original.symbols.definition? key = some definition ∧ key.name.label = label := by
    intro label member
    rcases List.mem_append.1 member with old | last
    · exact room.labels label old
    · exact ⟨key, definition, found, (List.mem_singleton.1 last).symm⟩
  have few : (expanding ++ [key.name.label]).length ≤ original.symbols.definitions.size := by
    have sub : expanding ++ [key.name.label] ⊆
        original.symbols.definitions.keys.map fun key => key.name.label := by
      intro label member
      obtain ⟨key, definition, found, same⟩ := labels label member
      exact List.mem_map.2 ⟨key, OrderedMap.mem_keys_of_get? found, same⟩
    have le := (nodup.subperm sub).length_le
    rwa [List.length_map, ← OrderedMap.size_eq_length_keys] at le
  refine ⟨nodup, labels, ?_⟩
  have enough := room.enough
  rw [List.length_append, List.length_singleton] at few ⊢
  obtain ⟨rest, split⟩ : ∃ rest, original.symbols.definitions.size - expanding.length = rest + 1 :=
    ⟨original.symbols.definitions.size - expanding.length - 1, by omega⟩
  have less : original.symbols.definitions.size - (expanding.length + 1) = rest := by omega
  rw [split, Nat.succ_mul] at enough
  rw [less]
  omega

/-- Children of a node in the tree wait to be written, and there is room for all of them. -/
structure Queued (original : Document) (fuel levels : Nat) (expanding : List String)
    (s : WriteState) (p : NodeId) (slot : Slot) (pre ids post : List NodeId) : Prop where
  ready : Ready original s.document
  stands : s.document.forest.Stands p
  before : s.document.forest.slot? p = some { slot with children := pre ++ (ids ++ post) }
  fits : ∀ id ∈ ids, s.document.forest.Fits (Node.Brought original) levels id
  room : Room original fuel levels expanding

variable {ids : List NodeId}

theorem Queued.stands_head
    (queued : Queued original fuel levels expanding s p slot pre (id :: ids) post) :
    s.document.forest.Stands id := queued.stands.tail (Forest.mem_children_of_slot? queued.before)

theorem Queued.single
    (queued : Queued original fuel levels expanding s p slot pre (id :: ids) post) :
    Queued original fuel levels expanding s p slot pre [id] (ids ++ post) :=
  ⟨queued.ready, queued.stands, queued.before,
    fun _ member => queued.fits _ (List.mem_singleton.1 member ▸ .head _), queued.room⟩

/-- When the first nodes have been written the others are as they were. -/
theorem Queued.spares (old : List NodeId)
    (queued : Queued original fuel levels expanding s p slot pre (old ++ ids) post)
    (first : Wrote original s s' p slot pre old new (ids ++ post) text) :
    ∀ c ∈ ids, s.document.forest.Spares s'.document.forest c := by
  intro c member
  have children : s.document.forest.children p = pre ++ (old ++ (ids ++ post)) :=
    first.replaces.children
  have nodup := queued.ready.grown.nodup p
  rw [children, List.nodup_append] at nodup
  have later := nodup.2.1
  rw [List.nodup_append] at later
  refine first.replaces.spares queued.ready.grown queued.stands ?_ fun here =>
    later.2.2 c here c (List.mem_append_left _ member) rfl
  rw [children]
  simp [member]

theorem Queued.rest (old : List NodeId)
    (queued : Queued original fuel levels expanding s p slot pre (old ++ ids) post)
    (first : Wrote original s s' p slot pre old new (ids ++ post) text) :
    Queued original fuel levels expanding s' p slot (pre ++ new) ids post := by
  have children : s.document.forest.children p = pre ++ (old ++ (ids ++ post)) :=
    first.replaces.children
  have after := first.replaces.after
  rw [← List.append_assoc] at after
  refine ⟨first.ready, first.replaces.stands queued.stands fun c member => ?_, after, ?_,
    queued.room⟩
  · apply queued.ready.grown.not_below_child
    rw [children]
    simp [member]
  · exact fun c member => (queued.fits c (List.mem_append_right _ member)).of_spares
      queued.ready.grown first.ready.grown (queued.spares old first c member)

/-- A run has written the child `id` of a node in the tree. -/
abbrev WroteChild (original : Document) (s : WriteState) (p id : NodeId) (slot : Slot)
    (pre post : List NodeId) (run : String × WriteState) : Prop :=
  ∃ new, Wrote original s run.2 p slot pre [id] new post run.1

/-- A part of writing that takes a child of a node in the tree and writes it. -/
def Writes (original : Document) (fuel : Nat) (child : Surroundings → NodeId → Write String) :
    Prop :=
  ∀ ⦃around id s levels p slot pre post⦄,
    Queued original fuel levels around.expanding s p slot pre [id] post →
    WroteChild original s p id slot pre post (child around id s)

variable {child : Surroundings → NodeId → Write String} {around : Surroundings}

theorem mapM_cons_apply (id : NodeId) (ids : List NodeId) (s : WriteState) :
    (id :: ids).mapM (child around) s =
      ((child around id s).1 :: (ids.mapM (child around) (child around id s).2).1,
        (ids.mapM (child around) (child around id s).2).2) := by
  rw [List.mapM_cons]
  rfl

/-- Children are written one after the other, each in what the ones before have left. -/
theorem Writes.mapM (writes : Writes original fuel child)
    (queued : Queued original fuel levels around.expanding s p slot pre ids post) :
    ∃ new, Wrote original s (ids.mapM (child around) s).2 p slot pre ids new post
      (String.join (ids.mapM (child around) s).1) := by
  induction ids generalizing s pre with
  | nil => exact ⟨[], .nothing queued.ready queued.before⟩
  | cons id ids ih =>
    obtain ⟨new, first⟩ := writes queued.single
    have rest := queued.rest [id] first
    obtain ⟨more, later⟩ := ih rest
    have both := first.trans queued.ready queued.stands rest.stands later
    rw [mapM_cons_apply]
    refine ⟨new ++ more, ?_⟩
    rw [String.join_cons]
    exact both

theorem errors_fail (error : WriteError) (s : WriteState) : (fail error s).2.errors ≠ [] :=
  List.append_ne_nil_of_right_ne_nil s.errors (List.cons_ne_nil error [])

section Child

variable {expanding : List String} {run : String × WriteState}
  (queued : Queued original fuel levels expanding s p slot pre [id] post)

include queued

theorem Beside.wrote (beside : Beside original s run.2) {tree : NodeTree}
    (there : s.document.forest.tree? id = some tree)
    (same : run.2.errors = [] → tree.markup original.symbols = run.1) :
    WroteChild original s p id slot pre post run := by
  have spares : s.document.forest.Spares run.2.document.forest id := fun k below =>
    beside.spares k (Relation.ReflTransGen.trans queued.stands_head below)
  have kept := queued.ready.grown.tree?_of_spares beside.ready.grown spares
  exact ⟨[id], beside.toGrows, beside.ready, ⟨queued.before,
    (beside.spares p queued.stands).trans queued.before,
    fun k standing _ _ => beside.spares k standing⟩, [tree],
    Forest.shows_singleton.2 (kept.trans there), fun none => by simp [same none]⟩

theorem Beside.failed (beside : Beside original s run.2) (told : run.2.errors ≠ []) :
    WroteChild original s p id slot pre post run := by
  obtain ⟨tree, there, -⟩ := queued.fits id (.head _)
  exact beside.wrote queued there fun none => absurd none told

/-- What was written below a node that is adjusted beforehand. -/
theorem Wrote.inside {inner : Slot} (wrote : Wrote original s' run.2 id inner [] old new [] text)
    (adjusts : s.document.forest.Adjusts s'.document.forest id) (grows : Grows s s')
    (same : ∀ trees, NodeTree.markupAll original.symbols trees = text →
      (NodeTree.mk inner.node trees).markup original.symbols = run.1) :
    WroteChild original s p id slot pre post run := by
  obtain ⟨trees, shown, below⟩ := wrote.shown
  have tree := wrote.ready.grown.tree?_of_slot? wrote.replaces.after
  rw [List.nil_append, List.append_nil, shown.filterMap] at tree
  refine ⟨[id], grows.trans wrote.toGrows, wrote.ready,
    adjusts.replaces queued.ready.grown queued.stands queued.before wrote.replaces,
    [_], Forest.shows_singleton.2 tree, fun none => ?_⟩
  rw [NodeTree.markupAll_cons, NodeTree.markupAll_nil, String.append_empty]
  exact same trees (below none)

end Child

/-- What stands around the children of an element. -/
def insideElement (around : Surroundings) (node : Node) (children : List Node) : Surroundings :=
  { around with
    scope := if Tags.isDocumentLevel node.name then .wholeDocument else .ofElement
    ban := banOf node.name children
    depth := around.depth + 1 }

theorem element_apply (child : Surroundings → NodeId → Write String) (around : Surroundings)
    (id : NodeId) (node : Node) (s : WriteState) :
    element child around id node s =
      if node.isVoid && (childNodes id s).1.any Node.isContent then
        ("", (fail (.voidElementChildren node.name node.span) s).2)
      else
        let prepared := (prepareElement id node s).2
        let final := (prepared.document.forest.get? id).getD node
        if node.isVoid then (Markup.openTag final, prepared)
        else
          let run := (s.document.forest.children id).mapM
            (child (insideElement around node (childNodes id s).1)) prepared
          (Markup.openTag final ++ String.join run.1 ++ Markup.closeTag final, run.2) := by
  unfold element
  simp only [bind_apply]
  split
  · next content => exact (if_pos content).symm
  · next empty =>
    refine Eq.trans ?_ (if_neg empty).symm
    cases node.isVoid <;> rfl

theorem kind_of_isElement {node : Node} (isElement : node.isElement = true) :
    node.kind = .element := by
  unfold Node.isElement at isElement
  split at isElement
  · assumption
  · cases isElement

section Element

variable {here : Slot} (found : s.document.forest.slot? id = some here)

include found

/-- The children of an element wait when it has been prepared. -/
theorem prepareElement_queued {expanding : List String} (keyed : original.symbols.Keyed)
    (queued : Queued original (fuel + 1) (levels + 1) expanding s p slot pre [id] post) :
    ∃ final, here.node.Alike final ∧
      Queued original fuel levels expanding (prepareElement id here.node s).2 id
        { here with node := final } [] here.children [] := by
  have stands := queued.stands_head
  have fits := queued.fits id (.head _)
  have prepares := prepareElement_prepares keyed queued.ready stands fits here.node
  obtain ⟨final, adjusted, alike⟩ := prepares.adjusted.adjusts.self stands found
  have ready' := prepares.adjusted.ready
  have fits' := prepares.adjusted.adjusts.fits queued.ready.grown ready'.grown
    (fun _ _ => brought_of_alike) stands fits
  obtain ⟨_, _, _, below⟩ := ready'.grown.fits_iff.1 fits'
  rw [Forest.children_eq adjusted] at below
  exact ⟨final, alike, ready', prepares.adjusted.adjusts.stands_iff.2 stands,
    by simpa using adjusted, below, queued.room.inside⟩

theorem element_wrote (writes : Writes original fuel child) (keyed : original.symbols.Keyed)
    (queued : Queued original (fuel + 1) (levels + 1) around.expanding s p slot pre [id] post)
    (kind : here.node.kind = .element) :
    WroteChild original s p id slot pre post (element child around id here.node s) := by
  have prepares := prepareElement_prepares keyed queued.ready queued.stands_head
    (queued.fits id (.head _)) here.node
  obtain ⟨final, alike, below⟩ := prepareElement_queued found keyed queued
  have adjusted : (prepareElement id here.node s).2.document.forest.slot? id =
      some { here with node := final } := by simpa using below.before
  have get : (prepareElement id here.node s).2.document.forest.get? id = some final := by
    rw [Forest.get?, adjusted, Option.map_some]
  have isElement : final.kind = .element :=
    kind_of_isElement (alike.isElement.trans (by simp [Node.isElement, kind]))
  have void : here.node.isVoid = Tags.isVoid final.name := by
    simp [Node.isVoid, Node.isElement, kind, alike.name]
  rw [element_apply]
  split
  · exact ((calm_fail _).beside s queued.ready).failed queued (errors_fail _ s)
  · dsimp only
    rw [get, Option.getD_some, void]
    split
    · next isVoid =>
      have tree := below.ready.grown.tree?_of_slot? adjusted
      refine ⟨[id], prepares.toGrows, below.ready, prepares.adjusted.adjusts.replaces
        queued.ready.grown queued.stands queued.before (.refl adjusted), [_],
        Forest.shows_singleton.2 tree, fun _ => ?_⟩
      simp [NodeTree.markup, isElement, isVoid, Markup.openTag]
    · next notVoid =>
      have below' : Queued original fuel levels
          (insideElement around here.node (childNodes id s).1).expanding
          (prepareElement id here.node s).2 id { here with node := final } [] here.children [] :=
        below
      rw [Forest.children_eq found]
      obtain ⟨new, wrote⟩ := writes.mapM below'
      refine Wrote.inside queued wrote prepares.adjusted.adjusts prepares.toGrows
        fun trees same => ?_
      simp [NodeTree.markup, isElement, notVoid, Markup.openTag, Markup.closeTag, same,
        String.append_assoc]

end Element

/-- The name under which a usage is expanded. -/
def labelOf (table : SymbolTable) (usage : Usage) : String :=
  match table.usageKey usage with
  | some key => key.name.label
  | none => usage.name

theorem findIdx?_label {labels : List String} {label : String} :
    labels.findIdx? (· = label) = none ↔ label ∉ labels := by
  rw [List.findIdx?_eq_none_iff]
  constructor
  · intro other member
    simpa using other label member
  · intro apart other member
    refine decide_eq_false ?_
    rintro rfl
    exact apart member

theorem expandUsage_apply (child : Surroundings → NodeId → Write String) (around : Surroundings)
    (id : NodeId) (span : Span) (usage : Usage) (s : WriteState) :
    expandUsage child around id span usage s =
      match around.expanding.findIdx? (· = labelOf s.document.symbols usage) with
      | some start =>
        ("", (report span (.cyclicInheritance
          (around.expanding.drop start ++ [labelOf s.document.symbols usage])) s).2)
      | none =>
        match instantiate span usage s with
        | (none, s') => ("", s')
        | (some content, s') =>
          let run := content.elements.mapM
            (child { around with
              expanding := around.expanding ++ [labelOf s.document.symbols usage] })
            (modifyForest (·.splice id content.elements) s').2
          (String.join run.1, run.2) := by
  unfold expandUsage
  rw [bind_apply]
  change (match around.expanding.findIdx? (· = labelOf s.document.symbols usage) with
    | some start => _ | none => _ : Write String) s = _
  cases around.expanding.findIdx? (· = labelOf s.document.symbols usage) with
  | some start => rfl
  | none =>
    dsimp only
    rw [bind_apply]
    rcases instantiate span usage s with ⟨_ | content, s'⟩ <;> rfl

theorem brought_of_slot? {k : NodeId} {slot : Slot} (found : original.forest.slot? k = some slot) :
    slot.node.Brought original where
  usages usage used _ member := .inl ⟨usage, .inl ⟨k, slot, found, used⟩, member⟩
  comment _ same := ⟨k, slot.node, by rw [Forest.get?, found]; rfl, same⟩

variable {usage : Usage} {content : Content}

section

variable (supplies : Supplies original usage s s' content)

include supplies

/-- Copies of defined elements take the place of a usage. -/
theorem Supplies.splice (grown : original.forest.Grown) (ready : Ready original s.document)
    (stands : s.document.forest.Stands p)
    (before : s.document.forest.slot? p = some { slot with children := pre ++ (id :: post) }) :
    let spliced := (modifyForest (·.splice id content.elements) s').2
    Ready original spliced.document ∧
      s.document.forest.Replaces spliced.document.forest p slot pre [id] content.elements post ∧
      (∃ view, Grants original usage view ∧
        spliced.document.forest.Shows content.elements view.elements) ∧
      ∀ c ∈ content.elements, spliced.document.forest.Fits (Node.Brought original)
        original.forest.slots.size c := by
  have beside := supplies.beside
  obtain ⟨view, grants, -, shown⟩ := supplies.granted
  have origin : view.All fun tree => ∃ id, original.forest.tree? id = some tree :=
    grants.all supplies.brought fun id _ _ there => ⟨id, there⟩
  have stands' : s'.document.forest.Stands p := beside.spares.below stands
  have before' := (beside.spares p stands).trans before
  have old (r : NodeId) (slot : Slot) (found : s.document.forest.slot? r = some slot) :
      r ∉ content.elements := by
    intro member
    have := supplies.fresh r member
    have := Forest.lt_size_of_slot? found
    omega
  have lt : ∀ c ∈ content.elements, p.index < c.index := fun c member =>
    Nat.lt_of_lt_of_le (Forest.lt_size_of_slot? before) (supplies.fresh c member)
  obtain ⟨plants, replaces⟩ :=
    beside.ready.grown.splice stands' before' supplies.roots lt shown
  refine ⟨beside.ready.sparing plants.grown plants.top fun r isRoot ne used => ?_,
    replaces.after_spares stands beside.spares, ⟨view, grants, plants.shown⟩, fun c member => ?_⟩
  · refine plants.spares r isRoot ne ?_
    rcases used with owned | brings
    · exact fun member => supplies.apart r member owned
    · obtain ⟨⟨slot, found, -⟩, -⟩ := ready.standing.stored.brought r brings
      exact old r slot found
  · obtain ⟨tree, member, there⟩ := plants.shown.exists_tree member
    obtain ⟨k, same⟩ := origin tree member
    exact ⟨tree, there, grown.fits (fun _ _ => brought_of_slot?) same⟩

theorem Supplies.grows (id : NodeId) :
    Grows s (modifyForest (·.splice id content.elements) s').2 :=
  ⟨supplies.beside.errors,
    Nat.le_trans supplies.beside.size_le (Nat.le_of_eq Forest.size_splice.symm)⟩

/-- The copies wait where the usage stood, and one more definition is being expanded. -/
theorem Supplies.queued (grown : original.forest.Grown)
    (queued : Queued original (fuel + 1) levels expanding s p slot pre [id] post)
    (apart : labelOf s.document.symbols usage ∉ expanding) :
    Queued original fuel original.forest.slots.size
      (expanding ++ [labelOf s.document.symbols usage])
      (modifyForest (·.splice id content.elements) s').2 p slot pre content.elements post := by
  obtain ⟨ready, replaces, -, fits⟩ :=
    supplies.splice grown queued.ready queued.stands queued.before
  obtain ⟨key, definition, named, registered⟩ := supplies.key
  have label : labelOf s.document.symbols usage = key.name.label := by
    rw [labelOf, queued.ready.standing.rests.resembles.usageKey, named]
  rw [label] at apart ⊢
  refine ⟨ready, replaces.stands queued.stands fun c member => ?_, replaces.after, fits,
    queued.room.expand (queued.fits id (.head _)).pos registered apart⟩
  rw [List.mem_singleton.1 member]
  exact queued.ready.grown.not_below_child (Forest.mem_children_of_slot? queued.before)

end

theorem expandUsage_wrote (writes : Writes original fuel child) (keyed : original.symbols.Keyed)
    (grown : original.forest.Grown)
    (queued : Queued original (fuel + 1) levels around.expanding s p slot pre [id] post)
    {here : Slot} (found : s.document.forest.slot? id = some here)
    (kind : here.node.kind = .usage usage) (span : Span) :
    WroteChild original s p id slot pre post (expandUsage child around id span usage s) := by
  have ready := queued.ready
  have brought : usage.Brought original :=
    ((queued.fits id (.head _)).here ready.grown found).usages usage (by simp [Node.usages, kind])
  rw [expandUsage_apply]
  cases position : around.expanding.findIdx? (· = labelOf s.document.symbols usage) with
  | some start => exact ((calm_report _ _).beside s ready).failed queued (errors_fail _ s)
  | none =>
    have supplied : Supplied original span usage s (instantiate span usage s) :=
      instantiate_supplied keyed brought ready
    dsimp only
    cases done : instantiate span usage s with
    | mk content s' =>
      rw [done] at supplied
      cases content with
      | none =>
        refine Beside.wrote queued supplied.1 (ready.grown.tree?_of_slot? found) fun _ => ?_
        simp [NodeTree.markup, kind]
      | some content =>
        obtain ⟨ready', replaces, -⟩ :=
          Supplies.splice supplied grown ready queued.stands queued.before
        have waiting : Queued original fuel original.forest.slots.size
            ({ around with expanding := around.expanding ++ [labelOf s.document.symbols usage] } :
              Surroundings).expanding
            (modifyForest (·.splice id content.elements) s').2 p slot pre content.elements post :=
          Supplies.queued supplied grown queued (findIdx?_label.1 position)
        obtain ⟨new, wrote⟩ := writes.mapM waiting
        refine ⟨new, (Supplies.grows supplied id).trans wrote.toGrows, wrote.ready,
          replaces.again wrote.replaces fun k standing c member under => ?_, wrote.shown⟩
        -- the copies are newer than all that stood in the tree before
        obtain ⟨top, there, -⟩ := ready.top
        obtain ⟨_, there'⟩ := ready.grown.ordered.exists_slot_of_below there standing
        have := Forest.lt_size_of_slot? there'
        have := Supplies.fresh supplied c member
        have := ready'.grown.index_le under
        omega

section Nodes

variable {span : Span} {scope : String}

/-- Puts foreign text where its type says. -/
def placeText (type : OriginType) (content : String) : Write String :=
  match type with
  | .style => do
    addRule content
    return ""
  | .javaScript => do
    addScript content
    return ""
  | _ => return content

variable {R : Usage → Usage → Prop}

theorem gathers_placeText (type : OriginType) (content : String) :
    Gathers R (placeText type content) (placeText type content) := by
  cases type with
  | style => exact (Gathers.addRule content).bind fun _ => .pure ""
  | javaScript => exact (Gathers.addScript content).bind fun _ => .pure ""
  | html | other => exact .pure content

theorem originText_apply (block : OriginBlock) (s : WriteState) :
    originText span scope block s =
      match block.content, block.name with
      | some content, none => placeText block.type content s
      | none, some name =>
        match s.document.symbols.origin? block.type name scope with
        | some (_, content) => placeText block.type content s
        | none => ("", (warn span (.undefinedOrigin block.type name) s).2)
      | _, _ => ("", s) := by
  obtain ⟨type, name, content⟩ := block
  unfold originText
  cases name with
  | none => cases content <;> cases type <;> rfl
  | some name =>
    cases content with
    | some content => cases type <;> rfl
    | none =>
      dsimp only
      rw [bind_apply, show (symbols s).1 = s.document.symbols from rfl]
      cases s.document.symbols.origin? type name scope <;> cases type <;> rfl

theorem originText_eq_bind (type : OriginType) (name content : Option String) :
    originText span scope ⟨type, name, content⟩ =
      match content, name with
      | some content, none => placeText type content
      | none, some name => (do return (← symbols).origin? type name scope) >>= fun
        | some (_, content) => placeText type content
        | none => do
          warn span (.undefinedOrigin type name)
          return ""
      | _, _ => pure "" := by
  funext s
  rw [originText_apply]
  cases name with
  | none => cases content <;> rfl
  | some name =>
    cases content with
    | some content => rfl
    | none =>
      change _ = (match s.document.symbols.origin? type name scope with
        | some (_, content) => placeText type content
        | none => (warn span (.undefinedOrigin type name) >>= fun _ => pure "")) s
      dsimp only
      cases s.document.symbols.origin? type name scope <;> rfl

theorem gathers_originText (span span' : Span) (scope : String) (block : OriginBlock) :
    Gathers R (originText span scope block) (originText span' scope block) := by
  obtain ⟨type, name, content⟩ := block
  rw [originText_eq_bind, originText_eq_bind]
  cases name with
  | none =>
    cases content with
    | none => exact .pure ""
    | some content => exact gathers_placeText type content
  | some name =>
    cases content with
    | some content => exact .pure ""
    | none =>
      refine .bind (.origin? type name scope) fun found => ?_
      cases found with
      | none => exact (Gathers.warn _ _ _ _).bind fun _ => .pure ""
      | some found => exact gathers_placeText type found.2

theorem placeText_eq (table : SymbolTable) (type : OriginType) (content : String)
    (s : WriteState) : (placeText type content s).1 =
      OriginBlock.markup table scope { type, content := some content } := by
  cases type <;> rfl

theorem originText_eq (block : OriginBlock) (s : WriteState) :
    (originText span scope block s).1 = block.markup s.document.symbols scope := by
  rw [originText_apply]
  obtain ⟨type, name, content⟩ := block
  cases name with
  | none =>
    cases content with
    | none => cases type <;> rfl
    | some content => exact placeText_eq _ type content s
  | some name =>
    cases content with
    | some content => cases type <;> rfl
    | none =>
      rw [OriginBlock.markup_reference]
      dsimp only
      cases s.document.symbols.origin? type name scope with
      | none => rfl
      | some found => exact placeText_eq _ type found.2 s

theorem scope_queued {expanding : List String}
    (queued : Queued original (fuel + 1) (levels + 1) expanding s p slot pre [id] post)
    {here : Slot} (found : s.document.forest.slot? id = some here) :
    Queued original fuel levels expanding s id here [] here.children [] := by
  obtain ⟨_, _, _, below⟩ := queued.ready.grown.fits_iff.1 (queued.fits id (.head _))
  rw [Forest.children_eq found] at below
  exact ⟨queued.ready, queued.stands_head, by simpa using found, below, queued.room.inside⟩

/-- Whether writing a node goes on to nodes inside it, or in its place. -/
def goesOn (around : Surroundings) (node : Node) : Bool :=
  match node.kind with
  | .element => around.depth < maxElementDepth
  | .usage usage => usage.type == .element
  | .scope => true
  | _ => false

/-- A node that does not go on and is no element only adds to what has been gathered. -/
theorem gathers_allowedNode {g : Usage → Usage} {node : Node}
    (types : ∀ usage, (g usage).type = usage.type)
    (related : ∀ usage ∈ node.usages, R usage (g usage)) (alone : goesOn around node = false)
    (other : node.isElement = false) (span : Span) (id' : NodeId) :
    Gathers R (allowedNode child around id node)
      (allowedNode child around id' { node.mapUsages g with span }) := by
  obtain ⟨kind, name, content, attributes, properties, scope, span'⟩ := node
  unfold allowedNode Node.mapUsages
  cases kind with
  | element => cases other
  | style block =>
    cases around.scope with
    | wholeDocument => exact (gathers_globalStyle types related).bind fun _ => .pure ""
    | ofElement => exact .pure ""
  | script block =>
    cases around.scope with
    | wholeDocument => exact (gathers_script none scope block).bind fun _ => .pure ""
    | ofElement => exact .pure ""
  | usage usage =>
    have lone : (usage.type == .element) = false := alone
    dsimp only
    rw [types, lone]
    exact (Gathers.warn _ _ _ _).bind fun _ => .pure ""
  | origin block => exact gathers_originText span' span scope block
  | scope => cases alone
  | text | comment => exact .pure _
  | _ => exact .pure ""

theorem collects_allowedNode {node : Node} (brought : node.Brought original)
    (alone : goesOn around node = false) (other : node.isElement = false)
    (child : Surroundings → NodeId → Write String) (id : NodeId) :
    Collects original (allowedNode child around id node) :=
  ⟨allowedNode child around id { node.mapUsages (fun usage => usage) with span := {} },
    gathers_allowedNode (R := fun usage _ => usage.Brought original) (fun _ => rfl) brought.usages
      alone other {} id⟩

/-- A node that does not go on is worked on beside the tree. -/
theorem calm_allowedNode (keyed : original.symbols.Keyed) {node : Node}
    (brought : node.Brought original) (alone : goesOn around node = false) :
    Calm original (allowedNode child around id node) := by
  cases other : node.isElement with
  | false => exact (collects_allowedNode brought alone other child id).calm keyed
  | true =>
    have kind := kind_of_isElement other
    have deep : around.depth ≥ maxElementDepth := by simpa [goesOn, kind] using alone
    unfold allowedNode
    rw [kind]
    dsimp only
    rw [if_pos deep]
    exact (calm_fail _).bind fun _ => calm_pure ""

theorem allowedNode_wrote (writes : Writes original fuel child) (keyed : original.symbols.Keyed)
    (grown : original.forest.Grown)
    (queued : Queued original (fuel + 1) (levels + 1) around.expanding s p slot pre [id] post)
    {here : Slot} (found : s.document.forest.slot? id = some here) :
    WroteChild original s p id slot pre post (allowedNode child around id here.node s) := by
  have ready := queued.ready
  have brought := (queued.fits id (.head _)).here ready.grown found
  have tree := ready.grown.tree?_of_slot? found
  -- a node that stays what it is
  have stays (alone : goesOn around here.node = false)
      (same : (allowedNode child around id here.node s).1 =
        (NodeTree.mk here.node (here.children.filterMap s.document.forest.tree?)).markup
          original.symbols ∨ (allowedNode child around id here.node s).2.errors ≠ []) :
      WroteChild original s p id slot pre post (allowedNode child around id here.node s) := by
    refine ((calm_allowedNode keyed brought alone).beside s ready).wrote queued tree fun none => ?_
    rcases same with same | told
    · exact same.symm
    · exact absurd none told
  unfold goesOn at stays
  unfold allowedNode at stays ⊢
  cases kind : here.node.kind with
  | element =>
    rw [kind] at stays
    dsimp only at stays ⊢
    by_cases deep : around.depth ≥ maxElementDepth
    · rw [if_pos deep] at stays ⊢
      exact stays (by simpa using deep) (.inr (errors_fail _ s))
    · rw [if_neg deep]
      exact element_wrote found writes keyed queued kind
  | usage usage =>
    rw [kind] at stays
    dsimp only at stays ⊢
    cases type : usage.type == .element with
    | true => exact expandUsage_wrote writes keyed grown queued found kind _
    | false =>
      rw [type] at stays
      exact stays rfl (.inl (by rw [NodeTree.markup, kind]; rfl))
  | origin block =>
    rw [kind] at stays
    refine stays rfl (.inl ?_)
    dsimp only
    rw [originText_eq, block.markup_congr ready.standing.rests.resembles.origins,
      NodeTree.markup, kind]
  | scope =>
    have below : Queued original fuel levels
        ({ around with scope := .wholeDocument, ban := none } : Surroundings).expanding s id here
        [] here.children [] := scope_queued queued found
    obtain ⟨new, wrote⟩ := writes.mapM below
    rw [← Forest.children_eq found] at wrote
    refine Wrote.inside queued wrote (.of_spares (.refl _ _) id) (.refl s) fun trees same => ?_
    rw [NodeTree.markup, kind]
    exact same
  | style | script =>
    rw [kind] at stays
    exact stays rfl (.inl (by rw [NodeTree.markup, kind]; cases around.scope <;> rfl))
  | _ =>
    rw [kind] at stays
    exact stays rfl (.inl (by rw [NodeTree.markup, kind]; rfl))

theorem node_apply (fuel : Nat) (around : Surroundings) (id : NodeId) (s : WriteState) :
    node (fuel + 1) around id s =
      match s.document.forest.get? id with
      | none => ("", s)
      | some n =>
        match violation? s.document.symbols around.ban n with
        | some (ban, target) => ("", (fail (.constraintViolation ban.tag target n.span) s).2)
        | none => allowedNode (node fuel) around id n s := by
  rw [node, bind_apply, forest_apply]
  dsimp only
  cases s.document.forest.get? id with
  | none => rfl
  | some n =>
    dsimp only
    rw [bind_apply, show (symbols s).1 = s.document.symbols from rfl]
    cases violation? s.document.symbols around.ban n <;> rfl

/-- A node is written, with what has to be expanded in it. -/
theorem writes_node (keyed : original.symbols.Keyed) (grown : original.forest.Grown) (fuel : Nat) :
    Writes original fuel (node fuel) := by
  induction fuel with
  | zero =>
    intro around id s levels p slot pre post queued
    have := (queued.fits id (.head _)).pos
    have := queued.room.enough
    omega
  | succ fuel ih =>
    intro around id s levels p slot pre post queued
    obtain ⟨here, found, -⟩ :=
      queued.ready.grown.exists_slot (Forest.mem_children_of_slot? queued.before)
    obtain ⟨levels, rfl⟩ : ∃ n, levels = n + 1 :=
      ⟨levels - 1, by have := (queued.fits id (.head _)).pos; omega⟩
    rw [node_apply, Forest.get?, found, Option.map_some]
    dsimp only
    split
    · exact Beside.failed queued ((calm_fail _).beside s queued.ready) (errors_fail _ s)
    · exact allowedNode_wrote ih keyed grown queued found

end Nodes

theorem room_start (document : Document) :
    Room document (fuelFor document) document.forest.slots.size [] := by
  refine ⟨List.nodup_nil, by simp, ?_⟩
  rw [fuelFor, Nat.succ_mul, List.length_nil, Nat.sub_zero]
  omega

end Write

namespace Document.Sound

variable {document : Document} {hosts : List Host}

section

variable (sound : document.Sound hosts [])

include sound

theorem ready : Write.Ready document document where
  standing := ⟨sound.stored, Resolve.rests_of_unresolved sound.unresolved⟩
  top := sound.roots.isRoot _ (.head _)
  apart := fun member => (List.nodup_cons.1 sound.roots.nodup).1 (by simpa using member)
  outside := fun brings => (sound.brought _ brings).2 (.head _)

theorem queued {top : Slot} (found : document.forest.slot? Forest.root = some top) :
    Write.Queued document (Write.fuelFor document) document.forest.slots.size
      ({} : Surroundings).expanding { document } Forest.root top [] top.children [] := by
  refine ⟨sound.ready, .refl, by simpa using found, ?_, Write.room_start document⟩
  intro id link
  obtain ⟨slot, there, -⟩ := sound.grown.exists_slot (by rwa [Forest.children_eq found])
  have tree := sound.grown.tree?_of_slot? there
  exact ⟨_, tree, sound.grown.fits (fun _ _ => Write.brought_of_slot?) tree⟩

end

end Document.Sound

end TemplateMarkup
