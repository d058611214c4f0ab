import TemplateMarkup.ElementNames
import TemplateMarkup.Proofs.ForestReplacements

/-! Elements that take their names. What becomes of an element and of the nodes inside it is told
from these nodes and from how often each name was asked for. -/
namespace TemplateMarkup

/-- How often each class and each id was asked for. -/
structure NameCounts where
  classes : OrderedMap String Nat
  ids : OrderedMap String Nat

def NameCounts.next (counts : NameCounts) : NameSlot → String → String × NameCounts
  | .byClass, base =>
    let (name, classes) := SymbolTable.nextName counts.classes base
    (name, { counts with classes })
  | .byId, base =>
    let (name, ids) := SymbolTable.nextName counts.ids base
    (name, { counts with ids })

namespace SymbolTable

def counts (table : SymbolTable) : NameCounts := ⟨table.classCounts, table.idCounts⟩

def withCounts (table : SymbolTable) (counts : NameCounts) : SymbolTable :=
  { table with classCounts := counts.classes, idCounts := counts.ids }

end SymbolTable

/-- A tree with another node at its top. -/
def NodeTree.mapTop (change : Node → Node) : NodeTree → NodeTree
  | mk node branches => mk (change node) branches

theorem NodeTree.mapTop_id : NodeTree.mapTop (fun node => node) = id :=
  funext fun tree => by cases tree; rfl

namespace Forest

variable {f g h : Forest} {k c id : NodeId} {change change' : NodeId → Node → Node}

/-- The nodes change, and the links between them stay as they are. -/
def Relabels (f g : Forest) (change : NodeId → Node → Node) : Prop :=
  ∀ k, g.slot? k = (f.slot? k).map fun slot => { slot with node := change k slot.node }

namespace Relabels

theorem refl (f : Forest) : f.Relabels f fun _ node => node := by
  intro k
  cases f.slot? k <;> rfl

theorem trans (first : f.Relabels g change) (second : g.Relabels h change') :
    f.Relabels h fun k node => change' k (change k node) := by
  intro k
  rw [second k, first k, Option.map_map]
  rfl

theorem congr (relabels : f.Relabels g change)
    (same : ∀ k node, f.get? k = some node → change k node = change' k node) :
    f.Relabels g change' := by
  intro k
  rw [relabels k]
  cases found : f.slot? k with
  | none => rfl
  | some slot => rw [Option.map_some, Option.map_some, same k slot.node (by simp [get?, found])]

theorem modify (f : Forest) (id : NodeId) (turn : Node → Node) :
    f.Relabels (f.modify id turn) fun k node => if k = id then turn node else node := by
  intro k
  rw [slot?_modify]
  by_cases same : k = id
  · simp only [same, if_true]
  · simp [same]

section

variable (relabels : f.Relabels g change)

include relabels

theorem get? (k : NodeId) : g.get? k = (f.get? k).map (change k) := by
  rw [Forest.get?, relabels k, Forest.get?, Option.map_map, Option.map_map]
  rfl

theorem children (k : NodeId) : g.children k = f.children k := by
  rw [Forest.children, relabels k, Forest.children]
  cases f.slot? k <;> rfl

theorem parent? (k : NodeId) : g.parent? k = f.parent? k := by
  rw [Forest.parent?, relabels k, Forest.parent?]
  cases f.slot? k <;> rfl

theorem isRoot_iff : g.IsRoot k ↔ f.IsRoot k := by
  unfold IsRoot
  rw [relabels k]
  cases f.slot? k <;> simp

theorem grown (grown : f.Grown) : g.Grown where
  back p c link := by
    rw [relabels.children] at link
    rw [relabels.parent?]
    exact grown.back p c link
  lt p c link := by
    rw [relabels.children] at link
    exact grown.lt p c link
  nodup p := by
    rw [relabels.children]
    exact grown.nodup p

theorem slot?_of_eq (same : ∀ node, change k node = node) : g.slot? k = f.slot? k := by
  rw [relabels k]
  cases f.slot? k with
  | none => rfl
  | some slot => rw [Option.map_some, same]

/-- What becomes of a tree of which only the top and the nodes right below it change. -/
theorem tree? (grown : f.Grown) {tree : NodeTree} (there : f.tree? id = some tree)
    {rename : Node → Node} (inside : ∀ c ∈ f.children id, ∀ node, change c node = rename node)
    (deeper : ∀ k, k ≠ id → k ∉ f.children id → ∀ node, change k node = node) :
    g.tree? id = some (.mk (change id tree.node) (tree.branches.map (.mapTop rename))) := by
  have grown' := relabels.grown grown
  -- two levels down nothing has changed
  have spares (c d : NodeId) (link : c ∈ f.children id) (link' : d ∈ f.children c) :
      f.Spares g d := by
    intro k under
    have := grown.lt id c link
    have := grown.lt c d link'
    have := grown.index_le under
    refine relabels.slot?_of_eq (deeper k ?_ fun child => ?_)
    · rintro rfl
      omega
    · rcases Relation.ReflTransGen.cases_tail under with rfl | ⟨q, above, last⟩
      · cases (grown.back _ _ child).symm.trans (grown.back _ _ link')
        omega
      · cases (grown.back _ _ child).symm.trans (grown.back _ _ last)
        have := grown.index_le above
        omega
  have below (c : NodeId) (link : c ∈ f.children id) :
      g.tree? c = (f.tree? c).map (.mapTop rename) := by
    obtain ⟨slot, found, -⟩ := grown.exists_slot link
    have branches : slot.children.filterMap g.tree? = slot.children.filterMap f.tree? :=
      List.filterMap_congr fun d link' =>
        grown.tree?_of_spares grown' (spares c d link (by rwa [children_eq found]))
    have found' := relabels c
    rw [found, Option.map_some] at found'
    rw [grown.tree?_of_slot? found, grown'.tree?_of_slot? found', branches, inside c link]
    rfl
  obtain ⟨slot, found⟩ := grown.ordered.exists_slot_of_tree? there
  have found' := relabels id
  rw [found, Option.map_some] at found'
  rw [grown.tree?_of_slot? found] at there
  cases there
  have branches : slot.children.filterMap g.tree? =
      (slot.children.filterMap f.tree?).map (.mapTop rename) := by
    rw [List.map_filterMap]
    exact List.filterMap_congr fun c link => below c (by rwa [children_eq found])
  rw [grown'.tree?_of_slot? found', branches]
  rfl

end

end Relabels

theorem Grown.tree?_modify (grown : f.Grown) {tree : NodeTree} (there : f.tree? id = some tree)
    (change : Node → Node) :
    (f.modify id change).tree? id = some (.mk (change tree.node) tree.branches) := by
  have apart (c : NodeId) (link : c ∈ f.children id) : c ≠ id := by
    rintro rfl
    exact Nat.lt_irrefl _ (grown.lt c c link)
  have turned := (Relabels.modify f id change).tree? grown there
    (fun c link node => if_neg (apart c link)) fun k other _ node => if_neg other
  have same : tree.branches.map (.mapTop fun node => node) = tree.branches := by
    rw [NodeTree.mapTop_id, List.map_id]
  rwa [same, if_pos rfl] at turned

end Forest

/-- Whether a node is a style or a script block. -/
def Node.isBlock (node : Node) : Bool := node.styleBlock?.isSome || node.scriptBlock?.isSome

theorem Node.isBlock_of_isElement {node : Node} (element : node.isElement) :
    node.isBlock = false := by
  unfold isElement at element
  unfold isBlock styleBlock? scriptBlock?
  cases kind : node.kind <;> simp_all

/-- Turns the classes and ids in a selector into others. -/
def SelectorPart.mapNames (names : NameSlot → String → String) : SelectorPart → SelectorPart
  | .classPart name => .classPart (names .byClass name)
  | .idPart name => .idPart (names .byId name)
  | part => part

def ScriptPart.mapNames (names : NameSlot → String → String) : ScriptPart → ScriptPart
  | .classRef name => .classRef (names .byClass name)
  | .idRef name => .idRef (names .byId name)
  | part => part

/-- Turns the classes and ids in the rules of a style block and in a script block into others. -/
def Node.mapNames (names : NameSlot → String → String) (node : Node) : Node :=
  match node.kind with
  | .style block =>
    { node with kind := .style (block.mapSelectors fun s => ⟨s.parts.map (.mapNames names)⟩) }
  | .script block => { node with kind := .script ⟨block.parts.map (.mapNames names)⟩ }
  | _ => node

theorem Node.mapNames_mapNames (f g : NameSlot → String → String) (node : Node) :
    (node.mapNames g).mapNames f = node.mapNames fun slot name => f slot (g slot name) := by
  have selector (part : SelectorPart) :
      (part.mapNames g).mapNames f = part.mapNames fun slot name => f slot (g slot name) := by
    cases part <;> rfl
  have script (part : ScriptPart) :
      (part.mapNames g).mapNames f = part.mapNames fun slot name => f slot (g slot name) := by
    cases part <;> rfl
  obtain ⟨kind⟩ := node
  cases kind with
  | style block =>
    simp only [mapNames, StyleBlock.mapSelectors, List.map_map]
    congr 3
    refine List.map_congr_left fun item _ => ?_
    cases item <;> simp [StyleItem.mapSelector, Function.comp_def, selector]
  | script block => simp [mapNames, Function.comp_def, script]
  | _ => rfl

theorem Node.mapNames_id : Node.mapNames (fun _ name => name) = fun node => node := by
  have selector : SelectorPart.mapNames (fun _ name => name) = fun part => part :=
    funext fun part => by cases part <;> rfl
  have script : ScriptPart.mapNames (fun _ name => name) = fun part => part :=
    funext fun part => by cases part <;> rfl
  have items : StyleItem.mapSelector (fun s => ⟨s.parts⟩) = fun item => item :=
    funext fun item => by cases item <;> rfl
  funext node
  obtain ⟨kind⟩ := node
  cases kind <;> simp [mapNames, StyleBlock.mapSelectors, selector, script, items]

/-- Only blocks hold names. -/
theorem Node.mapNames_eq_self {node : Node} (plain : node.isBlock = false)
    (names : NameSlot → String → String) : node.mapNames names = node := by
  unfold isBlock styleBlock? scriptBlock? at plain
  unfold mapNames
  cases kind : node.kind <;> simp_all

namespace ElementNames

/-- One name of a slot turns into another. -/
def renamed (slot : NameSlot) (old new : String) (other : NameSlot) (name : String) : String :=
  if other = slot ∧ name = old then new else name

theorem renameIn_eq_mapNames (slot : NameSlot) (old new : String) (node : Node) :
    renameIn slot old new node = node.mapNames (renamed slot old new) := by
  have classPart : Selector.renameClassPart old new = .mapNames (renamed .byClass old new) :=
    funext fun part => by
      cases part <;> simp [Selector.renameClassPart, SelectorPart.mapNames, renamed]
  have idPart : Selector.renameIdPart old new = .mapNames (renamed .byId old new) :=
    funext fun part => by
      cases part <;> simp [Selector.renameIdPart, SelectorPart.mapNames, renamed]
  have classRef : ScriptBlock.renameClassRef old new = .mapNames (renamed .byClass old new) :=
    funext fun part => by
      cases part <;> simp [ScriptBlock.renameClassRef, ScriptPart.mapNames, renamed]
  have idRef : ScriptBlock.renameIdRef old new = .mapNames (renamed .byId old new) :=
    funext fun part => by
      cases part <;> simp [ScriptBlock.renameIdRef, ScriptPart.mapNames, renamed]
  obtain ⟨kind⟩ := node
  cases kind <;> cases slot <;>
    simp [renameIn, Node.mapNames, StyleBlock.renameClass, StyleBlock.renameId,
      Selector.renameClass, Selector.renameId, ScriptBlock.renameClass, ScriptBlock.renameId,
      classPart, idPart, classRef, idRef]

variable {f : Forest} {id : NodeId}

theorem relabels_renameAround (f : Forest) (id : NodeId) (slot : NameSlot) {old new : String}
    (other : new ≠ old) :
    f.Relabels (renameAround f id slot old new) fun k node =>
      if k ∈ f.children id then renameIn slot old new node else node := by
  -- a child that stands there twice is renamed twice, which comes to the same
  have twice (node : Node) : renameIn slot old new (renameIn slot old new node) =
      renameIn slot old new node := by
    simp only [renameIn_eq_mapNames, Node.mapNames_mapNames]
    congr 1
    funext other' name
    unfold renamed
    split <;> simp_all
  have each (ids : List NodeId) (f : Forest) :
      f.Relabels (ids.foldl (fun f c => f.modify c (renameIn slot old new)) f) fun k node =>
        if k ∈ ids then renameIn slot old new node else node := by
    induction ids generalizing f with
    | nil => exact (Forest.Relabels.refl f).congr fun _ _ _ => (if_neg List.not_mem_nil).symm
    | cons c ids ih =>
      refine ((Forest.Relabels.modify f c _).trans (ih _)).congr fun k node _ => ?_
      by_cases same : k = c
      · by_cases again : k ∈ ids <;> simp [same ▸ again, same, twice]
      · simp [same]
  exact each _ f

/-- What naming makes of an element, and of the names in the blocks inside it. -/
structure Assignment where
  node : Node
  names : NameSlot → String → String := fun _ name => name
  counts : NameCounts
  outcome : Outcome := {}

/-- What becomes of a node inside the element. -/
def Assignment.rename (assignment : Assignment) : Node → Node := Node.mapNames assignment.names

/-- One more name for a slot. -/
def Assignment.add (assignment : Assignment) (slot : NameSlot) (base : String) : Assignment :=
  let (name, counts) := assignment.counts.next slot base
  { node :=
      { assignment.node with attributes := assignment.node.attributes.insert slot.attribute name }
    names := fun other old => renamed slot base name other (assignment.names other old)
    counts
    outcome := assignment.outcome.note slot name }

/-- The name of a candidate is added, unless the element has one or may not have it. -/
def Assignment.take (assignment : Assignment) (candidate : Candidate) : Assignment :=
  if !candidate.enabled || assignment.node.hasAttribute candidate.slot.attribute then assignment
  else assignment.add candidate.slot candidate.base

theorem Assignment.isElement_take (assignment : Assignment) (candidate : Candidate) :
    (assignment.take candidate).node.isElement = assignment.node.isElement := by
  unfold take
  split <;> rfl

/-- The names that an element takes from the nodes inside it. -/
def Assignment.of (config : Config) (node : Node) (children : List Node) (counts : NameCounts) :
    Assignment := (candidates config children).foldl Assignment.take { node, counts }

/-- What becomes of the nodes at an element and right below it. -/
def Assignment.change (assignment : Assignment) (id : NodeId) (children : List NodeId) (k : NodeId)
    (node : Node) : Node :=
  if k = id then assignment.node else if k ∈ children then assignment.rename node else node

/-- The element at `id` has been assigned its names. -/
structure Assigned (document : Document) (state : Outcome × Document) (id : NodeId)
    (assignment : Assignment) : Prop where
  relabels : document.forest.Relabels state.2.forest
    (assignment.change id (document.forest.children id))
  symbols : state.2.symbols = document.symbols.withCounts assignment.counts
  outcome : state.1 = assignment.outcome

variable {document : Document} {state : Outcome × Document} {assignment : Assignment} {node : Node}

theorem Assigned.start (found : document.forest.get? id = some node) :
    Assigned document ({}, document) id { node, counts := document.symbols.counts } where
  relabels := by
    refine (Forest.Relabels.refl _).congr fun k other there => ?_
    rw [Assignment.change, Assignment.rename, Node.mapNames_id, ite_self]
    split
    · next same =>
      subst same
      exact Option.some.inj (there.symm.trans found)
    · rfl
  symbols := rfl
  outcome := rfl

theorem nextName_eq (table : SymbolTable) (slot : NameSlot) (base : String) :
    nextName table slot base =
      ((table.counts.next slot base).1, table.withCounts (table.counts.next slot base).2) := by
  cases slot <;> rfl

theorem take_eq (id : NodeId) (outcome : Outcome) (forest : Forest) (table : SymbolTable)
    (candidate : Candidate) :
    take id (outcome, ⟨forest, table⟩) candidate =
      if !candidate.enabled || hasName forest id candidate.slot then (outcome, ⟨forest, table⟩)
      else
        let (name, counts) := table.counts.next candidate.slot candidate.base
        (outcome.note candidate.slot name,
          ⟨(if name = candidate.base then forest
            else renameAround forest id candidate.slot candidate.base name).modify id fun node =>
              { node with attributes := node.attributes.insert candidate.slot.attribute name },
          table.withCounts counts⟩) := by
  unfold take
  dsimp only
  split
  · rfl
  · rw [nextName_eq]

/-- One more name is given. -/
theorem Assigned.take (found : document.forest.get? id = some node)
    (assigned : Assigned document state id assignment) (kind : assignment.node.isElement)
    (candidate : Candidate) :
    Assigned document (ElementNames.take id state candidate) id (assignment.take candidate) := by
  obtain ⟨outcome, ⟨forest, table⟩⟩ := state
  obtain ⟨relabels, symbols, same⟩ := assigned
  dsimp only at relabels symbols same
  have here : forest.get? id = some assignment.node := by
    rw [relabels.get?, found, Option.map_some, Assignment.change, if_pos rfl]
  have counts : table.counts = assignment.counts := by
    rw [symbols]
    rfl
  have has : hasName forest id candidate.slot =
      assignment.node.hasAttribute candidate.slot.attribute := by rw [hasName, here]
  rw [take_eq, has, counts, Assignment.take]
  split
  · exact ⟨relabels, symbols, same⟩
  · rw [Assignment.add]
    obtain ⟨name, counts⟩ := assignment.counts.next candidate.slot candidate.base
    refine ⟨?_, by rw [symbols]; rfl, by rw [same]⟩
    dsimp only
    have blocks : forest.Relabels
        (if name = candidate.base then forest
          else renameAround forest id candidate.slot candidate.base name)
        fun k node => if k ∈ forest.children id then
          node.mapNames (renamed candidate.slot candidate.base name) else node := by
      split
      · next same =>
        have idle : renamed candidate.slot candidate.base name = fun _ name => name := by
          funext slot old
          unfold renamed
          split <;> simp_all
        refine (Forest.Relabels.refl _).congr fun _ _ _ => ?_
        rw [idle, Node.mapNames_id, ite_self]
      · next other =>
        simpa only [renameIn_eq_mapNames] using
          relabels_renameAround forest id candidate.slot other
    refine ((relabels.trans blocks).trans (Forest.Relabels.modify _ id _)).congr ?_
    intro k other _
    rw [relabels.children]
    unfold Assignment.change Assignment.rename
    by_cases same : k = id
    · subst same
      simp [Node.mapNames_eq_self (Node.isBlock_of_isElement kind)]
    · by_cases child : k ∈ document.forest.children id <;>
        simp [same, child, Node.mapNames_mapNames]

/-- Naming an element assigns it the names that it takes from the nodes inside it. -/
theorem apply_assigned (found : document.forest.get? id = some node) (kind : node.isElement) :
    Assigned document (apply document id) id
      (.of document.symbols.config node (childNodes document.forest id)
        document.symbols.counts) := by
  have element : isElement document.forest id = true := by rwa [isElement, found]
  have each (list : List Candidate) (state : Outcome × Document) (assignment : Assignment)
      (assigned : Assigned document state id assignment) (kind : assignment.node.isElement) :
      Assigned document (list.foldl (ElementNames.take id) state) id
        (list.foldl Assignment.take assignment) := by
    induction list generalizing state assignment with
    | nil => exact assigned
    | cons candidate list ih =>
      exact ih _ _ (assigned.take found kind candidate)
        ((assignment.isElement_take candidate).trans kind)
  rw [apply, if_pos element]
  exact each _ _ _ (.start found) kind

end ElementNames

end TemplateMarkup
