import TemplateMarkup.Proofs.DefinitionHeadings
import TemplateMarkup.Proofs.DefinitionMeaning

/-! What the table stores for a definition. A definition that is done holds what it means, in
subtrees of its own, and one that is not holds what was read in its body. -/
namespace TemplateMarkup

/-- The nodes that the edits of a usage bring. -/
def Usage.payload (usage : Usage) : List NodeId := usage.edits.flatMap Edit.payload

mutual

/-- The usages in an item of a style block. -/
def StyleItem.usages : StyleItem → List Usage
  | .property _ _ => []
  | .rule _ items => StyleItem.usagesIn items
  | .usage used => [used]
  | .raw _ => []

def StyleItem.usagesIn : List StyleItem → List Usage
  | [] => []
  | item :: items => item.usages ++ StyleItem.usagesIn items

end

/-- The usages that are written in a node. -/
def Node.usages (node : Node) : List Usage :=
  match node.kind with
  | .usage usage => [usage]
  | .style block => StyleItem.usagesIn block.items
  | _ => []

/-- The nodes that the definitions have for themselves. -/
def SymbolTable.owned (table : SymbolTable) : List NodeId :=
  table.definitions.values.flatMap Definition.elements

namespace Document

/-- A usage is written somewhere in a document: in a node, or as a parent of a definition. -/
def Occurs (document : Document) (usage : Usage) : Prop :=
  (∃ id slot, document.forest.slot? id = some slot ∧ usage ∈ slot.node.usages) ∨
    ∃ key definition, document.symbols.definition? key = some definition ∧
      ∃ inheritance ∈ definition.parents, inheritance.parent = usage

/-- A node is brought by an edit that is written somewhere in a document. -/
def Brings (document : Document) (id : NodeId) : Prop :=
  (∃ usage, document.Occurs usage ∧ id ∈ usage.payload) ∨
    ∃ key definition, document.symbols.definition? key = some definition ∧
      id ∈ definition.edits.flatMap Edit.payload

end Document

/-- The body of a definition is what `view` says, with its elements in a forest. -/
structure Definition.Shows (definition : Definition) (forest : Forest) (view : TreeContent) :
    Prop where
  properties : definition.properties = view.properties
  valueless : definition.valueless = view.valueless
  elements : forest.Shows definition.elements view.elements

/-- A definition that is done holds what it means in the original document, and one that is not
holds what was read. -/
def Document.Tells (original : Document) (forest : Forest) (key : DefinitionKey)
    (definition : Definition) : Prop :=
  if definition.resolution = .done then
    ∃ view, original.Means key view ∧ definition.Shows forest view
  else
    original.symbols.definition? key =
        some { definition with resolution := .pending } ∧
      definition.Shows forest (original.bodyOf definition)

/-- A document in which some definitions of `original` have been worked out. -/
structure Stored (original document : Document) : Prop where
  resembles : original.symbols.Resembles document.symbols
  grown : document.forest.Grown
  roots : document.forest.Roots document.symbols.owned
  brought : ∀ id, original.Brings id → document.forest.IsRoot id ∧
    id ∉ document.symbols.owned ∧ document.forest.tree? id = original.forest.tree? id
  tells : ∀ key definition, document.symbols.definition? key = some definition →
    original.Tells document.forest key definition

namespace SymbolTable

variable {table : SymbolTable} {key : DefinitionKey} {definition : Definition}

theorem mem_owned {id : NodeId} :
    id ∈ table.owned ↔
      ∃ key definition, table.definition? key = some definition ∧ id ∈ definition.elements := by
  rw [owned, List.mem_flatMap]
  constructor
  · rintro ⟨definition, member, inside⟩
    obtain ⟨key, found⟩ := OrderedMap.get?_of_mem_values member
    exact ⟨key, definition, found, inside⟩
  · rintro ⟨key, definition, found, inside⟩
    exact ⟨definition, OrderedMap.mem_values_of_get? found, inside⟩

/-- Changing one definition exchanges its nodes and leaves those of the others. -/
theorem owned_split (found : table.definition? key = some definition) :
    ∃ rest, table.owned.Perm (definition.elements ++ rest) ∧
      ∀ f, (table.modifyDefinition key f).owned.Perm ((f definition).elements ++ rest) := by
  obtain ⟨front, back, split, modified⟩ := OrderedMap.split_of_get? found
  have out (middle : Definition) :
      ((front ++ middle :: back).flatMap Definition.elements).Perm
        (middle.elements ++ (front ++ back).flatMap Definition.elements) := by
    rw [List.flatMap_append, List.flatMap_cons, List.flatMap_append]
    exact List.perm_append_comm_assoc _ _ _
  refine ⟨(front ++ back).flatMap Definition.elements, ?_, fun f => ?_⟩
  · rw [owned, split]
    exact out definition
  · rw [owned, modifyDefinition, modified]
    exact out (f definition)

theorem owned_split_other (found : table.definition? key = some definition)
    (extra : List NodeId) :
    ∃ rest, (table.owned ++ extra).Perm (definition.elements ++ extra ++ rest) ∧
      (∀ f, (table.modifyDefinition key f).owned.Perm ((f definition).elements ++ rest)) ∧
      ∀ k d, k ≠ key → table.definition? k = some d → ∀ id ∈ d.elements, id ∈ rest := by
  obtain ⟨rest, before, after⟩ := owned_split found
  refine ⟨rest, (before.append_right extra).trans ?_, after, fun k d other there id member => ?_⟩
  · rw [List.append_assoc, List.append_assoc]
    exact List.perm_append_comm.append_left _
  · have owned : id ∈ (table.modifyDefinition key fun d => { d with elements := [] }).owned :=
      mem_owned.2 ⟨k, d, (definition?_modify_other other).trans there, member⟩
    simpa using (after fun d => { d with elements := [] }).mem_iff.1 owned

end SymbolTable

namespace Forest.Turns

variable {f g : Forest} {own own' more : List NodeId}

theorem left (turns : f.Turns own g (own' ++ more)) : f.Turns own g own' where
  grown := turns.grown
  size_le := turns.size_le
  fresh := fun id member => turns.fresh id (List.mem_append_left _ member)
  roots := fun others roots => (turns.roots others roots).sublist
    ((List.sublist_append_left _ _).append (List.Sublist.refl _))
  spares := turns.spares

/-- Subtrees that are not among those that turn stay what they are. -/
theorem shows {ids : List NodeId} {trees : List NodeTree} (turns : f.Turns own g own')
    (grown : f.Grown) (roots : f.Roots (own ++ ids)) (shown : f.Shows ids trees) :
    g.Shows ids trees := by
  refine shown.of_spares grown turns.grown fun r member => ?_
  refine turns.spares r (roots.right.isRoot r member) fun other => ?_
  exact (List.nodup_append.1 roots.nodup).2.2 r other r member rfl

end Forest.Turns

theorem Document.Tells.of_shows {original : Document} {f g : Forest} {key : DefinitionKey}
    {definition : Definition} (tells : original.Tells f key definition)
    (shows : ∀ trees, f.Shows definition.elements trees → g.Shows definition.elements trees) :
    original.Tells g key definition := by
  unfold Document.Tells at tells ⊢
  split
  · next isDone =>
    rw [if_pos isDone] at tells
    obtain ⟨view, means, shown⟩ := tells
    exact ⟨view, means, shown.properties, shown.valueless, shows _ shown.elements⟩
  · next notDone =>
    rw [if_neg notDone] at tells
    obtain ⟨same, shown⟩ := tells
    exact ⟨same, shown.properties, shown.valueless, shows _ shown.elements⟩

namespace Stored

variable {original document : Document} {key : DefinitionKey} {definition : Definition}
  {g : Forest} {extra own : List NodeId}

variable (stored : Stored original document)

include stored

/-- One definition changes, with its nodes and some that no definition has. -/
theorem replace (found : document.symbols.definition? key = some definition)
    {f : Definition → Definition} (heading : ∀ d, (f d).heading = d.heading)
    (roots : document.forest.Roots (document.symbols.owned ++ extra))
    (apart : ∀ id, original.Brings id → id ∉ extra)
    (turns : document.forest.Turns (definition.elements ++ extra) g (f definition).elements)
    (tells : original.Tells g key (f definition)) :
    Stored original { forest := g, symbols := document.symbols.modifyDefinition key f } ∧
      document.forest.Turns (document.symbols.owned ++ extra) g
        (document.symbols.modifyDefinition key f).owned := by
  obtain ⟨rest, outside, after, others⟩ := SymbolTable.owned_split_other found extra
  have all : document.forest.Turns (document.symbols.owned ++ extra) g
      (document.symbols.modifyDefinition key f).owned :=
    (turns.frame rest).perm outside.symm (after f).symm
  refine ⟨⟨?_, all.grown, all.roots_self roots, ?_, ?_⟩, all⟩
  · exact stored.resembles.trans (SymbolTable.resembles_modifyDefinition _ _ heading)
  · intro id brings
    obtain ⟨root, other, same⟩ := stored.brought id brings
    have new : id ∉ document.symbols.owned ++ extra := by
      rw [List.mem_append]
      rintro (member | member)
      · exact other member
      · exact apart id brings member
    have spared := all.spares id root new
    refine ⟨spared.isRoot root, all.not_mem roots root new, ?_⟩
    rw [stored.grown.tree?_of_spares all.grown spared, same]
  · intro k d there
    rcases SymbolTable.modify_cases there with ⟨rfl, _, here, rfl⟩ | ⟨same, there⟩
    · cases found.symm.trans here
      exact tells
    · have inRest := others k d same there
      have split := roots.perm outside
      refine (stored.tells k d there).of_shows fun trees shown => ?_
      refine shown.of_spares stored.grown turns.grown fun id member => ?_
      refine turns.spares id (split.right.isRoot id (inRest id member)) fun mine => ?_
      exact (List.nodup_append.1 split.nodup).2.2 id mine id (inRest id member) rfl

theorem mark (found : document.symbols.definition? key = some definition)
    (notDone : definition.resolution ≠ .done) {resolution : Resolution}
    (short : resolution ≠ .done) :
    Stored original { document with
        symbols := document.symbols.modifyDefinition key fun d => { d with resolution } } ∧
      document.forest.Turns document.symbols.owned document.forest
        (document.symbols.modifyDefinition key fun d => { d with resolution }).owned := by
  have tells := stored.tells key definition found
  unfold Document.Tells at tells
  rw [if_neg notDone] at tells
  obtain ⟨same, shown⟩ := tells
  have marked : original.Tells document.forest key { definition with resolution } := by
    unfold Document.Tells
    rw [if_neg short]
    exact ⟨same, shown.properties, shown.valueless, shown.elements⟩
  have roots : document.forest.Roots (document.symbols.owned ++ []) := by
    simpa using stored.roots
  have turns : document.forest.Turns (definition.elements ++ []) document.forest
      { definition with resolution }.elements := by
    simpa using .refl stored.grown definition.elements
  have replaced := stored.replace (f := fun d => { d with resolution }) found (fun _ => rfl)
    roots (by simp) turns marked
  rwa [List.append_nil] at replaced

/-- The forest changes, but not in what definitions have and edits bring. -/
theorem sparing (grown : g.Grown)
    (spares : ∀ id, document.forest.IsRoot id → id ∈ document.symbols.owned ∨ original.Brings id →
      document.forest.Spares g id) : Stored original { document with forest := g } := by
  have owned (id : NodeId) (member : id ∈ document.symbols.owned) : document.forest.Spares g id :=
    spares id (stored.roots.isRoot id member) (.inl member)
  refine ⟨stored.resembles, grown, ⟨stored.roots.nodup, ?_⟩, ?_, ?_⟩
  · exact fun id member => (owned id member).isRoot (stored.roots.isRoot id member)
  · intro id brings
    obtain ⟨root, other, same⟩ := stored.brought id brings
    have spared := spares id root (.inr brings)
    refine ⟨spared.isRoot root, other, ?_⟩
    rw [stored.grown.tree?_of_spares grown spared, same]
  · intro k d there
    refine (stored.tells k d there).of_shows fun trees shown => ?_
    refine shown.of_spares stored.grown grown fun id member => ?_
    exact owned id (SymbolTable.mem_owned.2 ⟨k, d, there, member⟩)

theorem extend (turns : document.forest.Turns [] g own) :
    Stored original { document with forest := g } :=
  stored.sparing turns.grown fun id root _ => turns.spares id root (by simp)

theorem keeps (turns : document.forest.Turns document.symbols.owned g own) {ids : List NodeId}
    (brings : ∀ id ∈ ids, original.Brings id) : Forest.Keeps original.forest g own ids := by
  refine Forest.Keeps.turns ?_ stored.grown stored.roots turns
  exact fun id member => stored.brought id (brings id member)

theorem means_of_isDone (found : document.symbols.definition? key = some definition)
    (isDone : definition.resolution = .done) :
    ∃ view, original.Means key view ∧ definition.Shows document.forest view := by
  have tells := stored.tells key definition found
  unfold Document.Tells at tells
  rwa [if_pos isDone] at tells

end Stored

namespace Content.Shows

variable {content parent : Content} {forest : Forest} {view view' : TreeContent}

theorem fill (shown : content.Shows forest view) (fills : OrderedMap String Value) :
    (Resolve.fill fills content).Shows forest (view.fill fills) := by
  unfold Resolve.fill TreeContent.fill
  generalize fills.toList = entries
  induction entries generalizing content view with
  | nil => exact shown
  | cons e entries ih =>
    apply ih
    refine ⟨shown.type, ?_, ?_, shown.elements⟩
    · dsimp only
      rw [shown.properties]
    · dsimp only
      rw [shown.valueless]

theorem merge (shown : content.Shows forest view) (parent' : parent.Shows forest view') :
    (Resolve.merge content parent).Shows forest (view.merge view') := by
  refine ⟨shown.type, ?_, ?_, shown.elements.append parent'.elements⟩
  · rw [Resolve.merge, TreeContent.merge, shown.properties, parent'.properties]
  · rw [Resolve.merge, TreeContent.merge, shown.valueless, parent'.valueless]

theorem withOwn {definition : Definition} (shown : content.Shows forest view)
    (own : definition.Shows forest view') :
    (Resolve.withOwn content definition).Shows forest (view.withOwn view') := by
  refine ⟨shown.type, ?_, ?_, own.elements.append shown.elements⟩
  · rw [Resolve.withOwn, TreeContent.withOwn, shown.properties, own.properties]
  · rw [Resolve.withOwn, TreeContent.withOwn, shown.valueless, own.valueless, shown.properties,
      own.properties]

end Content.Shows

namespace Resolve

@[simp] theorem payload_parentUsage (key : DefinitionKey) (usage : Usage) :
    (parentUsage key usage).payload = usage.payload := by
  unfold parentUsage
  split <;> rfl

@[simp] theorem fill_elements (fills : OrderedMap String Value) (content : Content) :
    (fill fills content).elements = content.elements := by
  unfold fill
  generalize fills.toList = entries
  induction entries generalizing content with
  | nil => rfl
  | cons e entries ih =>
    rw [List.foldl_cons, ih]

/-- Whatever a usage brings, it receives new subtrees, and nothing that was there changes. -/
theorem receive_turns {s : ResolveState} (grown : s.document.forest.Grown) (usage : Usage)
    (definition : Definition) :
    s.document.forest.Turns [] (receive usage definition s).2.document.forest
      (receive usage definition s).1.elements := by
  have turns := grown.turns_copies definition.elements
  have none : s.document.forest.Roots [] := ⟨List.nodup_nil, by simp⟩
  have elements : (handed usage definition s).content.elements =
      (Forest.copyAll definition.elements s.document.forest).1 := fill_elements _ _
  obtain ⟨content, forest⟩ := receive_eq_edited usage definition s
  rw [content, forest]
  unfold edited
  split
  · have edited := @EditState.turns_applyAll (handed usage definition s) turns.grown
      (by rw [elements]; exact turns.roots_self none)
      s.document.symbols.config.indexInitialCount (.usage usage) usage.edits
    rw [elements] at edited
    exact turns.trans edited none
  · rw [elements]
    exact turns

theorem receive_shows {definition : Definition} {s : ResolveState} {usage : Usage}
    {view : TreeContent} {original : Forest} (grown : s.document.forest.Grown)
    (shown : definition.Shows s.document.forest view)
    (keeps : Forest.Keeps original s.document.forest [] usage.payload) :
    s.document.forest.Turns [] (receive usage definition s).2.document.forest
        (receive usage definition s).1.elements ∧
      (receive usage definition s).1.Shows (receive usage definition s).2.document.forest
        (view.received original.treesOf s.document.symbols.config.indexInitialCount usage
          definition.key.kind) := by
  refine ⟨receive_turns grown usage definition, ?_⟩
  obtain ⟨turns, copies⟩ := grown.turns_copyAll shown.elements
  have filled : (handed usage definition s).content.Shows (handed usage definition s).forest
      (TreeContent.fill usage.fills { view with type := usage.type }) :=
    Content.Shows.fill ⟨rfl, shown.properties, shown.valueless, copies⟩ usage.fills
  have none : s.document.forest.Roots [] := ⟨List.nodup_nil, by simp⟩
  have elements : (handed usage definition s).content.elements =
      (Forest.copyAll definition.elements s.document.forest).1 := fill_elements _ _
  obtain ⟨content, forest⟩ := receive_eq_edited usage definition s
  rw [content, forest]
  unfold edited TreeContent.received
  split
  · have holds : EditState.Holds (handed usage definition s)
        (TreeContent.fill usage.fills { view with type := usage.type }) :=
      ⟨turns.grown, by rw [elements]; exact turns.roots_self none, filled⟩
    have edited := holds.applyAll s.document.symbols.config.indexInitialCount (.usage usage)
      (by rw [elements]; exact keeps.turns grown none turns)
    exact edited.shown
  · exact filled

end Resolve

end TemplateMarkup
