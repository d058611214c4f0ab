import TemplateMarkup.Proofs.NamedElements
import TemplateMarkup.Proofs.OrderedMapLookup

/-! Elements and blocks that name each other. An element takes the names that its own blocks offer,
and where a name is taken already the blocks follow the element; nothing else changes, and an
element that has its names keeps them. -/
namespace TemplateMarkup

def Naming.allows (naming : Naming) : NameSlot → Bool
  | .byClass => naming.classes
  | .byId => naming.ids

namespace NameSlot

/-- The names with which rules of a style block begin. -/
def leading : NameSlot → StyleBlock → List String
  | .byClass, block => block.selectors.filterMap Selector.leadingClass
  | .byId, block => block.selectors.filterMap Selector.leadingId

/-- The names that a script block refers to. -/
def referred : NameSlot → ScriptBlock → List String
  | .byClass, block => block.parts.filterMap ScriptBlock.class?
  | .byId, block => block.parts.filterMap ScriptBlock.id?

end NameSlot

namespace ElementNames

/-- The names for a slot that the blocks inside an element may give it: those of the style blocks,
then those of the script blocks. -/
def offered (config : Config) (children : List Node) (slot : NameSlot) : List String :=
  (if config.styleNaming.allows slot then
    (children.filterMap Node.styleBlock?).flatMap slot.leading else []) ++
  if config.scriptNaming.allows slot then
    (children.filterMap Node.scriptBlock?).flatMap slot.referred else []

/-- The name in the blocks from which an element receives one for a slot: none if it has one. -/
def chosen (config : Config) (node : Node) (children : List Node) (slot : NameSlot) :
    Option String :=
  if node.hasAttribute slot.attribute then none else (offered config children slot).head?

variable {config : Config} {children : List Node} {document : Document} {id : NodeId} {node : Node}
  {slot : NameSlot} {counts : NameCounts} {assignment : Assignment} {cs : List Candidate}

section Candidates

end Candidates

section Taking

variable {base : String}

end Taking

section Again

end Again

end ElementNames

end TemplateMarkup
