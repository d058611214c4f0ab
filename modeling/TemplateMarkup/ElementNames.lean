import TemplateMarkup.Document

/-! Classes and ids that elements take from the selectors in their own style and script blocks. -/
namespace TemplateMarkup

inductive NameSlot
  | byClass | byId
deriving DecidableEq, Inhabited

/-- Where an ampersand stands. -/
inductive BlockSide
  | style | script
deriving DecidableEq, Inhabited

def NameSlot.attribute : NameSlot → String
  | .byClass => "class"
  | .byId => "id"

namespace ElementNames

structure Outcome where
  className : Option String := none
  idName : Option String := none
deriving DecidableEq, Inhabited

structure Candidate where
  slot : NameSlot
  base : String
  enabled : Bool

def childNodes (forest : Forest) (element : NodeId) : List Node :=
  (forest.children element).filterMap forest.get?

/-- The first class and id of the style blocks, then those of the script blocks; style comes
before script, and classes before ids. -/
def candidates (config : Config) (children : List Node) : List Candidate :=
  let styles := children.filterMap Node.styleBlock?
  let scripts := children.filterMap Node.scriptBlock?
  let candidate (slot : NameSlot) (enabled : Bool) (base : Option String) :=
    (base.map fun base => (⟨slot, base, enabled⟩ : Candidate)).toList
  candidate .byClass config.styleNaming.classes (styles.findSome? StyleBlock.firstClass)
    ++ candidate .byClass config.scriptNaming.classes (scripts.findSome? ScriptBlock.firstClass)
    ++ candidate .byId config.styleNaming.ids (styles.findSome? StyleBlock.firstId)
    ++ candidate .byId config.scriptNaming.ids (scripts.findSome? ScriptBlock.firstId)

def renameIn (slot : NameSlot) (old new : String) (node : Node) : Node :=
  match node.kind, slot with
  | .style block, .byClass => { node with kind := .style (block.renameClass old new) }
  | .style block, .byId => { node with kind := .style (block.renameId old new) }
  | .script block, .byClass => { node with kind := .script (block.renameClass old new) }
  | .script block, .byId => { node with kind := .script (block.renameId old new) }
  | _, _ => node

def renameAround (forest : Forest) (element : NodeId) (slot : NameSlot)
    (old new : String) : Forest :=
  (forest.children element).foldl
    (fun forest child => forest.modify child (renameIn slot old new)) forest

def nextName (symbols : SymbolTable) (slot : NameSlot) (base : String) :
    String × SymbolTable :=
  match slot with
  | .byClass => symbols.nextClass base
  | .byId => symbols.nextId base

def hasName (forest : Forest) (element : NodeId) (slot : NameSlot) : Bool :=
  match forest.get? element with
  | some node => node.hasAttribute slot.attribute
  | none => false

def Outcome.note (outcome : Outcome) (slot : NameSlot) (name : String) : Outcome :=
  match slot with
  | .byClass => { outcome with className := some name }
  | .byId => { outcome with idName := some name }

/-- Gives an element a candidate's name, unless it has one or may not have it. -/
def take (element : NodeId) (state : Outcome × Document) (candidate : Candidate) :
    Outcome × Document :=
  let (outcome, ⟨forest, symbols⟩) := state
  if !candidate.enabled || hasName forest element candidate.slot then
    (outcome, ⟨forest, symbols⟩)
  else
    let (name, symbols) := nextName symbols candidate.slot candidate.base
    let forest :=
      if name = candidate.base then forest
      else renameAround forest element candidate.slot candidate.base name
    let forest := forest.modify element fun node =>
      { node with attributes := node.attributes.insert candidate.slot.attribute name }
    (outcome.note candidate.slot name, ⟨forest, symbols⟩)

def isElement (forest : Forest) (id : NodeId) : Bool :=
  match forest.get? id with
  | some node => node.isElement
  | none => false

def apply (document : Document) (element : NodeId) : Outcome × Document :=
  if isElement document.forest element then
    (candidates document.symbols.config (childNodes document.forest element)).foldl (take element)
      ({}, document)
  else ({}, document)

/-- The selector that an ampersand stands for on an element. -/
def contextSelector (node : Node) (side : BlockSide) : Option String :=
  let classSelector := node.firstClass.map ("." ++ ·)
  let idSelector := node.id.map ("#" ++ ·)
  match side with
  | .style => classSelector <|> idSelector
  | .script => idSelector <|> classSelector

end ElementNames

end TemplateMarkup
