import TemplateMarkup.ElementNames
import TemplateMarkup.Writing.Scripts
import TemplateMarkup.Writing.Styles

/-! Whole documents. The tree is walked once: a usage of an element gives way to copies of what
is defined, and every element is given its names before its tag is written. A node that may not
stand where it stands is left out with an error. -/
namespace TemplateMarkup

def maxElementDepth : Nat := 128

inductive BlockScope
  | wholeDocument | ofElement
deriving DecidableEq, Inhabited

structure Ban where
  tag : String
  targets : List ConstraintTarget

structure Surroundings where
  scope : BlockScope := .wholeDocument
  ban : Option Ban := none
  depth : Nat := 0
  /-- The names of the definitions that are being expanded, outermost first. -/
  expanding : List String := []

namespace Write

def forbids (symbols : SymbolTable) (target : ConstraintTarget) (node : Node) : Bool :=
  match target, node.kind with
  | .tag tag, .element => Text.equalsIgnoringCase node.name tag
  | .definition kind type name, .usage usage =>
    type.all (· == usage.type)
      && name.all (fun name =>
        QualifiedName.simpleName name == QualifiedName.simpleName usage.name)
      && kind.all fun kind =>
        (usage.kind <|> (symbols.lookupKey usage.name usage.type none usage.lookupScope).map
          DefinitionKey.kind) == some kind
  | .origin type, .origin block => block.type == type
  | _, _ => false

def violation? (symbols : SymbolTable) (ban : Option Ban) (node : Node) :
    Option (Ban × ConstraintTarget) := do
  let ban ← ban
  let target ← ban.targets.find? fun target => forbids symbols target node
  some (ban, target)

/-- Foreign text goes where its type says. A named body is only written where it is referred
to. -/
def originText (span : Span) (scope : String) (block : OriginBlock) : Write String := do
  let content ← match block.content, block.name with
    | some content, none => pure (some content)
    | none, some name =>
      match (← symbols).origin? block.type name scope with
      | some (_, content) => pure (some content)
      | none =>
        warn span (.undefinedOrigin block.type name)
        pure none
    | _, _ => pure none
  match content, block.type with
  | none, _ => return ""
  | some content, .style =>
    addRule content
    return ""
  | some content, .javaScript =>
    addScript content
    return ""
  | some content, _ => return content

def nameElement (id : NodeId) : Write Unit :=
  modify fun s => { s with document := (ElementNames.apply s.document id).2 }

def childNodes (id : NodeId) : Write (List Node) := do
  let forest ← forest
  return (forest.children id).filterMap forest.get?

def banOf (tag : String) (children : List Node) : Option Ban :=
  let targets := children.flatMap fun child =>
    match child.kind with
    | .constraint targets => targets
    | _ => []
  if targets.isEmpty then none else some { tag, targets }

def prepareElement (id : NodeId) (node : Node) : Write Unit := do
  if !Tags.isDocumentLevel node.name then
    nameElement id
    let children ← childNodes id
    let named := ((← forest).get? id).getD node
    let inline ← localStyles node.span (ElementNames.contextSelector named .style)
      (children.filterMap Node.styleBlock?)
    (children.filterMap Node.scriptBlock?).forM
      (script node.span (ElementNames.contextSelector named .script) node.scope)
    modifyForest (·.modify id fun node => { node with properties := inline })
  else modifyForest (·.modify id fun node => { node with properties := {} })

def element (child : Surroundings → NodeId → Write String) (around : Surroundings)
    (id : NodeId) (node : Node) : Write String := do
  let below := (← forest).children id
  let children ← childNodes id
  if node.isVoid && children.any Node.isContent then
    fail (.voidElementChildren node.name node.span)
    return ""
  prepareElement id node
  let final := ((← forest).get? id).getD node
  if node.isVoid then return Markup.openTag final
  let inside : Surroundings :=
    { around with
      scope := if Tags.isDocumentLevel node.name then .wholeDocument else .ofElement
      ban := banOf node.name children
      depth := around.depth + 1 }
  let texts ← below.mapM (child inside)
  return Markup.openTag final ++ String.join texts ++ Markup.closeTag final

/-- A usage of an element gives way to copies of the defined elements, which `child` writes. A
definition is not expanded inside itself. -/
def expandUsage (child : Surroundings → NodeId → Write String) (around : Surroundings)
    (id : NodeId) (span : Span) (usage : Usage) : Write String := do
  let label := match (← symbols).usageKey usage with
    | some key => key.name.label
    | none => usage.name
  match around.expanding.findIdx? (· = label) with
  | some start =>
    report span (.cyclicInheritance (around.expanding.drop start ++ [label]))
    return ""
  | none =>
    match ← instantiate span usage with
    | none => return ""
    | some content =>
      modifyForest (·.splice id content.elements)
      let texts ← content.elements.mapM
        (child { around with expanding := around.expanding ++ [label] })
      return String.join texts

def allowedNode (child : Surroundings → NodeId → Write String) (around : Surroundings)
    (id : NodeId) (node : Node) : Write String := do
  match node.kind, around.scope with
  | .element, _ =>
    if around.depth ≥ maxElementDepth then
      fail (.nestingTooDeep node.name maxElementDepth node.span)
      return ""
    else element child around id node
  | .text, _ => return Markup.escape node.content
  | .comment, _ => return Markup.comment node.content
  | .style block, .wholeDocument =>
    globalStyle node.span block
    return ""
  | .script block, .wholeDocument =>
    script node.span none node.scope block
    return ""
  | .usage usage, _ =>
    if usage.type == .element then expandUsage child around id node.span usage
    else
      warn node.span (.usageOutsideStyle usage)
      return ""
  | .origin block, _ => originText node.span node.scope block
  | .scope, _ =>
    let texts ← ((← forest).children id).mapM
      (child { around with scope := .wholeDocument, ban := none })
    return String.join texts
  | _, _ => return ""

/-- The markup of a node. Every step down takes one from `fuel`. -/
def node : Nat → Surroundings → NodeId → Write String
  | 0, _, _ => return ""
  | fuel + 1, around, id => do
    match (← forest).get? id with
    | none => return ""
    | some n =>
      match violation? (← symbols) around.ban n with
      | some (ban, target) =>
        fail (.constraintViolation ban.tag target n.span)
        return ""
      | none => allowedNode (node fuel) around id n

/-- More steps down than a document allows: between two expansions the walk goes down a subtree
that was there at the start, or a copy of one, and each expansion is of another definition. -/
def fuelFor (document : Document) : Nat :=
  (document.symbols.definitions.size + 1) * (document.forest.slots.size + 1)

end Write

structure WriteResult where
  html : String
  css : String
  js : String
  document : Document
  warnings : List WriteWarning
  errors : List WriteError
  fragments : List ScriptFragment

def WriteResult.success (result : WriteResult) : Bool := result.errors.isEmpty

def WriteResult.ofDocument (document : Document) : WriteResult :=
  let (texts, s) :=
    ((document.forest.children Forest.root).mapM
      (Write.node (Write.fuelFor document) {})).run { document }
  { html := (if document.symbols.html5 then Markup.doctype else "") ++ String.join texts
    css := "\n".intercalate s.css
    js := "\n".intercalate s.js
    document := s.document
    warnings := s.warnings
    errors := s.errors
    fragments := s.fragments }

end TemplateMarkup
