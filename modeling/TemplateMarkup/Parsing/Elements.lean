import TemplateMarkup.Parsing.Origins
import TemplateMarkup.Parsing.Scripts
import TemplateMarkup.Parsing.Styles

/-! Elements and what stands in them. -/
namespace TemplateMarkup.Parse

def constraintTarget : Parse ConstraintTarget := do
  let token ← peek
  let kind ← definitionKind?
  match ← peekKind with
  | .atWord word =>
    let _ ← advance
    match DefinitionType.ofAtWord? word, kind with
    | some type, _ =>
      let name ← if (← peek).isName then do pure (some (← advance).text) else pure none
      return .definition kind (some type) name
    | none, none => return .origin (.ofAtWord word)
    | none, some _ => fail (.notConstraintType word) token.span
  | _ =>
    match kind with
    | some _ => return .definition kind none none
    | none => return .tag (← expectName "a tag name").text

/-- The targets of a constraint that have been read, and whether another follows. -/
structure ConstraintDraft where
  targets : List ConstraintTarget := []
  more : Bool := true

def constraintStep (draft : ConstraintDraft) : Parse (Option ConstraintDraft) := do
  if draft.more then
    let target ← constraintTarget
    return some { targets := draft.targets ++ [target], more := ← eat .comma }
  else return none

def constraint (element : NodeId) : Parse Unit := do
  let keyword ← advance
  let draft ← loop constraintStep {}
  if !(← check .rightBrace) then
    let _ ← expect .semicolon "';' after except list"
  let _ ← addNode (some element) { kind := .constraint draft.targets, span := keyword.span }

/-- A text block: what a lone string stands for, or the source between the braces. -/
def textBlock : Parse Node := do
  let keyword ← advance
  let start ← cursor
  let close ← matchingBrace start
  let first ← tokenAt (start + 1)
  let content ← match first.kind, close == start + 2 with
    | .string text, true => pure text
    | _, _ => do pure (Text.trim (← between start close))
  moveTo (close + 1)
  return { kind := .text, content, scope := ← currentScope, span := keyword.span }

def commentChild (parent : NodeId) : Parse Unit := do
  let token ← advance
  let _ ← addNode (some parent) (commentNode token)

def styleChild (parent : NodeId) : Parse Unit := do
  let span := (← peek).span
  let block ← styleBlock
  let _ ← addNode (some parent) { kind := .style block, scope := ← currentScope, span }

def scriptChild (parent : NodeId) : Parse Unit := do
  let span := (← peek).span
  let block ← scriptBlock
  let _ ← addNode (some parent) { kind := .script block, scope := ← currentScope, span }

/-- An attribute; its semicolon may be left out at the end of a line. -/
def attributeOf (element : NodeId) : Parse Unit := do
  let name ← advance
  let _ ← advance
  let value ← literal true
  let _ ← eat .semicolon
  modifyForest (·.modify element fun node =>
    { node with attributes := node.attributes.insert name.text value })

def textAttribute (element : NodeId) : Parse Unit := do
  let span := (← peek).span
  let _ ← advance
  let _ ← advance
  let content ← literal true
  let _ ← eat .semicolon
  let _ ← addNode (some element) { kind := .text, content, span }

/-- The productions for what may nest: an element, and what stands between the braces of a usage
of one. -/
structure Nested where
  element : Option NodeId → Parse NodeId
  usageBody : Usage → Parse Usage

def Nested.usage (nested : Nested) : Parse Usage := usageWith .element nested.usageBody

def usageNode (usage : Parse Usage) (parent : Option NodeId) : Parse NodeId := do
  let span := (← peek).span
  let usage ← usage
  addNode parent { kind := .usage usage, scope := ← currentScope, span }

def insertedElementStep (nested : Nested) (nodes : List NodeId) : Parse (Option (List NodeId)) := do
  let token ← peek
  match token.kind with
  | .rightBrace => return none
  | .eof => return none
  | .semicolon =>
    let _ ← advance
    return some nodes
  | .comment .generator =>
    let _ ← advance
    return some (nodes ++ [← addNode none (commentNode token)])
  | .atWord _ => return some (nodes ++ [← usageNode nested.usage none])
  | .block .template => return some (nodes ++ [← usageNode nested.usage none])
  | .block .custom => return some (nodes ++ [← usageNode nested.usage none])
  | .block .origin => return some (nodes ++ [← originBlock])
  | kind =>
    let braced ← nextIs .leftBrace
    if kind == .keyword .text && braced then
      let node ← textBlock
      return some (nodes ++ [← addNode none node])
    else if token.isName && braced then return some (nodes ++ [← nested.element none])
    else unexpected "an element to insert"

def insertedElements (nested : Nested) : Parse Payload :=
  .elements <$> loop (insertedElementStep nested) []

def elementItem (nested : Nested) (element : NodeId) : Parse Unit := do
  let token ← peek
  let next := (← peekAt 1).kind
  match token.kind with
  | .semicolon =>
    let _ ← advance
  | .comment .generator => commentChild element
  | .keyword .except => constraint element
  | .block .origin => originChild element
  | .atWord _ =>
    let _ ← usageNode nested.usage (some element)
  | .block .template =>
    let _ ← usageNode nested.usage (some element)
  | .block .custom =>
    let _ ← usageNode nested.usage (some element)
  | kind =>
    if next == .leftBrace && kind == .keyword .text then
      let node ← textBlock
      let _ ← addNode (some element) node
    else if next.isAssign && kind == .keyword .text then textAttribute element
    else if next == .leftBrace && kind == .keyword .style then styleChild element
    else if next == .leftBrace && kind == .keyword .script then scriptChild element
    else if token.isName && next.isAssign then attributeOf element
    else if token.isName && next == .leftBrace then
      let _ ← nested.element (some element)
    else unexpected "an attribute, element or block"

/-- An element below a parent or outside the tree. -/
def elementWith (nested : Nested) (parent : Option NodeId) : Parse NodeId := do
  let name ← expectName "an element name"
  if (← read).strict && !Tags.isKnown name.text then
    warn (.unknownElement name.text) name.span
  let id ← addNode parent
    { kind := .element, name := name.text, scope := ← currentScope, span := name.span }
  let _ ← expect .leftBrace "'\x7b' after element name"
  repeatStep (bodyStep (elementItem nested id))
  let _ ← expect .rightBrace "'\x7d' to close element"
  return id

def usageBodyWith (nested : Nested) (usage : Usage) : Parse Usage :=
  loop (usageStep (insertedElements nested) fun _ => unexpected "'delete' or 'insert'") usage

def outOfLevels {α : Type} : Parse α := do
  modify stall
  tooDeep

/-- Elements and usages of them, for so many levels. A level is built when something nests that
deep, so a limit costs nothing until it is used. The limit is met before the levels run out. -/
def nested : Nat → Nested
  | 0 => { element := fun _ => deeper outOfLevels, usageBody := fun _ => deeper outOfLevels }
  | levels + 1 =>
    { element := fun parent => deeper (elementWith (nested levels) parent)
      usageBody := fun usage => deeper (usageBodyWith (nested levels) usage) }

end TemplateMarkup.Parse
