import TemplateMarkup.Parsing.Elements

/-! Definitions. -/
namespace TemplateMarkup.Parse

def requireCustom (definition : Definition) (token : Token) : Parse Unit := do
  if !definition.isCustom then fail (.onlyInCustom token.text) token.span

def addParent (definition : Definition) (parent : Usage) (explicit : Bool) : Definition :=
  { definition with parents := definition.parents ++ [{ parent, explicit }] }

def valuelessStep (names : List String) : Parse (Option (List String)) := do
  if ← eat .comma then return some (names ++ [← propertyName]) else return none

/-- The names of properties without a value, after the first. -/
def moreValueless : List String → Parse (List String) := loop valuelessStep

def definedProperty (definition : Definition) (token : Token) : Parse Definition := do
  let name ← propertyName
  if (← peek).isAssign then
    let value ← assignedValue
    return { definition with properties := definition.properties.insert name value }
  else if definition.key.type != .style then unexpected "':' after variable name"
  else
    requireCustom definition token
    let names ← moreValueless [name]
    if !(← check .rightBrace) then
      let _ ← expect .semicolon "';' after property list"
    return { definition with valueless := definition.valueless ++ names }

/-- One item of a definition: a parent, an edit, or what `other` reads. -/
def definitionStep (usage : Parse Usage) (payload : Parse Payload)
    (other : Definition → Token → Parse Definition) (definition : Definition) :
    Parse (Option Definition) := do
  let token ← peek
  match token.kind with
  | .rightBrace => return none
  | .eof => return none
  | .semicolon =>
    let _ ← advance
    return some definition
  | .keyword .inherit =>
    let _ ← advance
    return some (addParent definition (← usage) true)
  | .atWord _ => return some (addParent definition (← usage) false)
  | .block .template => return some (addParent definition (← usage) false)
  | .block .custom => return some (addParent definition (← usage) false)
  | .keyword .delete =>
    requireCustom definition token
    let edits ← deleteEdits
    return some { definition with edits := definition.edits ++ edits }
  | .keyword .insert =>
    requireCustom definition token
    let edit ← insertEdit payload
    return some { definition with edits := definition.edits ++ [edit] }
  | _ => return some (← other definition token)

def propertyOrComment (definition : Definition) (token : Token) : Parse Definition := do
  if token.kind == .comment .generator then
    let _ ← advance
    return definition
  else definedProperty definition token

def propertyDefinition (definition : Definition) : Parse Definition :=
  loop (definitionStep (propertyUsage definition.key.type) insertedProperties propertyOrComment)
    definition

def addElement (definition : Definition) (id : NodeId) : Definition :=
  { definition with elements := definition.elements ++ [id] }

/-- An element, text, comment or origin block in an element definition; it stays outside the
tree. -/
def definedElement (inner : Nested) (definition : Definition) (token : Token) :
    Parse Definition := do
  let braced ← nextIs .leftBrace
  match token.kind with
  | .comment .generator =>
    let _ ← advance
    return addElement definition (← addNode none (commentNode token))
  | .block .origin => return addElement definition (← originBlock)
  | kind =>
    if kind == .keyword .text && braced then
      let node ← textBlock
      return addElement definition (← addNode none node)
    else if token.isName && braced then return addElement definition (← inner.element none)
    else unexpected "an element in @Element definition"

def elementDefinition (levels : Nat) (definition : Definition) : Parse Definition :=
  let inner := nested levels
  loop (definitionStep inner.usage (insertedElements inner) (definedElement inner)) definition

/-- A definition, from its word on. Its body goes into the symbol table, and a mark stays in the
tree. -/
def definitionBlock (levels : Nat) (parent : NodeId) : Parse Unit := do
  let keyword ← advance
  let kind : DefinitionKind := if keyword.kind == .block .custom then .custom else .template
  let type ← definitionType
  let name ← expectName "a definition name"
  let _ ← expect .leftBrace "'\x7b' to open definition body"
  let key : DefinitionKey := ⟨kind, type, ⟨← currentScope, name.text⟩⟩
  let draft : Definition := { key, span := keyword.span }
  let definition ←
    if type == .element then elementDefinition levels draft else propertyDefinition draft
  let _ ← expect .rightBrace "'\x7d' to close definition body"
  let _ ← addNode (some parent)
    { kind := .definition kind type, name := name.text, scope := ← currentScope,
      span := keyword.span }
  if !(← withSymbols (·.register definition)) then
    warn (.duplicateDefinition key) name.span

end TemplateMarkup.Parse
