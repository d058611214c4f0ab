import TemplateMarkup.Parsing.Values

/-! Usages of definitions, and the edits in their bodies. -/
namespace TemplateMarkup.Parse

def definitionType : Parse DefinitionType := do
  let token ← peek
  match token.kind with
  | .atWord word =>
    match DefinitionType.ofAtWord? word with
    | some type =>
      let _ ← advance
      return type
    | none => fail (.notDefinitionType token.text) token.span
  | _ => unexpected "@Style, @Element or @Var"

def definitionKind? : Parse (Option DefinitionKind) := do
  match ← peekKind with
  | .block .template =>
    let _ ← advance
    return some .template
  | .block .custom =>
    let _ ← advance
    return some .custom
  | _ => return none

/-- The things to delete that have been read; plain names wait to go together. -/
structure DeleteDraft where
  edits : List Edit := []
  names : List String := []
  more : Bool := true

def DeleteDraft.flush (draft : DeleteDraft) : List Edit :=
  if draft.names.isEmpty then draft.edits else draft.edits ++ [.deleteNames draft.names]

/-- One thing to delete: a parent, an element by its number, or a plain name. -/
def deleteItem (draft : DeleteDraft) : Parse DeleteDraft := do
  let token ← peek
  let parent : Parse DeleteDraft := do
    let type ← definitionType
    let name ← definitionName
    return { draft with edits := draft.flush ++ [.deleteParent type name], names := [] }
  match token.kind with
  | .atWord _ => parent
  | .block .template =>
    let _ ← advance
    parent
  | .block .custom =>
    let _ ← advance
    parent
  | _ =>
    if startsProperty token then
      let name ← propertyName
      if ← check .leftBracket then
        let index ← elementIndex
        return { draft with
          edits := draft.flush ++ [.deleteElement ⟨name, some index⟩], names := [] }
      else return { draft with names := draft.names ++ [name] }
    else unexpected "a property, element or definition to delete"

def deleteStep (draft : DeleteDraft) : Parse (Option DeleteDraft) := do
  if draft.more then
    let draft ← deleteItem draft
    return some { draft with more := ← eat .comma }
  else return none

def deleteEdits : Parse (List Edit) := do
  let _ ← advance
  let draft ← loop deleteStep {}
  if !(← check .rightBrace) then
    let _ ← expect .semicolon "';' after delete"
  return draft.flush

def target : Parse Target := do
  let name ← propertyName
  if ← check .leftBracket then return ⟨name, some (← elementIndex)⟩ else return ⟨name, none⟩

def insertPosition : Parse InsertPosition := do
  match ← peekKind with
  | .keyword .after =>
    let _ ← advance
    return .after (← target)
  | .keyword .before =>
    let _ ← advance
    return .before (← target)
  | .keyword .replace =>
    let _ ← advance
    return .replace (← target)
  | .keyword .atClause =>
    let _ ← advance
    if ← eat (.keyword .top) then return .top
    else if ← eat (.keyword .bottom) then return .bottom
    else unexpected "'top' or 'bottom'"
  | _ => unexpected "after, before, replace or at"

def insertEdit (payload : Parse Payload) : Parse Edit := do
  let _ ← advance
  let position ← insertPosition
  let _ ← expect .leftBrace "'\x7b' to open insert body"
  let payload ← payload
  let _ ← expect .rightBrace "'\x7d' to close insert body"
  let _ ← eat .semicolon
  return .insert position payload

def insertedPropertyStep (properties : OrderedMap String Value) :
    Parse (Option (OrderedMap String Value)) := do
  match ← peekKind with
  | .rightBrace => return none
  | .eof => return none
  | .semicolon =>
    let _ ← advance
    return some properties
  | _ =>
    let (name, value) ← property
    return some (properties.insert name value)

def insertedProperties : Parse Payload := .properties <$> loop insertedPropertyStep {}

/-- One item in the body of a usage; `payload` reads what its insertions bring, and `other` any
item that is not an edit. -/
def usageStep (payload : Parse Payload) (other : Usage → Parse Usage) (usage : Usage) :
    Parse (Option Usage) := do
  match ← peekKind with
  | .rightBrace => return none
  | .eof => return none
  | .semicolon =>
    let _ ← advance
    return some usage
  | .comment .generator =>
    let _ ← advance
    return some usage
  | .keyword .delete =>
    let edits ← deleteEdits
    return some { usage with edits := usage.edits ++ edits }
  | .keyword .insert =>
    let edit ← insertEdit payload
    return some { usage with edits := usage.edits ++ [edit] }
  | _ => return some (← other usage)

/-- A usage of a definition of a type; `body` reads what stands between its braces. -/
def usageWith (type : DefinitionType) (body : Usage → Parse Usage) : Parse Usage := do
  let kind ← definitionKind?
  let token ← peek
  let found ← definitionType
  if type != found then fail (.usageMismatch type found) token.span
  let name ← definitionName
  let scope ← currentScope
  let origin ← if ← eat (.keyword .fromClause) then some <$> namespacePath else pure none
  let usage : Usage := { type, kind, name, origin, scope }
  let usage ←
    if ← eat .leftBrace then do
      let usage ← body usage
      let _ ← expect .rightBrace "'\x7d' to close usage body"
      pure usage
    else pure usage
  let _ ← eat .semicolon
  return usage

def filledProperty (usage : Usage) : Parse Usage := do
  let (name, value) ← property
  return { usage with fills := usage.fills.insert name value }

/-- A usage of a style or of variables. -/
def propertyUsage (type : DefinitionType) : Parse Usage :=
  usageWith type fun usage => deeper (loop (usageStep insertedProperties filledProperty) usage)

end TemplateMarkup.Parse
