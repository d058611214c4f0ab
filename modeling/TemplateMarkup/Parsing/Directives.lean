import TemplateMarkup.Parsing.Values

/-! Statements about the document as a whole: imports, configurations and what is in use. -/
namespace TemplateMarkup.Parse

/-- Where a clause of an import ends: at the word that opens the next, or with the statement. -/
def clauseStop (word : Keyword) : Parse Bool := do
  return (← checkKeyword word) || (← peekKind).endsStatement

/-- The path of an import: what a string stands for, or the source up to an alias or the end. -/
def importPath : Parse String := do
  match ← peekKind with
  | .string text =>
    let _ ← advance
    return text
  | _ =>
    let start ← cursor
    skipUntil (clauseStop .asClause)
    let stop ← cursor
    if stop == start then unexpected "an import path" else spanning start (stop - 1)

def importStatement (parent : NodeId) : Parse Unit := do
  let keyword ← advance
  let start ← cursor
  skipUntil (clauseStop .fromClause)
  if !(← checkKeyword .fromClause) then unexpected "'from' in import"
  let stop ← cursor
  if stop == start then unexpected "an import target"
  let target := " ".intercalate (Text.words (← spanning start (stop - 1)))
  let _ ← advance
  let path ← importPath
  let localName ←
    if ← eat (.keyword .asClause) then do pure (some (← expectName "an alias").text)
    else pure none
  let _ ← eat .semicolon
  let spec : ImportSpec := { target, path, localName }
  modifySymbols (·.addImport spec)
  let _ ← addNode (some parent) { kind := .importing spec, span := keyword.span }

def configEntry : Parse (String × String) := do
  let key ← expectName "a configuration key"
  if (← peek).isAssign then
    let _ ← advance
    let value ← literal false
    let _ ← eat .semicolon
    return (key.text, value)
  else unexpected "'=' after configuration key"

def configGroupStep (group : String) (config : Config) : Parse (Option Config) := do
  if (← check .rightBrace) || (← atEnd) then return none
  else if ← eat .semicolon then return some config
  else
    let (key, value) ← configEntry
    return some { config with extra := config.extra.insert (group ++ "." ++ key) value }

def configGroup (group : String) (config : Config) : Parse Config := do
  let _ ← advance
  let _ ← expect .leftBrace "'\x7b'"
  let config ← loop (configGroupStep group) config
  let _ ← expect .rightBrace "'\x7d'"
  return config

def configStep (config : Config) : Parse (Option Config) := do
  let token ← peek
  match token.kind with
  | .rightBrace => return none
  | .eof => return none
  | .semicolon =>
    let _ ← advance
    return some config
  | .block .name => some <$> configGroup "Name" config
  | .block .originType => some <$> configGroup "OriginType" config
  | _ =>
    let (key, value) ← configEntry
    match config.set key value with
    | .ok config => return some config
    | .error error =>
      warn (.badConfig error) token.span
      return some config

def configName? : Parse (Option String) := do
  if ← eat (.atWord .config) then return some (← expectName "a configuration name").text
  else if (← peek).isName then return some (← advance).text
  else return none

/-- A configuration, from its word on. Without a name it is in force from here; with one it
waits to be asked for. -/
def configuration (parent : NodeId) : Parse Unit := do
  let keyword ← advance
  let name ← configName?
  let _ ← expect .leftBrace "'\x7b' to open configuration"
  let config ← loop configStep (← get).document.symbols.config
  let _ ← expect .rightBrace "'\x7d' to close configuration"
  match name with
  | some name =>
    if !(← withSymbols (·.registerConfiguration name config)) then
      warn (.duplicateConfiguration name) keyword.span
  | none => modifySymbols (·.setConfig config)
  let _ ← addNode (some parent)
    { kind := .configuration, name := name.getD "", span := keyword.span }

def useTarget : Parse UseTarget := do
  if ← eat (.keyword .html5) then
    modifySymbols (·.setHtml5)
    return .html5
  else if ← eat (.atWord .config) then
    let name ← expectName "a configuration name"
    modify fun s => { s with activations := (name.text, name.span) :: s.activations }
    return .config name.text
  else unexpected "'html5' or @Config"

/-- A `use` statement, which stands before anything else. -/
def useStatement (parent : NodeId) : Parse Unit := do
  let keyword ← peek
  if (← get).seenContent then fail .useNotFirst keyword.span
  let _ ← advance
  let target ← useTarget
  let _ ← eat .semicolon
  let _ ← addNode (some parent) { kind := .activation target, span := keyword.span }

end TemplateMarkup.Parse
