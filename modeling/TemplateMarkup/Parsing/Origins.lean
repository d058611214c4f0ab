import TemplateMarkup.Parsing.Values

/-! Foreign text, and the layout that it keeps. -/
namespace TemplateMarkup

namespace Origin

def isIndent (c : Char) : Bool := c == ' ' || c == '\t'

def dropBreak : List Char → List Char
  | '\r' :: '\n' :: cs => cs
  | '\n' :: cs => cs
  | cs => cs

def indentation (line : List Char) : Nat :=
  SourceText.byteLength (line.takeWhile Text.isWhiteSpace)

def commonIndentation (lines : List (List Char)) : Nat :=
  (((lines.filter fun line => !line.all Text.isWhiteSpace).map indentation).min?).getD 0

/-- A line without its first `indent` bytes, or without its white space if they do not end at a
character. -/
def dedentLine (indent : Nat) (line : List Char) : List Char :=
  (SourceText.dropBytes? indent line).getD (Text.trimFront line)

/-- The lines of a body, after what follows its opening brace on the line and before what leads
to its closing brace. -/
def bodyLines (raw : List Char) : List (List Char) :=
  Text.lines (dropBreak ((Text.trimBack raw).dropWhile isIndent))

def dedent (raw : String) : String :=
  let lines := bodyLines raw.toList
  "\n".intercalate (lines.map fun line =>
    String.ofList (dedentLine (commonIndentation lines) line))

end Origin

namespace Parse

def originContent? (name : Option String) : Parse (Option String) := do
  if ← check .leftBrace then
    let start ← cursor
    let close ← matchingBrace start
    let content := Origin.dedent (← between start close)
    moveTo (close + 1)
    return some content
  else if name.isNone then unexpected "an origin name or '\x7b'"
  else return none

/-- An origin block, outside the tree, from its word on. A body with a name can be referred to
by it. -/
def originBlock : Parse NodeId := do
  let keyword ← advance
  let token ← peek
  match token.kind with
  | .atWord word =>
    let type := OriginType.ofAtWord word
    let _ ← advance
    let name ← if (← peek).isName then do pure (some (← advance).text) else pure none
    let content ← originContent? name
    let _ ← eat .semicolon
    let scope ← currentScope
    match name, content with
    | some name, some content =>
      if !(← withSymbols (·.registerOrigin type ⟨scope, name⟩ content)) then
        warn (.duplicateOrigin type name) keyword.span
    | _, _ => pure ()
    addNode none { kind := .origin { type, name, content }, scope, span := keyword.span }
  | _ => unexpected "an origin type such as @Html"

def originChild (parent : NodeId) : Parse Unit := do
  let id ← originBlock
  modifyForest (·.append parent id)

end Parse

end TemplateMarkup
