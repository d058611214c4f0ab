import TemplateMarkup.Parsing.Cursor

/-! Names, indexes, references to variables and values. -/
namespace TemplateMarkup.Parse

def pathStep (path : String) : Parse (Option String) := do
  if (← check .classSelector) && (← adjacentHere) then
    return some (path ++ (← advance).text)
  else return none

/-- A dotted path of a namespace: a name, and class selectors right behind it. -/
def namespacePath : Parse String := do
  let first ← expectName "a namespace name"
  loop pathStep first.text

def nameStep (name : String) : Parse (Option String) := do
  if (← check .colon) && (← nextIs .colon) && (← peekAt 2).isName then
    let _ ← advance
    let _ ← advance
    return some (name ++ "::" ++ (← advance).text)
  else return none

def definitionName : Parse String := do loop nameStep (← namespacePath)

def elementIndex : Parse Nat := do
  let _ ← expect .leftBracket "'['"
  let token ← peek
  match if token.kind == .number then Text.readIndex? token.text else none with
  | none => unexpected "an element index"
  | some index =>
    let _ ← advance
    let _ ← expect .rightBracket "']'"
    return index

structure VarRefShape where
  close : Nat
  overrides : Bool

/-- The shape of the reference that starts at an index, if one does: a group, a parenthesis right
behind it, a name, and another value or none. -/
def varRefShape? (input : ParseInput) (index : Nat) : Option VarRefShape := do
  let group ← input.tokens[index]?
  guard (group.kind == .identifier)
  let paren ← input.tokens[index + 1]?
  guard (paren.kind == .leftParen && input.adjacent (index + 1))
  let name ← input.tokens[index + 2]?
  guard name.isName
  let after ← input.tokens[index + 3]?
  if after.kind == .rightParen then some ⟨index + 3, false⟩
  else
    guard after.isAssign
    let close ← input.closingParen? 0 (index + 4)
    guard (close != index + 4)
    some ⟨close, true⟩

/-- The other value that a reference asks for: what a lone string stands for, or the source. -/
def overrideValue (index close : Nat) : Parse String := do
  let token ← tokenAt index
  match token.kind, close == index + 1 with
  | .string value, true => return value
  | _, _ => return Text.trim (← spanning index (close - 1))

def varRefAt (index : Nat) : Parse (Option (VarRef × Nat)) := do
  match varRefShape? (← read) index with
  | none => return none
  | some shape =>
    let override ←
      if shape.overrides then some <$> overrideValue (index + 4) shape.close else pure none
    let ref : VarRef :=
      { group := (← tokenAt index).text
        name := (← tokenAt (index + 2)).text
        override
        scope := ← currentScope
        raw := ← spanning index shape.close }
    return some (ref, shape.close + 1)

structure ValueDraft where
  value : Value := {}
  segment : Option Nat := none

def valueStep (draft : ValueDraft) : Parse (Option ValueDraft) := do
  if (← peekKind).endsStatement then return none
  let here ← cursor
  match ← varRefAt here with
  | some (ref, next) =>
    let value ← match draft.segment with
      | some start => pure (draft.value.pushText (← upTo start here))
      | none => pure draft.value
    moveTo next
    return some { value := value.pushVar ref }
  | none =>
    let _ ← advance
    return some { draft with segment := some (draft.segment.getD here) }

def value : Parse Value := do
  let start ← cursor
  let draft ← loop valueStep {}
  let stop ← cursor
  let value ← match draft.segment with
    | some start => pure (draft.value.pushText (← spanning start (stop - 1)))
    | none => pure draft.value
  if stop == start then unexpected "a value" else return value

def literalEnds (lineEnds : Bool) (line : Nat) (token : Token) : Bool :=
  token.kind.endsStatement || (lineEnds && token.span.line > line)

def literalStop (lineEnds : Bool) (start line : Nat) : Parse Bool := do
  let token ← peek
  return token.kind.endsStatement
    || (lineEnds && (← cursor) > start && token.span.line > line)

/-- A literal: what a lone string stands for, or the source up to a semicolon or a closing
brace. Where lines count, it also ends with its line. -/
def literal (lineEnds : Bool) : Parse String := do
  let first ← peek
  let line := first.span.line
  match first.kind, literalEnds lineEnds line (← peekAt 1) with
  | .string text, true =>
    let _ ← advance
    return text
  | _, _ =>
    let start ← cursor
    skipUntil (literalStop lineEnds start line)
    let stop ← cursor
    if stop == start then unexpected "a value"
    else return Text.trim (← spanning start (stop - 1))

def startsProperty (token : Token) : Bool := token.isName || token.kind == .symbol '-'

def nameStop : Parse Bool := do return !((← adjacentHere) && startsProperty (← peek))

/-- A name of a property: names and hyphens with nothing between them. -/
def propertyName : Parse String := do
  let start ← cursor
  if startsProperty (← peek) then
    let _ ← advance
    skipUntil nameStop
    spanning start ((← cursor) - 1)
  else unexpected "a property name"

def assignedValue : Parse Value := do
  if (← peek).isAssign then
    let _ ← advance
    let value ← value
    let _ ← eat .semicolon
    return value
  else unexpected "':' after property name"

def property : Parse (String × Value) := do
  let name ← propertyName
  return (name, ← assignedValue)

def commentText (text : String) : String :=
  Text.trim (String.ofList (text.toList.dropWhile (· == '-')))

def commentNode (token : Token) : Node :=
  { kind := .comment, content := commentText token.text, span := token.span }

end TemplateMarkup.Parse
