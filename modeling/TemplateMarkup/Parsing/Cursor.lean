import TemplateMarkup.Parsing.Diagnostics

/-! A cursor over tokens, and the state that parsing carries along. -/
namespace TemplateMarkup

structure ParseInput where
  source : List Char
  tokens : Array Token
  nonempty : 0 < tokens.size
  strict : Bool
  /-- How deep elements, namespaces and bodies of usages may nest. -/
  maxDepth : Nat

structure ParseState where
  cursor : Nat := 0
  document : Document := {}
  /-- Last first. -/
  warnings : List ParseWarning := []
  /-- Configurations asked for, last first; they are activated when all are known. -/
  activations : List (String × Span) := []
  seenContent : Bool := false
  /-- The blocks that are open around the cursor. -/
  depth : Nat := 0
  /-- Every token and every stretch of source asked for was there. -/
  inRange : Bool := true
  /-- Parsing was cut short: a loop came to a step that took no token, or a block to a level that
  no production was built for. -/
  stalled : Bool := false

/-- A parse either gives a value or stops at an error; either way it leaves a state behind. -/
abbrev Parse (α : Type) := ReaderT ParseInput (EStateM ParseError ParseState) α

namespace ParseInput

/-- The token at an index; past the end the last one. -/
def token (input : ParseInput) (index : Nat) : Token :=
  have : min index (input.tokens.size - 1) < input.tokens.size := by
    have := input.nonempty
    omega
  input.tokens[min index (input.tokens.size - 1)]

def adjacent (input : ParseInput) (index : Nat) : Bool :=
  match input.tokens[index]? with
  | none => false
  | some token =>
    match index with
    | 0 => false
    | before + 1 =>
      match input.tokens[before]? with
      | none => false
      | some previous => token.span.start == previous.span.stop

def closingBrace? (input : ParseInput) (depth index : Nat) : Option Nat :=
  if h : index < input.tokens.size then
    match input.tokens[index].kind with
    | .leftBrace => input.closingBrace? (depth + 1) (index + 1)
    | .rightBrace =>
      if depth ≤ 1 then some index else input.closingBrace? (depth - 1) (index + 1)
    | _ => input.closingBrace? depth (index + 1)
  else none
termination_by input.tokens.size - index

/-- The index of the parenthesis that closes a reference with `depth` more open inside it. The
reference may not run past a semicolon or a brace. -/
def closingParen? (input : ParseInput) (depth index : Nat) : Option Nat :=
  if h : index < input.tokens.size then
    match input.tokens[index].kind with
    | .leftParen => input.closingParen? (depth + 1) (index + 1)
    | .rightParen =>
      match depth with
      | 0 => some index
      | depth + 1 => input.closingParen? depth (index + 1)
    | .semicolon => none
    | .leftBrace => none
    | .rightBrace => none
    | .eof => none
    | _ => input.closingParen? depth (index + 1)
  else none
termination_by input.tokens.size - index

def braceAhead (input : ParseInput) (index : Nat) : Bool :=
  if h : index < input.tokens.size then
    match input.tokens[index].kind with
    | .leftBrace => true
    | .semicolon => false
    | .rightBrace => false
    | .eof => false
    | _ => input.braceAhead (index + 1)
  else false
termination_by input.tokens.size - index

end ParseInput

namespace Parse

def cursor : Parse Nat := do return (← get).cursor

def moveTo (index : Nat) : Parse Unit := modify fun s => { s with cursor := index }

def peekAt (ahead : Nat) : Parse Token := do
  return (← read).token ((← cursor) + ahead)

def peek : Parse Token := peekAt 0

def peekKind : Parse TokenKind := do return (← peek).kind

/-- Takes the current token. The last token is never passed. -/
def advance : Parse Token := do
  let token ← peek
  let input ← read
  modify fun s =>
    if s.cursor < input.tokens.size - 1 then { s with cursor := s.cursor + 1 } else s
  return token

def check (kind : TokenKind) : Parse Bool := do return (← peekKind) == kind

def checkKeyword (word : Keyword) : Parse Bool := check (.keyword word)

def nextIs (kind : TokenKind) : Parse Bool := do return (← peekAt 1).kind == kind

def atEnd : Parse Bool := check .eof

def eat (kind : TokenKind) : Parse Bool := do
  if ← check kind then
    let _ ← advance
    return true
  else return false

def fail {α : Type} (problem : ParseProblem) (span : Span) : Parse α :=
  throw { problem, span }

def unexpected {α : Type} (what : String) : Parse α := do
  let token ← peek
  if token.kind == .eof then fail (.endOfInput what) token.span
  else fail (.unexpected what token.text) token.span

def expect (kind : TokenKind) (what : String) : Parse Token := do
  if ← check kind then advance else unexpected what

/-- Expects an identifier, or a reserved word that serves as a name. -/
def expectName (what : String) : Parse Token := do
  if (← peek).isName then advance else unexpected what

def warn (cause : ParseWarningCause) (span : Span) : Parse Unit :=
  modify fun s => { s with warnings := { cause, span } :: s.warnings }

def adjacentHere : Parse Bool := do return (← read).adjacent (← cursor)

def tooDeep {α : Type} : Parse α := do
  fail (.nestingTooDeep (← read).maxDepth) (← peek).span

def stall (s : ParseState) : ParseState := { s with stalled := true }

/-- Reads a block one level deeper, if the limit allows it. The level is left again also where
the block fails. -/
def deeper {α : Type} (block : Parse α) : Parse α := fun input s =>
  if input.maxDepth ≤ s.depth then tooDeep input s
  else match block input { s with depth := s.depth + 1 } with
    | .ok a s' => .ok a { s' with depth := s'.depth - 1 }
    | .error e s' => .error e { s' with depth := s'.depth - 1 }

/-- Repeats a step until it has nothing to add. A step that takes no token stalls the parse. -/
def loop {α : Type} (step : α → Parse (Option α)) (acc : α) (input : ParseInput)
    (s : ParseState) : EStateM.Result ParseError ParseState α :=
  match step acc input s with
  | .error e s' => .error e s'
  | .ok none s' => .ok acc s'
  | .ok (some acc') s' =>
    if s.cursor < s'.cursor ∧ s.cursor < input.tokens.size then loop step acc' input s'
    else .ok acc' (stall s')
termination_by input.tokens.size - s.cursor

/-- The step of a loop that gathers nothing. -/
def repeated (step : Parse Bool) (_ : Unit) : Parse (Option Unit) := do
  return if ← step then some () else none

def repeatStep (step : Parse Bool) : Parse Unit := loop (repeated step) ()

def skipStep (stop : Parse Bool) : Parse Bool := do
  if ← stop then return false
  else
    let _ ← advance
    return true

/-- Takes tokens until one satisfies `stop`. -/
def skipUntil (stop : Parse Bool) : Parse Unit := repeatStep (skipStep stop)

/-- Reads an item, unless the block around it ends. -/
def bodyStep (item : Parse Unit) : Parse Bool := do
  if (← check .rightBrace) || (← atEnd) then return false
  else
    item
    return true

def matchingBrace (start : Nat) : Parse Nat := do
  let input ← read
  match input.closingBrace? 0 start with
  | some close => return close
  | none => fail .unclosedBrace (match input.tokens[start]? with
    | some token => token.span
    | none => {})

/-- The token at an index that has been found to be there. -/
def tokenAt (index : Nat) : Parse Token := do
  let input ← read
  match input.tokens[index]? with
  | some token => return token
  | none =>
    modify fun s => { s with inRange := false }
    return input.token index

def slice (start stop : Nat) : Parse String := do
  match SourceText.slice? (← read).source start stop with
  | some text => return text
  | none =>
    modify fun s => { s with inRange := false }
    return ""

def between (first last : Nat) : Parse String := do
  let start := (← tokenAt first).span.stop
  slice start (max (← tokenAt last).span.start start)

def spanning (first last : Nat) : Parse String := do
  let start := (← tokenAt first).span.start
  slice start (max (← tokenAt last).span.stop start)

def upTo (first last : Nat) : Parse String := do
  let start := (← tokenAt first).span.start
  slice start (max (← tokenAt last).span.start start)

def currentScope : Parse String := do return (← get).document.symbols.currentScope

def modifySymbols (f : SymbolTable → SymbolTable) : Parse Unit :=
  modify fun s => { s with document := { s.document with symbols := f s.document.symbols } }

def withSymbols {α : Type} (f : SymbolTable → α × SymbolTable) : Parse α :=
  modifyGet fun s =>
    let (answer, symbols) := f s.document.symbols
    (answer, { s with document := { s.document with symbols } })

def modifyForest (f : Forest → Forest) : Parse Unit :=
  modify fun s => { s with document := { s.document with forest := f s.document.forest } }

/-- Adds a node below a parent, or outside the tree. -/
def addNode (parent : Option NodeId) (node : Node) : Parse NodeId :=
  modifyGet fun s =>
    let (id, forest) := match parent with
      | some parent => s.document.forest.insertChild parent node
      | none => s.document.forest.insertDetached node
    (id, { s with document := { s.document with forest } })

end Parse

end TemplateMarkup
