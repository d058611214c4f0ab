import TemplateMarkup.Parsing.Definitions
import TemplateMarkup.Parsing.Directives
import TemplateMarkup.TokenStream

/-! Whole documents. An error ends the item in which it stands, and parsing goes on behind it. -/
namespace TemplateMarkup

structure ParseOptions where
  strict : Bool := false
  maxDepth : Nat := 128

structure ParseResult where
  document : Document
  /-- In the order in which they were met. -/
  errors : List ParseError
  warnings : List ParseWarning
  /-- Every token and every stretch of source that the parse asked for was there. -/
  inRange : Bool
  /-- Parsing was cut short, which never happens. -/
  stalled : Bool

namespace ParseResult

def success (result : ParseResult) : Bool := result.errors.isEmpty

def error? (result : ParseResult) : Option ParseError := result.errors.head?

def messages (result : ParseResult) : List String :=
  result.warnings.map ParseWarning.message ++ result.errors.tail.map ParseError.message

end ParseResult

namespace Parse

def ignoredBlock : Parse Unit := do
  let token ← advance
  warn (.ignoredBlock token.text) token.span
  if ← check .leftBrace then
    moveTo ((← matchingBrace (← cursor)) + 1)
  let _ ← eat .semicolon

def closeNamespace (s : ParseState) : ParseState :=
  { s with document := { s.document with symbols := s.document.symbols.exitNamespace.2 } }

/-- Closes the innermost namespace behind a body, whether the body ends well or not. -/
def closing (body : Parse Unit) : Parse Unit := fun input s =>
  match body input s with
  | .ok _ s' => .ok () (closeNamespace s')
  | .error e s' => .error e (closeNamespace s')

/-- A namespace, from its word on. With braces it holds what is between them, and is closed again
also when that fails; without, it holds the rest of the document. -/
def namespaceBlock (body : NodeId → Parse Unit) (parent : NodeId) : Parse Unit := do
  let keyword ← advance
  let name ← expectName "a namespace name"
  match ← withSymbols (·.enterNamespace name.text) with
  | .conflict existing => warn (.namespaceConflict name.text existing) name.span
  | _ => pure ()
  let id ← addNode (some parent)
    { kind := .scope, name := name.text, scope := ← currentScope, span := keyword.span }
  if ← eat .leftBrace then closing (deeper (body id))
  else
    let _ ← eat .semicolon

def namespaceBody (item : NodeId → Parse Unit) (id : NodeId) : Parse Unit := do
  repeatStep (bodyStep (item id))
  let _ ← expect .rightBrace "'\x7d' to close namespace"

/-- An item that is neither a `use` statement nor a comment; `inNamespace` reads the items of a
namespace. -/
def contentItem (levels : Nat) (inNamespace : NodeId → Parse Unit) (parent : NodeId) :
    Parse Unit := do
  let token ← peek
  let braced ← nextIs .leftBrace
  match token.kind with
  | .block .template => definitionBlock levels parent
  | .block .custom => definitionBlock levels parent
  | .block .origin => originChild parent
  | .block .importing => importStatement parent
  | .block .scope => namespaceBlock inNamespace parent
  | .block .configuration => configuration parent
  | .block _ => ignoredBlock
  | .atWord _ =>
    let _ ← usageNode (nested levels).usage (some parent)
  | kind =>
    if kind == .keyword .style && braced then styleChild parent
    else if kind == .keyword .script && braced then scriptChild parent
    else if kind == .keyword .text && braced then
      let node ← textBlock
      let _ ← addNode (some parent) node
    else if token.isName && braced then
      let _ ← (nested levels).element (some parent)
    else unexpected "an element, definition or directive"

def item : Nat → NodeId → Parse Unit
  | levels, parent => do
    match ← peekKind with
    | .keyword .useClause => useStatement parent
    | .comment .generator => commentChild parent
    | .semicolon =>
      let _ ← advance
    | _ =>
      modify fun s => { s with seenContent := true }
      match levels with
      | 0 => contentItem 0 (fun _ => outOfLevels) parent
      | inner + 1 => contentItem (inner + 1) (namespaceBody (item inner)) parent

def braceBalance (tokens : List Token) : Int :=
  tokens.foldl (fun depth token =>
    match token.kind with
    | .leftBrace => depth + 1
    | .rightBrace => depth - 1
    | _ => depth) 0

/-- The index behind the item that failed at `index`, with `depth` braces open: behind the brace
that closes the last of them, or behind a semicolon outside of all. The last token is not
passed. -/
def resume (input : ParseInput) (depth : Int) (index : Nat) : Nat :=
  if _ : index + 1 < input.tokens.size then
    match (input.token index).kind with
    | .eof => index
    | .leftBrace => resume input (depth + 1) (index + 1)
    | .rightBrace => if depth ≤ 1 then index + 1 else resume input (depth - 1) (index + 1)
    | .semicolon => if depth ≤ 0 then index + 1 else resume input depth (index + 1)
    | _ => resume input depth (index + 1)
  else index
termination_by input.tokens.size - index

/-- Where parsing goes on after an item that started at one index and failed at another. If the
item stopped just behind its end, it goes on there. -/
def recovery (input : ParseInput) (start stop : Nat) : Nat :=
  let depth := braceBalance (input.tokens.toList.extract start stop)
  let ended := start < stop && depth ≤ 0 &&
    ((input.token (stop - 1)).kind == .semicolon || (input.token (stop - 1)).kind == .rightBrace)
  if ended then stop else resume input depth stop

def items (errors : List ParseError) (input : ParseInput) (s : ParseState) :
    List ParseError × ParseState :=
  if (input.token s.cursor).kind == .eof then (errors, s)
  else
    let (errors, s') := match item input.maxDepth Forest.root input s with
      | .ok _ s' => (errors, s')
      | .error e s' =>
        (e :: errors, { s' with cursor := recovery input s.cursor s'.cursor })
    if s.cursor < s'.cursor ∧ s.cursor < input.tokens.size then items errors input s'
    else (errors, stall s')
termination_by input.tokens.size - s.cursor

def activateAll (requests : List (String × Span)) (symbols : SymbolTable) :
    SymbolTable × List ParseWarning :=
  requests.foldl (fun (symbols, warnings) (name, span) =>
    match symbols.activate name with
    | (true, symbols) => (symbols, warnings)
    | (false, symbols) => (symbols, warnings ++ [{ cause := .unknownConfiguration name, span }]))
    (symbols, [])

end Parse

namespace ParseInput

def endToken (length line column : Nat) : Token :=
  { kind := .eof, text := "", span := { start := length, stop := length, line, column } }

def closed (length : Nat) (tokens : List Token) : List Token :=
  match tokens.getLast? with
  | none => [endToken length 1 1]
  | some last =>
    if last.kind == .eof then tokens
    else tokens ++ [endToken length last.span.line last.span.column]

theorem closed_ne_nil (length : Nat) (tokens : List Token) : closed length tokens ≠ [] := by
  unfold closed
  split
  · simp
  · split
    · rintro rfl
      simp_all
    · simp

/-- The tokens that mean something, with the end of the source behind them. -/
def ofTokens (source : String) (tokens : List Token) (options : ParseOptions) : ParseInput where
  source := source.toList
  tokens := (closed (SourceText.byteLength source.toList)
    (tokens.filter fun token => !token.kind.isPlainComment)).toArray
  nonempty := by
    rw [List.size_toArray]
    exact List.length_pos_iff.2 (closed_ne_nil _ _)
  strict := options.strict
  maxDepth := options.maxDepth

end ParseInput

def ParseResult.ofTokens (source : String) (tokens : List Token) (symbols : SymbolTable)
    (options : ParseOptions) : ParseResult :=
  let input := ParseInput.ofTokens source tokens options
  let (errors, s) := Parse.items [] input { document := { symbols } }
  let (symbols, late) := Parse.activateAll s.activations.reverse s.document.symbols.exitAll
  { document := { s.document with symbols }
    errors := errors.reverse
    warnings := s.warnings.reverse ++ late
    inRange := s.inRange
    stalled := s.stalled }

end TemplateMarkup
