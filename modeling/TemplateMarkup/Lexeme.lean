import TemplateMarkup.Token

/-! The lexeme at the front of a text. The longest one wins; where white space and an identifier
are equally long, which only a byte order mark allows, the identifier does. -/
namespace TemplateMarkup

inductive Unterminated
  | string | comment | bracket
deriving DecidableEq, Inhabited

inductive Lexeme
  | blank
  | token (kind : TokenKind)
  /-- Two hyphens and what follows them on the line. -/
  | dashes
  /-- Text that no rule takes. -/
  | unknown
  | unterminated (cause : Unterminated)
deriving DecidableEq, Inhabited

namespace Lexeme

def byteOrderMark : Char := Char.ofNat 0xFEFF

def isSkipped (c : Char) : Bool :=
  c == ' ' || c == '\t' || c == '\n' || c == '\r' || c == Char.ofNat 0x0C || c == byteOrderMark

def isBeyondAscii (c : Char) : Bool := 0x80 ≤ c.toNat

def startsIdentifier (c : Char) : Bool := c.isAlpha || c == '_' || isBeyondAscii c

def isIdentifierPart (c : Char) : Bool :=
  c.isAlphanum || c == '_' || c == '-' || isBeyondAscii c

def startsAsciiName (c : Char) : Bool := c.isAlpha || c == '_'

def isAsciiNamePart (c : Char) : Bool := c.isAlphanum || c == '_' || c == '-'

def isBracketWordPart (c : Char) : Bool := c.isAlphanum || c == '_'

def isUnitPart (c : Char) : Bool := c.isAlpha || c == '%'

def run (p : Char → Bool) (cs : List Char) : Nat := (cs.takeWhile p).length

/-- The length of a name at the front whose first character satisfies `starts`. -/
def nameRun (starts part : Char → Bool) : List Char → Nat
  | [] => 0
  | c :: cs => if starts c then 1 + run part cs else 0

def restOfLine (cs : List Char) : Nat := run (· != '\n') cs

def unescape (c : Char) : Char :=
  if c = 'n' then '\n' else if c = 't' then '\t' else if c = 'r' then '\r' else c

/-- The value of a string after its opening quote, and its length with the closing one. -/
def stringBody (quote : Char) : List Char → Option (List Char × Nat)
  | [] => none
  | ['\\'] => none
  | '\\' :: c :: cs => (stringBody quote cs).map fun (value, n) => (unescape c :: value, n + 2)
  | c :: cs =>
    if c = quote then some ([], 1)
    else (stringBody quote cs).map fun (value, n) => (c :: value, n + 1)

def commentBody : List Char → Option Nat
  | [] => none
  | '*' :: '/' :: _ => some 2
  | _ :: cs => (commentBody cs).map (· + 1)

def fractionRun : List Char → Nat
  | '.' :: cs => let n := run Char.isDigit cs; if n = 0 then 0 else n + 1
  | _ => 0

def numberRun (cs : List Char) : Nat :=
  let whole := run Char.isDigit cs
  let fraction := fractionRun (cs.drop whole)
  whole + fraction + run isUnitPart (cs.drop (whole + fraction))

def pseudoRun : List Char → Nat
  | ':' :: ':' :: cs =>
    let n := nameRun Char.isAlpha isAsciiNamePart cs
    if n = 0 then 0 else n + 2
  | ':' :: cs =>
    let n := nameRun Char.isAlpha isAsciiNamePart cs
    if n = 0 then 0 else n + 1
  | _ => 0

/-- What an opening bracket begins. A word that is closed is one token. A block word that is
not is fatal; a lone `C` or `I` leaves the bracket to itself, and with any other word the
bracket makes no sense. -/
def bracket (cs : List Char) : Lexeme × Nat :=
  let n := nameRun Char.isAlpha isBracketWordPart cs
  let word := String.ofList (cs.take n)
  if n = 0 then (.token .leftBracket, 0)
  else if (cs.drop n).head? = some ']' then
    match BlockWord.ofWord? word with
    | some block => (.token (.block block), n + 1)
    | none => (.token .bracketWord, n + 1)
  else if (BlockWord.ofWord? word).isSome then (.unterminated .bracket, n)
  else if word = "C" || word = "I" then (.token .leftBracket, 0)
  else (.unknown, n)

def identifier (word : String) : Lexeme :=
  match Keyword.ofWord? word with
  | some keyword => .token (.keyword keyword)
  | none => .token .identifier

def markedName (named alone : TokenKind) (part : Char → Bool) (cs : List Char) :
    Lexeme × Nat :=
  let n := nameRun startsAsciiName part cs
  if n = 0 then (.token alone, 0) else (.token named, n)

def punctuation? (c : Char) : Option TokenKind :=
  if c = '\x7b' then some .leftBrace
  else if c = '\x7d' then some .rightBrace
  else if c = ']' then some .rightBracket
  else if c = '(' then some .leftParen
  else if c = ')' then some .rightParen
  else if c = ';' then some .semicolon
  else if c = ':' then some .colon
  else if c = '=' then some .equals
  else if c = ',' then some .comma
  else if "$?|^~!%+*<>\\".toList.contains c then some (.symbol c)
  else none

/-- The lexeme that starts with `c`, and how many of the characters after it belong to it. -/
def first (c : Char) (cs : List Char) : Lexeme × Nat :=
  if isSkipped c then
    let blank := run isSkipped cs
    let word := run isIdentifierPart cs
    if isBeyondAscii c && blank ≤ word then
      (identifier (String.ofList (c :: cs.take word)), word)
    else (.blank, blank)
  else if startsIdentifier c then
    let word := run isIdentifierPart cs
    (identifier (String.ofList (c :: cs.take word)), word)
  else if c.isDigit then (.token .number, numberRun cs)
  else if c = '"' || c = '\'' || c = Char.ofNat 0x60 then
    match stringBody c cs with
    | some (value, n) => (.token (.string (String.ofList value)), n)
    | none => (.unterminated .string, 0)
  else if c = '/' then
    match cs with
    | '/' :: _ => (.token (.comment .line), restOfLine cs)
    | '*' :: rest =>
      match commentBody rest with
      | some n => (.token (.comment .block), n + 1)
      | none => (.unterminated .comment, 0)
    | _ => (.token (.symbol '/'), 0)
  else if c = '-' then
    match cs with
    | '-' :: _ => (.dashes, restOfLine cs)
    | _ => (.token (.symbol '-'), 0)
  else if c = '[' then bracket cs
  else if c = '@' then
    let n := nameRun startsAsciiName isBracketWordPart cs
    if n = 0 then (.token (.symbol '@'), 0)
    else (.token (.atWord (AtWord.ofWord (String.ofList (cs.take n)))), n)
  else if c = '.' then markedName .classSelector .dot isAsciiNamePart cs
  else if c = '#' then markedName .idSelector (.symbol '#') isAsciiNamePart cs
  else if c = '&' then (.token .contextRef, pseudoRun cs)
  else match punctuation? c with
    | some kind => (.token kind, 0)
    | none => (.unknown, 0)

end Lexeme

end TemplateMarkup
