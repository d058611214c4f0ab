import TemplateMarkup.Lexeme
import TemplateMarkup.Text.Quoted

/-! The tokens of a source text. -/
namespace TemplateMarkup

structure LexError where
  cause : Unterminated
  line : Nat
  column : Nat
deriving DecidableEq

def Unterminated.message : Unterminated → String
  | .string => "unterminated string literal"
  | .comment => "unterminated block comment"
  | .bracket => "unterminated block keyword"

def LexError.span (e : LexError) : Span := { line := e.line, column := e.column }

def LexError.message (e : LexError) : String := e.span.label ++ e.cause.message

structure SkippedText where
  text : String
  line : Nat
  column : Nat
deriving DecidableEq

def SkippedText.message (s : SkippedText) : String :=
  ({ line := s.line, column := s.column : Span }).label
    ++ "skipped unexpected character " ++ Text.quote s.text

structure TokenStream where
  tokens : List Token
  skipped : List SkippedText

namespace TokenStream

/-- What has been read: tokens and skipped texts, last first, up to a place. -/
structure Progress where
  place : Place := {}
  tokens : List Token := []
  skipped : List SkippedText := []

namespace Progress

def pass (p : Progress) (text : List Char) : Progress :=
  { p with place := p.place.after text }

def push (p : Progress) (kind : TokenKind) (text : List Char) : Progress :=
  { place := p.place.after text
    tokens := { kind, text := String.ofList text, span := p.place.spanOf text } :: p.tokens
    skipped := p.skipped }

def skip (p : Progress) (text : List Char) : Progress :=
  { place := p.place.after text
    tokens := p.tokens
    skipped :=
      { text := String.ofList text, line := p.place.line, column := p.place.column } :: p.skipped }

def fail (p : Progress) (cause : Unterminated) : LexError :=
  { cause, line := p.place.line, column := p.place.column }

/-- Whether a brace here opens the body of an origin block: the tokens end in the block word and
an at word, with or without a name. -/
def opensOrigin (p : Progress) : Bool :=
  match (p.tokens.take 3).map Token.kind with
  | .atWord _ :: .block .origin :: _ => true
  | kind :: .atWord _ :: .block .origin :: _ => kind.isName
  | _ => false

end Progress

/-- How many characters stand before the brace that closes a body with `depth` braces open
inside it. -/
def bodyLength? (depth : Nat) : List Char → Option Nat
  | [] => none
  | c :: cs =>
    if c = '\x7b' then (bodyLength? (depth + 1) cs).map (· + 1)
    else if c = '\x7d' then
      match depth with
      | 0 => some 0
      | depth + 1 => (bodyLength? depth cs).map (· + 1)
    else (bodyLength? depth cs).map (· + 1)

/-- Reads a text to its end. Two hyphens that do not start a line are two symbols, and what
follows them on the line is read as a text of its own. -/
def read (cs : List Char) (p : Progress) : Except LexError Progress :=
  match cs with
  | [] => .ok p
  | c :: cs =>
    let (lexeme, n) := Lexeme.first c cs
    let text := c :: cs.take n
    match lexeme with
    | .blank => read (cs.drop n) (p.pass text)
    | .unknown => read (cs.drop n) (p.skip text)
    | .unterminated cause => .error (p.fail cause)
    | .dashes =>
      if p.place.fresh then read (cs.drop n) (p.push (.comment .generator) text)
      else
        match read (cs.take n).tail ((p.push (.symbol '-') ['-']).push (.symbol '-') ['-']) with
        | .error e => .error e
        | .ok p => read (cs.drop n) p
    | .token .leftBrace =>
      let opened := p.push .leftBrace text
      if p.opensOrigin then
        match bodyLength? 0 cs with
        | some k =>
          read (cs.drop (k + 1)) ((opened.push .rawText (cs.take k)).push .rightBrace ['\x7d'])
        | none => read cs opened
      else read cs opened
    | .token kind => read (cs.drop n) (p.push kind text)
termination_by cs.length
decreasing_by all_goals (simp; try omega)

def ofSource (source : String) : Except LexError TokenStream :=
  (read source.toList {}).map fun p =>
    { tokens := (p.push .eof []).tokens.reverse, skipped := p.skipped.reverse }

end TokenStream

end TemplateMarkup
