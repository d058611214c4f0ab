import TemplateMarkup.Text.WhiteSpace

/-! Places and stretches of a source text. Offsets count the bytes of its UTF-8 form; lines and
columns start at one, columns count characters, and only a line feed ends a line. -/
namespace TemplateMarkup

structure Span where
  start : Nat := 0
  stop : Nat := 0
  line : Nat := 0
  column : Nat := 0
deriving DecidableEq, Inhabited

def Span.through (a b : Span) : Span := { a with stop := max b.stop a.stop }

def Span.label (span : Span) : String :=
  "line " ++ toString span.line ++ ", column " ++ toString span.column ++ ": "

structure Place where
  offset : Nat := 0
  line : Nat := 1
  column : Nat := 1
  lineStart : Nat := 0
  /-- Only white space stands before the place on its line. -/
  fresh : Bool := true
deriving DecidableEq

namespace Place

def next (p : Place) (c : Char) : Place :=
  if c = '\n' then
    { offset := p.offset + 1, line := p.line + 1, column := 1, lineStart := p.offset + 1,
      fresh := true }
  else
    { offset := p.offset + c.utf8Size, line := p.line, column := p.column + 1,
      lineStart := p.lineStart, fresh := p.fresh && Text.isWhiteSpace c }

def after (p : Place) (cs : List Char) : Place := cs.foldl next p

def spanOf (p : Place) (cs : List Char) : Span :=
  { start := p.offset, stop := (p.after cs).offset, line := p.line, column := p.column }

end Place

namespace SourceText

def byteLength (cs : List Char) : Nat := cs.foldr (fun c n => c.utf8Size + n) 0

/-- The last place not beyond `offset`, when `cs` stands at `p`. -/
def placeFrom (offset : Nat) (p : Place) : List Char → Place
  | [] => p
  | c :: cs =>
    if p.offset + c.utf8Size ≤ offset then placeFrom offset (p.next c) cs else p

def placeBefore (source : String) (offset : Nat) : Place :=
  placeFrom offset {} source.toList

/-- Line and column of an offset; one past the end counts as the end. Inside a character the
column counts bytes. -/
def lineColumn (source : String) (offset : Nat) : Nat × Nat :=
  let offset := min offset (byteLength source.toList)
  let place := placeBefore source offset
  if place.offset = offset then (place.line, place.column)
  else (place.line, offset - place.lineStart + 1)

/-- Whether only white space stands before an offset on its line; `none` inside a character. -/
def startsLine? (source : String) (offset : Nat) : Option Bool :=
  let offset := min offset (byteLength source.toList)
  let place := placeBefore source offset
  if place.offset = offset then some place.fresh else none

def spanAt (source : String) (start stop : Nat) : Span :=
  let (line, column) := lineColumn source start
  { start, stop, line, column }

def dropBytes? (n : Nat) : List Char → Option (List Char)
  | [] => if n = 0 then some [] else none
  | c :: cs =>
    if n = 0 then some (c :: cs)
    else if c.utf8Size ≤ n then dropBytes? (n - c.utf8Size) cs
    else none

def takeBytes? (n : Nat) : List Char → Option (List Char)
  | [] => if n = 0 then some [] else none
  | c :: cs =>
    if n = 0 then some []
    else if c.utf8Size ≤ n then (takeBytes? (n - c.utf8Size) cs).map (c :: ·)
    else none

/-- The text between two offsets, if both lie between characters of the source and in order. -/
def slice? (source : List Char) (start stop : Nat) : Option String :=
  if start ≤ stop then do
    let rest ← dropBytes? start source
    let text ← takeBytes? (stop - start) rest
    pure (String.ofList text)
  else none

end SourceText

end TemplateMarkup
