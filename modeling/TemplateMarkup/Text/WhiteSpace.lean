/-! White space, and the cutting of texts at it: trimming, words and lines. -/
namespace TemplateMarkup.Text

/-- The characters with the Unicode property White_Space. -/
def isWhiteSpace (c : Char) : Bool :=
  let n := c.toNat
  (9 ≤ n && n ≤ 13) || n == 0x20 || n == 0x85 || n == 0xA0 || n == 0x1680
    || (0x2000 ≤ n && n ≤ 0x200A) || n == 0x2028 || n == 0x2029 || n == 0x202F
    || n == 0x205F || n == 0x3000

def trimFront (cs : List Char) : List Char := cs.dropWhile isWhiteSpace

def trimBack (cs : List Char) : List Char := (cs.reverse.dropWhile isWhiteSpace).reverse

def trimBoth (cs : List Char) : List Char := trimBack (trimFront cs)

def trim (text : String) : String := String.ofList (trimBoth text.toList)

def isBlank (text : String) : Bool := text.toList.all isWhiteSpace

/-- The maximal runs without white space; `current` is the run being read, last character
first. -/
def wordsFrom (current : List Char) : List Char → List (List Char)
  | [] => if current.isEmpty then [] else [current.reverse]
  | c :: cs =>
    if isWhiteSpace c then
      if current.isEmpty then wordsFrom [] cs else current.reverse :: wordsFrom [] cs
    else wordsFrom (c :: current) cs

def words (text : String) : List String := (wordsFrom [] text.toList).map String.ofList

/-- A line that ended in a line feed, last character first, without a carriage return before
the line feed. -/
def dropReturn : List Char → List Char
  | '\r' :: cs => cs
  | cs => cs

/-- The lines of a text, each without the line feed that ends it. A text that ends in a line
feed has no empty line after it. -/
def linesFrom (current : List Char) : List Char → List (List Char)
  | [] => if current.isEmpty then [] else [current.reverse]
  | '\n' :: cs => (dropReturn current).reverse :: linesFrom [] cs
  | c :: cs => linesFrom (c :: current) cs

def lines (cs : List Char) : List (List Char) := linesFrom [] cs

def lowercase (text : String) : String := String.ofList (text.toList.map Char.toLower)

def equalsIgnoringCase (a b : String) : Bool := lowercase a == lowercase b

end TemplateMarkup.Text
