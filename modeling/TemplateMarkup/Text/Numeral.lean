/-! Unsigned decimal numerals. -/
namespace TemplateMarkup.Text

/-- The first number that is too large to be an index: an index has 64 bits. -/
def indexBound : Nat := 18446744073709551616

def digitValue? (c : Char) : Option Nat :=
  if c.isDigit then some (c.toNat - '0'.toNat) else none

/-- The value of a run of digits, `value` being what was read before. -/
def digitsValue? (value : Nat) : List Char → Option Nat
  | [] => some value
  | c :: cs => do
    let digit ← digitValue? c
    digitsValue? (10 * value + digit) cs

/-- Reads an index: an optional plus sign, then one digit or more, below `indexBound`. -/
def readIndex? (text : String) : Option Nat :=
  let digits := match text.toList with
    | '+' :: cs => cs
    | cs => cs
  if digits.isEmpty then none
  else (digitsValue? 0 digits).filter (· < indexBound)

end TemplateMarkup.Text
