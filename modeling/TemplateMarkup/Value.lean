import TemplateMarkup.Text.WhiteSpace

/-! Property values: text with references to variables in it. -/
namespace TemplateMarkup

structure VarRef where
  group : String
  name : String
  /-- The text that the reference asks for in place of the variable's value. -/
  override : Option String
  scope : String
  raw : String
deriving DecidableEq, Inhabited

inductive ValuePart
  | text (text : String)
  | var (ref : VarRef)
deriving DecidableEq, Inhabited

structure Value where
  parts : List ValuePart := []
deriving DecidableEq, Inhabited

namespace Value

/-- Adds text at the end, to the last part if that is text. -/
def appendText (text : String) : List ValuePart → List ValuePart
  | [] => [.text text]
  | [.text last] => [.text (last ++ text)]
  | part :: parts => part :: appendText text parts

def pushText (value : Value) (text : String) : Value :=
  if text.isEmpty then value else ⟨appendText text value.parts⟩

def pushVar (value : Value) (ref : VarRef) : Value := ⟨value.parts ++ [.var ref]⟩

def literal (text : String) : Value := ({} : Value).pushText text

def isEmpty (value : Value) : Bool := value.parts.isEmpty

def vars (value : Value) : List VarRef :=
  value.parts.filterMap fun
    | .text _ => none
    | .var ref => some ref

def hasVars (value : Value) : Bool := !value.vars.isEmpty

def partText : ValuePart → String
  | .text text => text
  | .var ref => ref.raw

def toText (value : Value) : String := String.join (value.parts.map partText)

end Value

end TemplateMarkup
