import TemplateMarkup.Token
import TemplateMarkup.Value

/-! Script blocks: code that is kept as it is, and the few constructs that are read in it. -/
namespace TemplateMarkup

/-- Where foreign text goes: into the markup, the style sheet or the script. -/
inductive OriginType
  | html | style | javaScript
  /-- Any other kind; it goes into the markup. -/
  | other (word : String)
deriving DecidableEq, Inhabited

def OriginType.ofAtWord : AtWord → OriginType
  | .html => .html
  | .style => .style
  | .javaScript => .javaScript
  | tag => .other (String.ofList (tag.word.toList.dropWhile (· == '@')))

def OriginType.label : OriginType → String
  | .html => "@Html"
  | .style => "@Style"
  | .javaScript => "@JavaScript"
  | .other word => "@" ++ word

inductive ScriptPart
  | code (text : String)
  /-- Stands for the selector of the element around the script. -/
  | contextRef
  | classRef (name : String)
  | idRef (name : String)
  | var (ref : VarRef)
  | origin (type : OriginType) (name : String)
deriving DecidableEq, Inhabited

structure ScriptBlock where
  parts : List ScriptPart := []
deriving DecidableEq, Inhabited

namespace ScriptBlock

/-- Adds code at the end, to the last part if that is code. -/
def appendCode (text : String) : List ScriptPart → List ScriptPart
  | [] => [.code text]
  | [.code last] => [.code (last ++ text)]
  | part :: parts => part :: appendCode text parts

def pushCode (block : ScriptBlock) (text : String) : ScriptBlock :=
  if text.isEmpty then block else ⟨appendCode text block.parts⟩

def push (block : ScriptBlock) (part : ScriptPart) : ScriptBlock := ⟨block.parts ++ [part]⟩

def class? : ScriptPart → Option String
  | .classRef name => some name
  | _ => none

def id? : ScriptPart → Option String
  | .idRef name => some name
  | _ => none

def firstClass (block : ScriptBlock) : Option String := block.parts.findSome? class?

def firstId (block : ScriptBlock) : Option String := block.parts.findSome? id?

def renameClassRef (old new : String) : ScriptPart → ScriptPart
  | .classRef name => .classRef (if name = old then new else name)
  | part => part

def renameIdRef (old new : String) : ScriptPart → ScriptPart
  | .idRef name => .idRef (if name = old then new else name)
  | part => part

def renameClass (block : ScriptBlock) (old new : String) : ScriptBlock :=
  ⟨block.parts.map (renameClassRef old new)⟩

def renameId (block : ScriptBlock) (old new : String) : ScriptBlock :=
  ⟨block.parts.map (renameIdRef old new)⟩

end ScriptBlock

end TemplateMarkup
