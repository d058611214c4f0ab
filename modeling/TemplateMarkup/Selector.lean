import TemplateMarkup.Text.WhiteSpace

/-! Selectors of style rules. -/
namespace TemplateMarkup

inductive SelectorPart
  | classPart (name : String)
  | idPart (name : String)
  /-- An ampersand, which stands for the element around the rule, and its pseudo class. -/
  | context (suffix : String)
  | raw (text : String)
deriving DecidableEq, Inhabited

structure Selector where
  parts : List SelectorPart := []
deriving DecidableEq, Inhabited

namespace Selector

/-- Adds a part at the end; raw text joins raw text before it. -/
def appendPart (part : SelectorPart) : List SelectorPart → List SelectorPart
  | [] => [part]
  | [.raw last] =>
    match part with
    | .raw text => [.raw (last ++ text)]
    | part => [.raw last, part]
  | first :: rest => first :: appendPart part rest

def push (selector : Selector) (part : SelectorPart) : Selector :=
  ⟨appendPart part selector.parts⟩

/-- The class with which a selector begins. -/
def leadingClass (selector : Selector) : Option String :=
  match selector.parts with
  | .classPart name :: _ => some name
  | _ => none

def leadingId (selector : Selector) : Option String :=
  match selector.parts with
  | .idPart name :: _ => some name
  | _ => none

def isContext : SelectorPart → Bool
  | .context _ => true
  | _ => false

def hasContext (selector : Selector) : Bool := selector.parts.any isContext

def renameClassPart (old new : String) : SelectorPart → SelectorPart
  | .classPart name => .classPart (if name = old then new else name)
  | part => part

def renameIdPart (old new : String) : SelectorPart → SelectorPart
  | .idPart name => .idPart (if name = old then new else name)
  | part => part

def renameClass (selector : Selector) (old new : String) : Selector :=
  ⟨selector.parts.map (renameClassPart old new)⟩

def renameId (selector : Selector) (old new : String) : Selector :=
  ⟨selector.parts.map (renameIdPart old new)⟩

def partText (context : Option String) : SelectorPart → String
  | .classPart name => "." ++ name
  | .idPart name => "#" ++ name
  | .context suffix => context.getD "&" ++ suffix
  | .raw text => text

/-- The text of a selector, with `context` for the ampersand. -/
def render (selector : Selector) (context : Option String) : String :=
  Text.trim (String.join (selector.parts.map (partText context)))

def toText (selector : Selector) : String := selector.render none

end Selector

end TemplateMarkup
