import TemplateMarkup.Selector
import TemplateMarkup.Usage

/-! Style blocks: declarations, rules, uses of style definitions and verbatim text. -/
namespace TemplateMarkup

inductive StyleItem
  | property (name : String) (value : Value)
  | rule (selector : Selector) (items : List StyleItem)
  | usage (usage : Usage)
  | raw (text : String)
deriving Inhabited

structure StyleBlock where
  items : List StyleItem := []
deriving Inhabited

namespace StyleItem

def selector? : StyleItem → Option Selector
  | .rule selector _ => some selector
  | _ => none

/-- Changes the selector of a rule; rules inside it stay as they are. -/
def mapSelector (f : Selector → Selector) : StyleItem → StyleItem
  | .rule selector items => .rule (f selector) items
  | item => item

end StyleItem

namespace StyleBlock

def selectors (block : StyleBlock) : List Selector := block.items.filterMap StyleItem.selector?

/-- The first class with which a rule of the block begins. -/
def firstClass (block : StyleBlock) : Option String :=
  block.selectors.findSome? Selector.leadingClass

def firstId (block : StyleBlock) : Option String :=
  block.selectors.findSome? Selector.leadingId

def mapSelectors (f : Selector → Selector) (block : StyleBlock) : StyleBlock :=
  ⟨block.items.map (StyleItem.mapSelector f)⟩

def renameClass (block : StyleBlock) (old new : String) : StyleBlock :=
  block.mapSelectors (·.renameClass old new)

def renameId (block : StyleBlock) (old new : String) : StyleBlock :=
  block.mapSelectors (·.renameId old new)

end StyleBlock

end TemplateMarkup
