import TemplateMarkup.Writing.Markup
import TemplateMarkup.Writing.State

/-! Style blocks: inline declarations of elements, and rules of the style sheet. -/
namespace TemplateMarkup.Write

/-- Declarations; a later one takes the place of an earlier one with its name. -/
abbrev Declarations := OrderedMap String String

def expandStyle (span : Span) (usage : Usage) (declarations : Declarations) :
    Write Declarations := do
  if usage.type != .style then
    warn span (.usageInStyle usage)
    return declarations
  else
    match ← instantiate span usage with
    | none => return declarations
    | some content =>
      content.properties.toList.foldlM (fun declarations (name, value) => do
        return declarations.insert name (← renderValue span value)) declarations

def rule (span : Span) (context : Option String) (selector : Selector)
    (items : List StyleItem) : Write String := do
  let declarations ← items.foldlM (fun declarations item => do
    match item with
    | .property name value => return declarations.insert name (← renderValue span value)
    | .usage usage => expandStyle span usage declarations
    | _ =>
      warn span (.nestedRule selector)
      return declarations) ({} : Declarations)
  return selector.render context ++ "\x7b" ++ Markup.declarations declarations ++ "\x7d"

def localItem (span : Span) (context : Option String) (declarations : Declarations)
    (item : StyleItem) : Write Declarations := do
  match item with
  | .property name value => return declarations.insert name (← renderValue span value)
  | .usage usage => expandStyle span usage declarations
  | .rule selector items =>
    addRule (← rule span context selector items)
    return declarations
  | .raw text =>
    addRule text
    return declarations

/-- The inline declarations of an element; the rules of its style blocks go to the style
sheet. -/
def localStyles (span : Span) (context : Option String) (blocks : List StyleBlock) :
    Write Declarations :=
  (blocks.flatMap StyleBlock.items).foldlM (localItem span context) {}

def globalStyle (span : Span) (block : StyleBlock) : Write Unit :=
  block.items.forM fun
    | .rule selector items => do addRule (← rule span none selector items)
    | .raw text => addRule text
    | .property name _ => warn span (.propertyWithoutSelector name)
    | .usage usage => warn span (.usageWithoutSelector usage)

end TemplateMarkup.Write
