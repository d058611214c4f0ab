import TemplateMarkup.Resolving.Definitions

/-! Values with their variables put in. -/
namespace TemplateMarkup.Resolve

def maxVarDepth : Nat := 16

/-- The text of a value, where `resolveVar` gives what references stand for. A reference that
stands for nothing keeps its own text. -/
def renderWith (resolveVar : VarRef → Resolve (Option String)) (value : Value) :
    Resolve String := do
  let texts ← value.parts.mapM fun
    | .text text => pure text
    | .var ref => do return (← resolveVar ref).getD ref.raw
  return Text.trim (String.join texts)

def varText (render : Option (Value → Resolve String)) (key : DefinitionKey) (ref : VarRef)
    (value : Value) : Resolve (Option String) := do
  match ref.override, key.kind with
  | some text, .custom => return some text
  | override, _ =>
    if override.isSome then warn (.templateOverride ref)
    match render with
    | some render => return some (← render value)
    | none =>
      warn (.variableTooDeep ref)
      return none

/-- What a reference stands for, if its group is a group of variables; `render` gives the text of
a value. -/
def resolveVarWith (render : Option (Value → Resolve String)) (ref : VarRef) :
    Resolve (Option String) := do
  match (← symbols).lookupKey ref.group .var none ref.scope with
  | none => return none
  | some key =>
    resolve key
    match (← symbols).definition? key with
    | none => return none
    | some definition =>
      match definition.properties.get? ref.name with
      | none =>
        warn (.noVariable key ref.name)
        return none
      | some value => varText render key ref value

/-- What a reference stands for, when `levels` more references may be followed. -/
def resolveVarAt : Nat → VarRef → Resolve (Option String)
  | 0 => resolveVarWith none
  | levels + 1 => resolveVarWith (some (renderWith (resolveVarAt levels)))

def resolveVar (ref : VarRef) : Resolve (Option String) := resolveVarAt maxVarDepth ref

def renderValue (value : Value) : Resolve String := renderWith resolveVar value

end TemplateMarkup.Resolve
