import TemplateMarkup.Usage

/-! Definitions of styles, elements and variables. -/
namespace TemplateMarkup

structure QualifiedName where
  /-- The path of the namespace; empty for the global one. -/
  scope : String
  name : String
deriving DecidableEq, Inhabited

def QualifiedName.label (name : QualifiedName) : String :=
  if name.scope.isEmpty then name.name else name.scope ++ "::" ++ name.name

namespace QualifiedName

/-- Cuts a name at its last double colon; `name` is what was passed, `rest` what comes before it,
last character first. -/
def cutFrom (name : List Char) : List Char → Option QualifiedName
  | ':' :: ':' :: rest => some ⟨String.ofList rest.reverse, String.ofList name⟩
  | c :: rest => cutFrom (c :: name) rest
  | [] => none

def ofText? (text : String) : Option QualifiedName := cutFrom [] text.toList.reverse

def simpleName (text : String) : String :=
  match ofText? text with
  | some name => name.name
  | none => text

end QualifiedName

structure DefinitionKey where
  kind : DefinitionKind
  type : DefinitionType
  name : QualifiedName
deriving DecidableEq, Inhabited

def DefinitionKey.label (key : DefinitionKey) : String :=
  key.kind.label ++ " " ++ key.type.label ++ " " ++ key.name.label

/-- A parent of a definition: inherited from by name, or composed in by a usage. -/
structure Inheritance where
  parent : Usage
  explicit : Bool
deriving DecidableEq, Inhabited

inductive Resolution
  | pending
  | underway
  | done
deriving DecidableEq, Inhabited

structure Definition where
  key : DefinitionKey
  properties : OrderedMap String Value := {}
  elements : List NodeId := []
  parents : List Inheritance := []
  edits : List Edit := []
  /-- Properties that wait for a value. -/
  valueless : List String := []
  span : Span := {}
  resolution : Resolution := .pending
deriving DecidableEq, Inhabited

def Definition.isCustom (definition : Definition) : Bool := definition.key.kind == .custom

end TemplateMarkup
