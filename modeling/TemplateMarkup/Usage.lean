import TemplateMarkup.OrderedMap
import TemplateMarkup.Token
import TemplateMarkup.Value

/-! Uses of definitions, with the values they fill in and the edits they ask for. -/
namespace TemplateMarkup

structure NodeId where
  index : Nat
deriving DecidableEq, Inhabited

inductive DefinitionKind
  | template | custom
deriving DecidableEq, Inhabited

def DefinitionKind.label : DefinitionKind → String
  | .template => "[Template]"
  | .custom => "[Custom]"

inductive DefinitionType
  | style | element | var
deriving DecidableEq, Inhabited

def DefinitionType.label : DefinitionType → String
  | .style => "@Style"
  | .element => "@Element"
  | .var => "@Var"

def DefinitionType.ofAtWord? : AtWord → Option DefinitionType
  | .style => some .style
  | .element => some .element
  | .var => some .var
  | _ => none

/-- What an edit points at: a property, or an element by its tag and its number among the
elements with that tag. -/
structure Target where
  name : String
  index : Option Nat := none
deriving DecidableEq, Inhabited

def Target.label (target : Target) : String :=
  match target.index with
  | some index => target.name ++ "[" ++ toString index ++ "]"
  | none => target.name

inductive InsertPosition
  | before (target : Target)
  | after (target : Target)
  | replace (target : Target)
  | top
  | bottom
deriving DecidableEq, Inhabited

/-- What an insertion brings: detached subtrees, or properties. -/
inductive Payload
  | elements (nodes : List NodeId)
  | properties (properties : OrderedMap String Value)
deriving DecidableEq, Inhabited

inductive Edit
  | deleteNames (names : List String)
  | deleteElement (target : Target)
  | deleteParent (type : DefinitionType) (name : String)
  | insert (position : InsertPosition) (payload : Payload)
deriving DecidableEq, Inhabited

structure Usage where
  type : DefinitionType
  kind : Option DefinitionKind := none
  name : String
  /-- The namespace that the usage asks for. -/
  origin : Option String := none
  scope : String := ""
  fills : OrderedMap String Value := {}
  edits : List Edit := []
deriving DecidableEq, Inhabited

namespace Usage

/-- The namespace from which the definition is looked up. -/
def lookupScope (usage : Usage) : String := usage.origin.getD usage.scope

def label (usage : Usage) : String :=
  (match usage.kind with
    | some kind => kind.label ++ " "
    | none => "")
  ++ usage.type.label ++ " " ++ usage.name
  ++ (match usage.origin with
    | some path => " from " ++ path
    | none => "")

end Usage

end TemplateMarkup
