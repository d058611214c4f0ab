import TemplateMarkup.ScriptBlock
import TemplateMarkup.StyleBlock
import TemplateMarkup.Tags

/-! Nodes of a document. -/
namespace TemplateMarkup

/-- Foreign text, or a reference to foreign text that stands elsewhere under a name. -/
structure OriginBlock where
  type : OriginType
  name : Option String := none
  /-- `none` for a reference. -/
  content : Option String := none
deriving DecidableEq, Inhabited

structure ImportSpec where
  target : String
  path : String
  localName : Option String := none
deriving DecidableEq, Inhabited

inductive UseTarget
  | html5
  | config (name : String)
deriving DecidableEq, Inhabited

inductive ConstraintTarget
  | tag (name : String)
  /-- Definitions of a kind, a type or a name, where given. -/
  | definition (kind : Option DefinitionKind) (type : Option DefinitionType)
      (name : Option String)
  | origin (type : OriginType)
deriving DecidableEq, Inhabited

def ConstraintTarget.label : ConstraintTarget → String
  | .tag name => name
  | .definition kind type name =>
    " ".intercalate ((kind.map DefinitionKind.label).toList
      ++ (type.map DefinitionType.label).toList ++ name.toList)
  | .origin type => type.label

inductive NodeKind
  | document
  | element
  | text
  | comment
  | style (block : StyleBlock)
  | script (block : ScriptBlock)
  /-- Marks where a definition stands; its body is in the symbol table. -/
  | definition (kind : DefinitionKind) (type : DefinitionType)
  | usage (usage : Usage)
  | origin (block : OriginBlock)
  | importing (spec : ImportSpec)
  | scope
  | configuration
  | activation (target : UseTarget)
  | constraint (targets : List ConstraintTarget)
deriving Inhabited

structure Node where
  kind : NodeKind
  /-- The tag of an element; the name of a definition, namespace or configuration. -/
  name : String := ""
  content : String := ""
  attributes : OrderedMap String String := {}
  /-- The inline style of an element, known once the element has been written. -/
  properties : OrderedMap String String := {}
  scope : String := ""
  span : Span := {}
deriving Inhabited

namespace Node

def isElement (node : Node) : Bool :=
  match node.kind with
  | .element => true
  | _ => false

def isText (node : Node) : Bool :=
  match node.kind with
  | .text => true
  | _ => false

def isComment (node : Node) : Bool :=
  match node.kind with
  | .comment => true
  | _ => false

def isVoid (node : Node) : Bool := node.isElement && Tags.isVoid node.name

def isContent (node : Node) : Bool :=
  match node.kind with
  | .element => true
  | .text => true
  | .comment => true
  | .usage usage => usage.type == .element
  | .origin block => block.type != .style && block.type != .javaScript
  | _ => false

def hasAttribute (node : Node) (name : String) : Bool :=
  match node.attributes.get? name with
  | some value => !Text.isBlank value
  | none => false

def firstClass (node : Node) : Option String :=
  (node.attributes.get? "class").bind fun value => (Text.words value).head?

def id (node : Node) : Option String :=
  ((node.attributes.get? "id").map Text.trim).filter fun value => !value.isEmpty

def styleBlock? (node : Node) : Option StyleBlock :=
  match node.kind with
  | .style block => some block
  | _ => none

def scriptBlock? (node : Node) : Option ScriptBlock :=
  match node.kind with
  | .script block => some block
  | _ => none

end Node

end TemplateMarkup
