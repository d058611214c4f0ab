import TemplateMarkup.Config
import TemplateMarkup.Definition
import TemplateMarkup.Namespaces
import TemplateMarkup.Node

/-! All that a document names: definitions, foreign texts, namespaces, settings, imports, and the
names given to its elements. -/
namespace TemplateMarkup

structure SymbolTable where
  definitions : OrderedMap DefinitionKey Definition := {}
  origins : OrderedMap (OriginType × QualifiedName) String := {}
  configurations : OrderedMap String Config := {}
  imports : List ImportSpec := []
  namespaces : Namespaces := {}
  /-- The paths of the open namespaces, innermost first. -/
  openScopes : List String := []
  config : Config := {}
  html5 : Bool := false
  classCounts : OrderedMap String Nat := {}
  idCounts : OrderedMap String Nat := {}
deriving Inhabited

namespace SymbolTable

variable (table : SymbolTable)

def register (definition : Definition) : Bool × SymbolTable :=
  if table.definitions.contains definition.key then (false, table)
  else (true,
    { table with definitions := table.definitions.insert definition.key definition })

def definition? (key : DefinitionKey) : Option Definition := table.definitions.get? key

def modifyDefinition (key : DefinitionKey) (f : Definition → Definition) : SymbolTable :=
  { table with definitions := table.definitions.modify key f }

/-- The names that a name written in a namespace may stand for, nearest first. A name with a
double colon stands only for itself. -/
def candidates (name scope : String) : List QualifiedName :=
  match QualifiedName.ofText? name with
  | some qualified => [qualified]
  | none => (Namespaces.scopeChain scope).map fun path => ⟨path, name⟩

/-- The kinds that a usage allows, in the order in which they are tried. -/
def allowedKinds : Option DefinitionKind → List DefinitionKind
  | some kind => [kind]
  | none => [.custom, .template]

def lookupKey (name : String) (type : DefinitionType) (kind : Option DefinitionKind)
    (scope : String) : Option DefinitionKey :=
  (candidates name scope).findSome? fun qualified =>
    ((allowedKinds kind).map fun kind => (⟨kind, type, qualified⟩ : DefinitionKey)).find?
      table.definitions.contains

def usageKey (usage : Usage) : Option DefinitionKey :=
  table.lookupKey usage.name usage.type usage.kind usage.lookupScope

def currentScope : String := table.openScopes.headD ""

def enterNamespace (name : String) : NamespaceEvent × SymbolTable :=
  let (path, event, namespaces) := table.namespaces.declare table.currentScope name
  (event, { table with namespaces, openScopes := path :: table.openScopes })

def exitNamespace : Option String × SymbolTable :=
  (table.openScopes.head?, { table with openScopes := table.openScopes.tail })

def exitAll : SymbolTable := { table with openScopes := [] }

def registerOrigin (type : OriginType) (name : QualifiedName) (content : String) :
    Bool × SymbolTable :=
  if table.origins.contains (type, name) then (false, table)
  else (true, { table with origins := table.origins.insert (type, name) content })

/-- The foreign text that a name written in a namespace stands for. -/
def origin? (type : OriginType) (name scope : String) : Option (QualifiedName × String) :=
  (candidates name scope).findSome? fun qualified =>
    (table.origins.get? (type, qualified)).map fun content => (qualified, content)

def setConfig (config : Config) : SymbolTable := { table with config }

def configuration? (name : String) : Option Config := table.configurations.get? name

def registerConfiguration (name : String) (config : Config) : Bool × SymbolTable :=
  if table.configurations.contains name then (false, table)
  else (true, { table with configurations := table.configurations.insert name config })

def activate (name : String) : Bool × SymbolTable :=
  match table.configuration? name with
  | some config => (true, table.setConfig config)
  | none => (false, table)

def addImport (spec : ImportSpec) : SymbolTable :=
  { table with imports := table.imports ++ [spec] }

def setHtml5 : SymbolTable := { table with html5 := true }

/-- A base the first time it is asked for, and then the base with a number behind it. -/
def nextName (counts : OrderedMap String Nat) (base : String) :
    String × OrderedMap String Nat :=
  let count := (counts.get? base).getD 0
  (if count = 0 then base else base ++ toString count, counts.insert base (count + 1))

def nextClass (base : String) : String × SymbolTable :=
  let (name, classCounts) := nextName table.classCounts base
  (name, { table with classCounts })

def nextId (base : String) : String × SymbolTable :=
  let (name, idCounts) := nextName table.idCounts base
  (name, { table with idCounts })

end SymbolTable

end TemplateMarkup
