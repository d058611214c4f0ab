import TemplateMarkup.Resolving.Edits

/-! The content of definitions. A definition takes over the content of its parents, in order, then
its own, and then its edits are applied. This is done once, when it is first asked for; what a
usage receives is a copy. -/
namespace TemplateMarkup

structure ResolveState where
  document : Document
  /-- Last first. -/
  warnings : List ResolveWarning := []
  /-- The fuel for working out a definition was used up. -/
  exhausted : Bool := false

/-- Resolving either gives a value or stops at an error; either way it leaves a state behind. -/
abbrev Resolve := EStateM ResolveError ResolveState

namespace Resolve

def symbols : Resolve SymbolTable := do return (← get).document.symbols

def warn (warning : ResolveWarning) : Resolve Unit :=
  modify fun s => { s with warnings := warning :: s.warnings }

def edit (site : EditSite) (edits : List Edit) (content : Content) : Resolve Content :=
  modifyGet fun s =>
    let start : EditState :=
      { content, forest := s.document.forest, warnings := s.warnings }
    let stop := start.applyAll s.document.symbols.config.indexInitialCount site edits
    (stop.content,
      { s with
        document := { s.document with forest := stop.forest }
        warnings := stop.warnings })

def copyElements (elements : List NodeId) : Resolve (List NodeId) :=
  modifyGet fun s =>
    let (copies, forest) := Forest.copyAll elements s.document.forest
    (copies, { s with document := { s.document with forest } })

def fill (fills : OrderedMap String Value) (content : Content) : Content :=
  fills.toList.foldl (fun content e =>
    { content with
      valueless := content.valueless.filter (· ≠ e.1)
      properties := content.properties.insert e.1 e.2 }) content

def instantiateWith (resolve : DefinitionKey → Resolve Unit) (usage : Usage) :
    Resolve Content := do
  match (← symbols).usageKey usage with
  | none => throw (.undefinedReference usage.type usage.name)
  | some key =>
    resolve key
    match (← symbols).definition? key with
    | none => throw (.undefinedReference usage.type usage.name)
    | some definition =>
      let elements ← copyElements definition.elements
      let content := fill usage.fills
        { type := usage.type
          properties := definition.properties
          elements
          valueless := definition.valueless }
      if usage.edits.isEmpty then return content
      else if definition.isCustom then edit (.usage usage) usage.edits content
      else
        warn (.templateEdited usage)
        return content

def isParentDeletion : Edit → Bool
  | .deleteParent _ _ => true
  | _ => false

def keptParents (key : DefinitionKey) (edits : List Edit) (parents : List Inheritance) :
    Resolve (List Inheritance) :=
  edits.foldlM (fun parents edit => do
    match edit with
    | .deleteParent type name =>
      let kept := parents.filter fun p => !(p.parent.type == type && p.parent.name == name)
      if kept.length == parents.length then warn (.noParentToDelete key type name)
      return kept
    | _ => return parents) parents

def addNames (names more : List String) : List String :=
  more.foldl (fun names name => if names.contains name then names else names ++ [name]) names

/-- Adds the content of a parent: its values win over those before it. -/
def merge (content parent : Content) : Content :=
  { content with
    properties := content.properties.insertAll parent.properties.toList
    valueless := addNames content.valueless parent.valueless
    elements := content.elements ++ parent.elements }

/-- A parent without a namespace of its own is looked up from that of the definition. -/
def parentUsage (key : DefinitionKey) (usage : Usage) : Usage :=
  if usage.origin.isNone && usage.scope.isEmpty then { usage with scope := key.name.scope }
  else usage

/-- Adds a parent to the content inherited so far. A parent that is not defined is left out. -/
def inherit (resolve : DefinitionKey → Resolve Unit) (key : DefinitionKey) (content : Content)
    (inheritance : Inheritance) : Resolve Content := fun s =>
  match instantiateWith resolve (parentUsage key inheritance.parent) s with
  | .ok parent s' => .ok (merge content parent) s'
  | .error (.undefinedReference type name) s' =>
    .ok content { s' with
      warnings := .undefinedParent key inheritance.explicit type name :: s'.warnings }
  | .error e s' => .error e s'

/-- The inherited content and then a definition's own. Its own elements stand first. -/
def withOwn (inherited : Content) (definition : Definition) : Content :=
  let properties := inherited.properties.insertAll definition.properties.toList
  { inherited with
    properties
    valueless := (addNames inherited.valueless definition.valueless).filter fun name =>
      !properties.contains name
    elements := definition.elements ++ inherited.elements }

def contentOf (resolve : DefinitionKey → Resolve Unit) (definition : Definition) :
    Resolve Content := do
  let key := definition.key
  let parents ← keptParents key definition.edits definition.parents
  let inherited ← parents.foldlM (inherit resolve key) { type := key.type }
  edit (.definition key) (definition.edits.filter fun e => !isParentDeletion e)
    (withOwn inherited definition)

end Resolve

namespace ResolveState

def setResolution (s : ResolveState) (key : DefinitionKey) (resolution : Resolution) :
    ResolveState :=
  { s with document := { s.document with
      symbols := s.document.symbols.modifyDefinition key fun definition =>
        { definition with resolution } } }

def store (s : ResolveState) (key : DefinitionKey) (content : Content) : ResolveState :=
  { s with document := { s.document with
      symbols := s.document.symbols.modifyDefinition key fun definition =>
        { definition with
          properties := content.properties
          elements := content.elements
          valueless := content.valueless
          resolution := .done } } }

end ResolveState

namespace Resolve

def cycleOf (path : List DefinitionKey) (key : DefinitionKey) : List String :=
  ((path.drop ((path.findIdx? (· = key)).getD 0)) ++ [key]).map fun key => key.name.label

/-- Works out a definition below those in `path`, outermost first. Each step down marks one more
definition as underway, so `fuel` beyond the number of definitions is enough. Where it is used up
no cycle is named, and the state tells. -/
def resolveFrom : Nat → List DefinitionKey → DefinitionKey → Resolve Unit
  | 0, _, _ => fun s => .error (.cyclicInheritance []) { s with exhausted := true }
  | fuel + 1, path, key => fun s =>
    match s.document.symbols.definition? key with
    | none => .error (.undefinedReference key.type key.name.label) s
    | some definition =>
      match definition.resolution with
      | .done => .ok () s
      | .underway => .error (.cyclicInheritance (cycleOf path key)) s
      | .pending =>
        match contentOf (resolveFrom fuel (path ++ [key])) definition
            (s.setResolution key .underway) with
        | .ok content s' => .ok () (s'.store key content)
        | .error e s' => .error e (s'.setResolution key .pending)

def resolve (key : DefinitionKey) : Resolve Unit := fun s =>
  resolveFrom (s.document.symbols.definitions.size + 1) [] key s

/-- The content that a usage receives. Properties that nothing gives a value are left out. -/
def instantiate (usage : Usage) : Resolve Content := do
  let content ← instantiateWith resolve usage
  content.valueless.forM fun name => warn (.unfilled usage name)
  return { content with valueless := [] }

end Resolve

end TemplateMarkup
