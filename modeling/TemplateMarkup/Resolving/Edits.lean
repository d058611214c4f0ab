import TemplateMarkup.Resolving.Diagnostics

/-! Edits of the content of a definition. An edit that finds nothing to edit is a warning and
changes nothing. -/
namespace TemplateMarkup

structure Content where
  type : DefinitionType
  properties : OrderedMap String Value := {}
  /-- Subtrees outside the document. -/
  elements : List NodeId := []
  valueless : List String := []
deriving DecidableEq, Inhabited

namespace Content

/-- The place of the element that a target points at. Numbers count the elements with the tag,
from `first` on. -/
def findElement? (forest : Forest) (first : Nat) (elements : List NodeId) (target : Target) :
    Option Nat := do
  let nth ← match target.index with
    | some index => if index < first then none else some (index - first)
    | none => some 0
  let hits := elements.zipIdx.filter fun (id, _) =>
    match forest.get? id with
    | some node => node.isElement && node.name == target.name
    | none => false
  (hits[nth]?).map Prod.snd

/-- Where an insertion goes in a list of keys: before the key at an index, or behind all. The
target of a replacement is taken out. -/
def anchor (properties : OrderedMap String Value) :
    InsertPosition → Except String (Option Nat × OrderedMap String Value)
  | .top => .ok (some 0, properties)
  | .bottom => .ok (none, properties)
  | .before target =>
    match properties.indexOf? target.name with
    | some index => .ok (some index, properties)
    | none => .error target.name
  | .after target =>
    match properties.indexOf? target.name with
    | some index => .ok (some (index + 1), properties)
    | none => .error target.name
  | .replace target =>
    match properties.indexOf? target.name with
    | some index => .ok (some index, properties.erase target.name)
    | none => .error target.name

/-- Inserts entries one behind the other from an index on. A key that is there already moves. -/
def insertFrom : Nat → List (String × Value) → OrderedMap String Value → OrderedMap String Value
  | _, [], properties => properties
  | index, (name, value) :: rest, properties =>
    let index := match properties.indexOf? name with
      | some old => if old < index then index - 1 else index
      | none => index
    let others := properties.erase name
    let index := min index others.size
    insertFrom (index + 1) rest (others.insertAt index name value)

def insertLast (entries : List (String × Value)) (properties : OrderedMap String Value) :
    OrderedMap String Value :=
  entries.foldl (fun properties e => (properties.erase e.1).insert e.1 e.2) properties

def insertProperties (properties : OrderedMap String Value) (position : InsertPosition)
    (payload : OrderedMap String Value) : Except String (OrderedMap String Value) := do
  match ← anchor properties position with
  | (some index, properties) => return insertFrom index payload.toList properties
  | (none, properties) => return insertLast payload.toList properties

end Content

structure EditState where
  content : Content
  forest : Forest
  warnings : List ResolveWarning := []

namespace EditState

variable (state : EditState)

def warn (warning : ResolveWarning) : EditState :=
  { state with warnings := warning :: state.warnings }

def removeElement (index : Nat) : EditState :=
  { state with
    forest := match state.content.elements[index]? with
      | some id => (state.forest.remove id).2
      | none => state.forest
    content := { state.content with elements := state.content.elements.eraseIdx index } }

def deleteFirstElement (first : Nat) (site : EditSite) (name : String) : EditState :=
  match Content.findElement? state.forest first state.content.elements ⟨name, none⟩ with
  | some index => state.removeElement index
  | none => state.warn (.noElementNamed site name)

def deleteProperty (site : EditSite) (name : String) : EditState :=
  let content := state.content
  if content.properties.contains name || content.valueless.contains name then
    { state with content := { content with
        properties := content.properties.erase name
        valueless := content.valueless.filter (· ≠ name) } }
  else state.warn (.noPropertyNamed site name)

/-- Deletes by name: elements from element content, properties from any other. -/
def deleteName (first : Nat) (site : EditSite) (name : String) : EditState :=
  if state.content.type = .element then state.deleteFirstElement first site name
  else state.deleteProperty site name

def deleteElement (first : Nat) (site : EditSite) (target : Target) : EditState :=
  match Content.findElement? state.forest first state.content.elements target with
  | some index => state.removeElement index
  | none => state.warn (.noElementAt site target)

def placeElements (index : Nat) (nodes : List NodeId) : EditState :=
  let elements := state.content.elements
  { state with content := { state.content with
      elements := elements.take index ++ nodes ++ elements.drop index } }

/-- Inserts copies of nodes; when the target is missing, the copies go again. -/
def insertElements (first : Nat) (site : EditSite) (position : InsertPosition)
    (nodes : List NodeId) : EditState :=
  let (copies, forest) := Forest.copyAll nodes state.forest
  let state := { state with forest }
  let find (target : Target) (place : Nat → EditState) : EditState :=
    match Content.findElement? state.forest first state.content.elements target with
    | some index => place index
    | none =>
      { state with forest := Forest.removeAll copies state.forest }.warn
        (.noElementToInsertAt site target)
  match position with
  | .top => state.placeElements 0 copies
  | .bottom => state.placeElements state.content.elements.length copies
  | .before target => find target fun index => state.placeElements index copies
  | .after target => find target fun index => state.placeElements (index + 1) copies
  | .replace target => find target fun index =>
      (state.removeElement index).placeElements index copies

def insertProperties (site : EditSite) (position : InsertPosition)
    (payload : OrderedMap String Value) : EditState :=
  match Content.insertProperties state.content.properties position payload with
  | .ok properties => { state with content := { state.content with properties } }
  | .error name => state.warn (.noPropertyToInsertAt site name)

/-- Applies one edit; `first` is the number of the first element with a tag. -/
def apply (first : Nat) (site : EditSite) (edit : Edit) : EditState :=
  match edit with
  | .deleteNames names =>
    names.foldl (fun state name => state.deleteName first site name) state
  | .deleteElement target => state.deleteElement first site target
  | .deleteParent type name => state.warn (.parentAtUsage site type name)
  | .insert position (.elements nodes) =>
    if state.content.type = .element then state.insertElements first site position nodes
    else state.warn (.payloadMismatch site state.content.type)
  | .insert position (.properties properties) =>
    if state.content.type = .element then
      state.warn (.payloadMismatch site state.content.type)
    else state.insertProperties site position properties

def applyAll (first : Nat) (site : EditSite) (edits : List Edit) : EditState :=
  edits.foldl (fun state edit => state.apply first site edit) state

end EditState

end TemplateMarkup
