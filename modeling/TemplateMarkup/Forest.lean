import TemplateMarkup.Node

/-! The nodes of a document and everything that is kept beside it: bodies of definitions and
copies wait outside the tree until they are put in. A name is never given twice. -/
namespace TemplateMarkup

structure Slot where
  node : Node
  parent : Option NodeId := none
  children : List NodeId := []
deriving Inhabited

structure Forest where
  /-- By name; `none` where a node was removed. -/
  slots : Array (Option Slot)

namespace Forest

def empty : Forest := ⟨#[some { node := { kind := .document } }]⟩

instance : Inhabited Forest := ⟨empty⟩

def root : NodeId := ⟨0⟩

variable (forest : Forest)

def slot? (id : NodeId) : Option Slot := (forest.slots[id.index]?).join

def get? (id : NodeId) : Option Node := (forest.slot? id).map Slot.node

def contains (id : NodeId) : Bool := (forest.slot? id).isSome

def children (id : NodeId) : List NodeId :=
  match forest.slot? id with
  | some slot => slot.children
  | none => []

def parent? (id : NodeId) : Option NodeId := (forest.slot? id).bind Slot.parent

def size : Nat := forest.slots.countP Option.isSome

def isEmpty : Bool := forest.size ≤ 1

def linksOf : Option Slot → Nat
  | some slot => slot.children.length
  | none => 0

/-- The number of links from parents to children. -/
def linkCount : Nat := forest.slots.toList.foldr (fun slot n => linksOf slot + n) 0

def modifySlot (id : NodeId) (f : Slot → Slot) : Forest :=
  ⟨forest.slots.modify id.index (Option.map f)⟩

def modify (id : NodeId) (f : Node → Node) : Forest :=
  forest.modifySlot id fun slot => { slot with node := f slot.node }

def setChildren (id : NodeId) (f : List NodeId → List NodeId) : Forest :=
  forest.modifySlot id fun slot => { slot with children := f slot.children }

def setParent (id : NodeId) (parent : Option NodeId) : Forest :=
  forest.modifySlot id fun slot => { slot with parent }

/-- A new node outside the tree, and its name. -/
def insertDetached (node : Node) : NodeId × Forest :=
  (⟨forest.slots.size⟩, ⟨forest.slots.push (some { node })⟩)

/-- Cuts the link from a node to its parent; what is below the node stays below it. -/
def detach (id : NodeId) : Forest :=
  match forest.parent? id with
  | some parent => (forest.setParent id none).setChildren parent (·.filter (· ≠ id))
  | none => forest

/-- Makes a node the child of `parent` before the child at `index`, or the last child when
there are not so many. The node leaves the parent it had first. -/
def insertAt (parent : NodeId) (index : Nat) (child : NodeId) : Forest :=
  ((forest.detach child).setParent child (some parent)).setChildren parent
    fun siblings => siblings.take index ++ child :: siblings.drop index

def append (parent child : NodeId) : Forest :=
  forest.insertAt parent (forest.children parent).length child

def insertChild (parent : NodeId) (node : Node) : NodeId × Forest :=
  let (id, forest) := forest.insertDetached node
  (id, forest.append parent id)

def eraseSlot (id : NodeId) : Forest := ⟨forest.slots.modify id.index fun _ => none⟩

/-- Erases the queued nodes and all that is below them. -/
def eraseQueue : Nat → List NodeId → Forest → Forest
  | 0, _, forest => forest
  | _, [], forest => forest
  | fuel + 1, id :: queue, forest =>
    let below := forest.children id
    eraseQueue fuel (queue ++ below) (forest.eraseSlot id)

/-- Removes a node with all that is below it. Neither the root nor a node that is not there
can be removed. -/
def remove (id : NodeId) : Option Node × Forest :=
  if id = root then (none, forest)
  else
    match forest.get? id with
    | none => (none, forest)
    | some node =>
      let forest := forest.detach id
      (some node, eraseQueue (forest.linkCount + 1) [id] forest)

/-- Inserts nodes as children of `parent`, one after the other from `index` on. -/
def insertAllAt (parent : NodeId) : Nat → List NodeId → Forest → Forest
  | _, [], forest => forest
  | index, id :: ids, forest => insertAllAt parent (index + 1) ids (forest.insertAt parent index id)

/-- Puts nodes in the place of a child. A node without a parent is left alone. -/
def splice (old : NodeId) (replacements : List NodeId) : Forest :=
  match forest.parent? old with
  | none => forest
  | some parent =>
    match (forest.children parent).findIdx? (· = old) with
    | none => forest
    | some index => insertAllAt parent index replacements (forest.remove old).2

/-- Copies a node and `fuel` levels below it. -/
def copyFrom : Nat → NodeId → Forest → Option NodeId × Forest
  | 0, _, forest => (none, forest)
  | fuel + 1, id, forest =>
    match forest.get? id with
    | none => (none, forest)
    | some node =>
      let below := forest.children id
      let (copy, forest) := forest.insertDetached node
      let forest := below.foldl (fun forest child =>
        match copyFrom fuel child forest with
        | (some childCopy, forest) => forest.append copy childCopy
        | (none, forest) => forest) forest
      (some copy, forest)

/-- A copy of a node and all that is below it, outside the tree. -/
def copy (id : NodeId) : Option NodeId × Forest :=
  copyFrom forest.slots.size id forest

def copyAll : List NodeId → Forest → List NodeId × Forest
  | [], forest => ([], forest)
  | id :: ids, forest =>
    let (copied, forest) := forest.copy id
    let (copies, forest) := copyAll ids forest
    (copied.toList ++ copies, forest)

def removeAll : List NodeId → Forest → Forest
  | [], forest => forest
  | id :: ids, forest => removeAll ids (forest.remove id).2

def ancestorsFrom : Nat → NodeId → List NodeId
  | 0, _ => []
  | fuel + 1, id =>
    match forest.parent? id with
    | some parent => parent :: ancestorsFrom fuel parent
    | none => []

def ancestors (id : NodeId) : List NodeId := forest.ancestorsFrom forest.slots.size id

def walkFrom : Nat → List NodeId → List NodeId
  | 0, _ => []
  | _, [] => []
  | fuel + 1, id :: stack =>
    if forest.contains id then id :: walkFrom fuel (forest.children id ++ stack)
    else walkFrom fuel stack

/-- The nodes of a subtree, each before those below it. -/
def walk (id : NodeId) : List NodeId := forest.walkFrom (forest.linkCount + 1) [id]

def outlineFrom : Nat → Nat → NodeId → List (Nat × Node)
  | 0, _, _ => []
  | fuel + 1, depth, id =>
    match forest.slot? id with
    | none => []
    | some slot =>
      (depth, slot.node) :: slot.children.flatMap (outlineFrom fuel (depth + 1))

/-- The nodes of a subtree, each with the number of steps from the top of the subtree. -/
def outline (id : NodeId) : List (Nat × Node) := forest.outlineFrom forest.slots.size 0 id

def filter (id : NodeId) (p : Node → Bool) : List NodeId :=
  (forest.walk id).filter fun id =>
    match forest.get? id with
    | some node => p node
    | none => false

def withTag (tag : String) : List NodeId :=
  forest.filter root fun node => node.isElement && node.name == tag

def elementCount (id : NodeId) : Nat := (forest.filter id Node.isElement).length

def textContent (id : NodeId) : String :=
  String.join (((forest.walk id).filterMap forest.get?).filterMap fun node =>
    if node.isText then some node.content else none)

end Forest

end TemplateMarkup
