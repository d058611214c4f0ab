import TemplateMarkup.OrderedMap

/-! Namespaces, which are named by the dotted path of the names around them. -/
namespace TemplateMarkup

structure NamespaceEntry where
  path : String
  name : String
  parent : Option String
  declarations : Nat
deriving DecidableEq, Inhabited

inductive NamespaceEvent
  | created
  | merged
  /-- Created beside a namespace with the same name in another place. -/
  | conflict (existing : String)
deriving DecidableEq, Inhabited

structure Namespaces where
  entries : OrderedMap String NamespaceEntry := {}
deriving Inhabited

namespace Namespaces

def join (parent name : String) : String :=
  if parent.isEmpty then name else parent ++ "." ++ name

/-- The non-empty paths before each dot, longest first, of a path given last character first. -/
def pathsAround : List Char → List String
  | [] => []
  | c :: rest =>
    if c = '.' ∧ rest ≠ [] then String.ofList rest.reverse :: pathsAround rest
    else pathsAround rest

def scopeChain (path : String) : List String :=
  (if path.isEmpty then [] else [path]) ++ pathsAround path.toList.reverse ++ [""]

/-- Declares a name inside a namespace: its path, what became of it, and the table after. -/
def declare (table : Namespaces) (parent name : String) :
    String × NamespaceEvent × Namespaces :=
  let path := join parent name
  match table.entries.get? path with
  | some entry =>
    (path, .merged,
      ⟨table.entries.insert path { entry with declarations := entry.declarations + 1 }⟩)
  | none =>
    let entry : NamespaceEntry :=
      { path, name, parent := if parent.isEmpty then none else some parent, declarations := 1 }
    let event := match table.entries.values.find? (·.name == name) with
      | some existing => .conflict existing.path
      | none => .created
    (path, event, ⟨table.entries.insert path entry⟩)

end Namespaces

end TemplateMarkup
