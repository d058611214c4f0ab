import TemplateMarkup.Document
import TemplateMarkup.Proofs.ForestTrees
import TemplateMarkup.Writing.Markup

/-! The markup of a tree, told from the tree alone. -/
namespace TemplateMarkup

/-- The foreign text that has a name: under the very name if it is qualified, and otherwise in the
nearest of the namespaces around it. -/
def SymbolTable.foreignText? (table : SymbolTable) (type : OriginType) (name scope : String) :
    Option String :=
  match QualifiedName.ofText? name with
  | some qualified => table.origins.get? (type, qualified)
  | none => (Namespaces.scopeChain scope).findSome? fun path =>
    table.origins.get? (type, ⟨path, name⟩)

theorem SymbolTable.foreignText?_eq (table : SymbolTable) (type : OriginType)
    (name scope : String) :
    table.foreignText? type name scope = (table.origin? type name scope).map Prod.snd := by
  unfold foreignText? origin? candidates
  cases QualifiedName.ofText? name with
  | some qualified => cases found : table.origins.get? (type, qualified) <;> simp [found]
  | none =>
    dsimp only
    rw [List.findSome?_map, List.map_findSome?]
    congr
    funext path
    cases found : table.origins.get? (type, ⟨path, name⟩) <;> simp [found]

/-- What foreign text gives to the markup: text without a name stands for itself, and a reference
for the text that has the name. -/
def OriginBlock.markup (table : SymbolTable) (scope : String) (block : OriginBlock) : String :=
  match block.type with
  | .style => ""
  | .javaScript => ""
  | type =>
    match block.content, block.name with
    | some content, none => content
    | none, some name => (table.foreignText? type name scope).getD ""
    | _, _ => ""

theorem OriginBlock.markup_congr {table table' : SymbolTable}
    (same : table'.origins = table.origins) (scope : String) (block : OriginBlock) :
    block.markup table' scope = block.markup table scope := by
  unfold OriginBlock.markup SymbolTable.foreignText?
  rw [same]

/-- A reference gives what its text would give in its place. -/
theorem OriginBlock.markup_reference (table : SymbolTable) (scope : String) (type : OriginType)
    (name : String) : markup table scope { type, name := some name } =
      match table.origin? type name scope with
      | some (_, content) => markup table scope { type, content := some content }
      | none => "" := by
  cases found : table.origin? type name scope <;> cases type <;>
    simp [markup, table.foreignText?_eq, found]

namespace NodeTree

mutual

/-- A tree as markup. What is no content gives nothing. -/
def markup (table : SymbolTable) : NodeTree → String
  | .mk node branches =>
    match node.kind with
    | .element =>
      let tag := "<" ++ node.name ++ Markup.attributes node.attributes node.properties ++ ">"
      if Tags.isVoid node.name then tag
      else tag ++ markupAll table branches ++ "</" ++ node.name ++ ">"
    | .text => Markup.escape node.content
    | .comment => "<!-- " ++ Text.trim node.content ++ " -->"
    | .origin block => block.markup table node.scope
    | .scope => markupAll table branches
    | _ => ""

/-- Trees as markup, one behind the other. -/
def markupAll (table : SymbolTable) : List NodeTree → String
  | [] => ""
  | tree :: trees => markup table tree ++ markupAll table trees

end

variable {table : SymbolTable}

@[simp] theorem markupAll_nil : markupAll table [] = "" := by rw [markupAll]

@[simp] theorem markupAll_cons (tree : NodeTree) (trees : List NodeTree) :
    markupAll table (tree :: trees) = tree.markup table ++ markupAll table trees := by
  rw [markupAll]

theorem markupAll_append (trees more : List NodeTree) :
    markupAll table (trees ++ more) = markupAll table trees ++ markupAll table more := by
  induction trees with
  | nil => simp
  | cons tree trees ih => simp [ih, String.append_assoc]

mutual

/-- Of the table only the foreign texts matter. -/
theorem markup_congr {table table' : SymbolTable} (same : table'.origins = table.origins) :
    ∀ tree : NodeTree, tree.markup table' = tree.markup table
  | .mk node branches => by
    have below := markupAll_congr same branches
    unfold markup
    rw [below]
    cases node.kind with
    | origin block => exact block.markup_congr same node.scope
    | _ => rfl

theorem markupAll_congr {table table' : SymbolTable} (same : table'.origins = table.origins) :
    ∀ trees : List NodeTree, markupAll table' trees = markupAll table trees
  | [] => by rw [markupAll, markupAll]
  | tree :: trees => by
    rw [markupAll, markupAll, markup_congr same tree, markupAll_congr same trees]

end

end NodeTree

/-- The tree of a document as markup. -/
def Document.markup (document : Document) : String :=
  match document.forest.tree? Forest.root with
  | some tree => NodeTree.markupAll document.symbols tree.branches
  | none => ""

end TemplateMarkup
