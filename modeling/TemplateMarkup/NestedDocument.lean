/-! Sources of a known shape: elements in one another, with a text in the innermost. -/
namespace TemplateMarkup.NestedDocument

def indent (level : Nat) : String := String.ofList (List.replicate (2 * level) ' ')

def opening (level : Nat) : String := indent level ++ "div \x7b\n"

def leaf (level : Nat) : String := indent level ++ "text \x7b \"leaf\" \x7d\n"

def closing (level : Nat) : String := indent level ++ "\x7d\n"

/-- A source with so many elements in one another; with none it is empty. -/
def source (depth : Nat) : String :=
  String.join ((List.range depth).map opening)
    ++ (if depth = 0 then "" else leaf depth)
    ++ String.join ((List.range depth).reverse.map closing)

end TemplateMarkup.NestedDocument
