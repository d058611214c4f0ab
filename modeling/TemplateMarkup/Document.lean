import TemplateMarkup.Forest
import TemplateMarkup.SymbolTable

/-! A document: its nodes and all that it names. -/
namespace TemplateMarkup

structure Document where
  forest : Forest := .empty
  symbols : SymbolTable := {}
deriving Inhabited

end TemplateMarkup
