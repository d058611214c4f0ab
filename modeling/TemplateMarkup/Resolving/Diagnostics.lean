import TemplateMarkup.Document

/-! What resolving reports. -/
namespace TemplateMarkup

inductive ResolveError
  /-- A definition is above itself: the names from it up to it again. -/
  | cyclicInheritance (cycle : List String)
  | undefinedReference (type : DefinitionType) (name : String)
deriving DecidableEq

def ResolveError.message : ResolveError → String
  | .cyclicInheritance cycle => "cyclic inheritance: " ++ " -> ".intercalate cycle
  | .undefinedReference type name => "undefined " ++ type.label ++ " '" ++ name ++ "'"

/-- Where an edit stands: in a definition, or at a usage of one. -/
inductive EditSite
  | definition (key : DefinitionKey)
  | usage (usage : Usage)
deriving DecidableEq

def EditSite.label : EditSite → String
  | .definition key => key.label
  | .usage u => u.label

inductive ResolveWarning
  | noParentToDelete (key : DefinitionKey) (type : DefinitionType) (name : String)
  | undefinedParent (key : DefinitionKey) (explicit : Bool) (type : DefinitionType)
      (name : String)
  /-- A property that nothing gives a value. -/
  | unfilled (usage : Usage) (name : String)
  | templateEdited (usage : Usage)
  | noElementAt (site : EditSite) (target : Target)
  | noElementNamed (site : EditSite) (name : String)
  | noPropertyNamed (site : EditSite) (name : String)
  | parentAtUsage (site : EditSite) (type : DefinitionType) (name : String)
  | noElementToInsertAt (site : EditSite) (target : Target)
  | noPropertyToInsertAt (site : EditSite) (name : String)
  | payloadMismatch (site : EditSite) (type : DefinitionType)
  | noVariable (key : DefinitionKey) (name : String)
  | templateOverride (ref : VarRef)
  | variableTooDeep (ref : VarRef)
deriving DecidableEq

def ResolveWarning.message : ResolveWarning → String
  | .noParentToDelete key type name =>
    key.label ++ ": no inherited " ++ type.label ++ " '" ++ name ++ "' to delete"
  | .undefinedParent key explicit type name =>
    key.label ++ ": " ++ (if explicit then "inherits" else "composes") ++ " undefined "
      ++ type.label ++ " '" ++ name ++ "'"
  | .unfilled usage name =>
    usage.label ++ ": valueless property '" ++ name ++ "' was not given a value"
  | .templateEdited usage =>
    usage.label ++ ": templates cannot be specialized; ignoring delete/insert"
  | .noElementAt site target => site.label ++ ": no element " ++ target.label ++ " to delete"
  | .noElementNamed site name => site.label ++ ": no element '" ++ name ++ "' to delete"
  | .noPropertyNamed site name => site.label ++ ": no property '" ++ name ++ "' to delete"
  | .parentAtUsage site type name =>
    site.label ++ ": cannot delete inherited " ++ type.label ++ " '" ++ name
      ++ "' at a usage site"
  | .noElementToInsertAt site target =>
    site.label ++ ": no element " ++ target.label ++ " to insert at"
  | .noPropertyToInsertAt site name =>
    site.label ++ ": no property '" ++ name ++ "' to insert at"
  | .payloadMismatch site type =>
    site.label ++ ": insert content does not match " ++ type.label
  | .noVariable key name => key.label ++ " has no variable '" ++ name ++ "'"
  | .templateOverride ref =>
    ref.raw ++ ": template variables cannot be overridden; keeping the defined value"
  | .variableTooDeep ref => ref.raw ++ ": variable references nest too deeply"

end TemplateMarkup
