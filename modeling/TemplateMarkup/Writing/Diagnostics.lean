import TemplateMarkup.Resolving.Diagnostics

/-! What writing a document reports: errors, each for a node that is left out, and warnings. -/
namespace TemplateMarkup

inductive WriteError
  | voidElementChildren (tag : String) (span : Span)
  | constraintViolation (tag : String) (forbidden : ConstraintTarget) (span : Span)
  | nestingTooDeep (tag : String) (limit : Nat) (span : Span)
  | resolve (error : ResolveError) (span : Span)
deriving DecidableEq

def WriteError.message : WriteError → String
  | .voidElementChildren tag span =>
    span.label ++ "<" ++ tag ++ "> is a void element and cannot have children"
  | .constraintViolation tag forbidden span =>
    span.label ++ forbidden.label ++ " is not allowed inside <" ++ tag ++ ">"
  | .nestingTooDeep tag limit span =>
    span.label ++ "<" ++ tag ++ "> is nested deeper than " ++ toString limit ++ " elements"
  | .resolve error span => span.label ++ error.message

inductive WriteWarningCause
  | resolving (warning : ResolveWarning)
  /-- A reference to what is not defined. -/
  | undefined (error : ResolveError)
  | undefinedOrigin (type : OriginType) (name : String)
  | usageOutsideStyle (usage : Usage)
  | usageInStyle (usage : Usage)
  | propertyWithoutSelector (name : String)
  | usageWithoutSelector (usage : Usage)
  | nestedRule (selector : Selector)
  | noContext
deriving DecidableEq

def WriteWarningCause.message : WriteWarningCause → String
  | .resolving warning => warning.message
  | .undefined error => error.message
  | .undefinedOrigin type name => "undefined origin " ++ type.label ++ " " ++ name
  | .usageOutsideStyle usage => usage.label ++ " can only be used inside a style block"
  | .usageInStyle usage => usage.label ++ " cannot be used in a style block"
  | .propertyWithoutSelector name =>
    "property '" ++ name ++ "' in a global style block has no selector"
  | .usageWithoutSelector usage => usage.label ++ " in a global style block has no selector"
  | .nestedRule selector => "nested rule in '" ++ selector.toText ++ "' is ignored"
  | .noContext => "\x7b\x7b&\x7d\x7d has no element selector to refer to"

structure WriteWarning where
  cause : WriteWarningCause
  span : Span
deriving DecidableEq

def WriteWarning.message (w : WriteWarning) : String := w.span.label ++ w.cause.message

end TemplateMarkup
