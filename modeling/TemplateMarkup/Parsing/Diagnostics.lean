import TemplateMarkup.Document

/-! What parsing reports: errors, which end an item, and warnings, which do not. -/
namespace TemplateMarkup

inductive ParseProblem
  /-- Something else was expected where a token stands. -/
  | unexpected (what found : String)
  /-- Something was expected where the source ends. -/
  | endOfInput (what : String)
  | unclosedBrace
  | useNotFirst
  | notDefinitionType (text : String)
  | onlyInCustom (text : String)
  | usageMismatch (expected found : DefinitionType)
  | notConstraintType (word : AtWord)
  | nestingTooDeep (limit : Nat)
deriving DecidableEq

inductive ParseErrorKind
  | unexpectedToken | unexpectedEof | useNotFirst | invalidDefinition | nestingTooDeep
deriving DecidableEq

namespace ParseProblem

def kind : ParseProblem → ParseErrorKind
  | .unexpected _ _ => .unexpectedToken
  | .endOfInput _ => .unexpectedEof
  | .unclosedBrace => .unexpectedEof
  | .useNotFirst => .useNotFirst
  | .notDefinitionType _ => .invalidDefinition
  | .onlyInCustom _ => .invalidDefinition
  | .usageMismatch _ _ => .unexpectedToken
  | .notConstraintType _ => .unexpectedToken
  | .nestingTooDeep _ => .nestingTooDeep

def message : ParseProblem → String
  | .unexpected what found => "expected " ++ what ++ ", found '" ++ found ++ "'"
  | .endOfInput what => "unexpected end of input, expected " ++ what
  | .unclosedBrace => "unclosed '\x7b'"
  | .useNotFirst => "'use' must come before any other statement"
  | .notDefinitionType text => text ++ " cannot be used as a definition type"
  | .onlyInCustom text => "'" ++ text ++ "' is only allowed in [Custom] definitions"
  | .usageMismatch expected found =>
    "expected " ++ expected.label ++ " usage, found " ++ found.label
  | .notConstraintType word => word.label ++ " is not a definition type"
  | .nestingTooDeep limit => "blocks nested deeper than " ++ toString limit ++ " levels"

end ParseProblem

structure ParseError where
  problem : ParseProblem
  span : Span
deriving DecidableEq

def ParseError.message (e : ParseError) : String := e.span.label ++ e.problem.message

inductive ParseWarningCause
  | unknownElement (tag : String)
  | ignoredBlock (text : String)
  | duplicateDefinition (key : DefinitionKey)
  | duplicateOrigin (type : OriginType) (name : String)
  | namespaceConflict (name existing : String)
  | badConfig (error : ConfigError)
  | duplicateConfiguration (name : String)
  | unknownConfiguration (name : String)
deriving DecidableEq

def ParseWarningCause.message : ParseWarningCause → String
  | .unknownElement tag => "unknown element '" ++ tag ++ "'"
  | .ignoredBlock text => "ignoring " ++ text ++ " block"
  | .duplicateDefinition key => "duplicate definition " ++ key.label ++ "; keeping the first"
  | .duplicateOrigin type name =>
    "duplicate origin " ++ type.label ++ " " ++ name ++ "; keeping the first"
  | .namespaceConflict name existing =>
    "namespace '" ++ name ++ "' conflicts with '" ++ existing ++ "'"
  | .badConfig error => error.message
  | .duplicateConfiguration name => "duplicate configuration '" ++ name ++ "'"
  | .unknownConfiguration name => "unknown configuration '" ++ name ++ "' in use statement"

structure ParseWarning where
  cause : ParseWarningCause
  span : Span
deriving DecidableEq

def ParseWarning.message (w : ParseWarning) : String := w.span.label ++ w.cause.message

end TemplateMarkup
