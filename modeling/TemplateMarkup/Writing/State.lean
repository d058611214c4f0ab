import TemplateMarkup.Resolving.Variables
import TemplateMarkup.Writing.Diagnostics

/-! What is gathered while a document is written. -/
namespace TemplateMarkup

structure ScriptFragment where
  owner : Option String
  code : String
deriving DecidableEq, Inhabited

structure WriteState where
  document : Document
  css : List String := []
  js : List String := []
  fragments : List ScriptFragment := []
  warnings : List WriteWarning := []
  errors : List WriteError := []

abbrev Write := StateM WriteState

namespace Write

def forest : Write Forest := do return (← get).document.forest

def symbols : Write SymbolTable := do return (← get).document.symbols

def modifyForest (f : Forest → Forest) : Write Unit :=
  modify fun s => { s with document := { s.document with forest := f s.document.forest } }

def warn (span : Span) (cause : WriteWarningCause) : Write Unit :=
  modify fun s => { s with warnings := s.warnings ++ [{ cause, span }] }

def fail (error : WriteError) : Write Unit :=
  modify fun s => { s with errors := s.errors ++ [error] }

def addRule (rule : String) : Write Unit := modify fun s => { s with css := s.css ++ [rule] }

def addScript (code : String) : Write Unit := modify fun s => { s with js := s.js ++ [code] }

def addFragment (fragment : ScriptFragment) : Write Unit :=
  modify fun s => { s with fragments := s.fragments ++ [fragment] }

/-- Resolves something for what stands at a span; the warnings are told of there. -/
def resolving {α : Type} (span : Span) (action : Resolve α) : Write (Except ResolveError α) :=
  modifyGet fun s =>
    let keep (r : ResolveState) : WriteState :=
      { s with
        document := r.document
        warnings := s.warnings
          ++ r.warnings.reverse.map fun warning => { cause := .resolving warning, span } }
    match action { document := s.document } with
    | .ok value r => (.ok value, keep r)
    | .error e r => (.error e, keep r)

/-- Tells of an error in resolving: what is not defined is a warning. -/
def report (span : Span) (error : ResolveError) : Write Unit :=
  match error with
  | .undefinedReference _ _ => warn span (.undefined error)
  | .cyclicInheritance _ => fail (.resolve error span)

def instantiate (span : Span) (usage : Usage) : Write (Option Content) := do
  match ← resolving span (Resolve.instantiate usage) with
  | .ok content => return some content
  | .error e =>
    report span e
    return none

/-- The text of a value; where its variables cannot be worked out, as it was written. -/
def renderValue (span : Span) (value : Value) : Write String := do
  if value.hasVars then
    match ← resolving span (Resolve.renderValue value) with
    | .ok text => return text
    | .error e =>
      report span e
      return Text.trim value.toText
  else return Text.trim value.toText

def renderVar (span : Span) (ref : VarRef) : Write String := do
  match ← resolving span (Resolve.resolveVar ref) with
  | .ok text => return text.getD ref.raw
  | .error e =>
    report span e
    return ref.raw

end Write

end TemplateMarkup
