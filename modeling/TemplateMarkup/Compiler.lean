import TemplateMarkup.Parsing.Documents
import TemplateMarkup.Writing.Documents

/-! From a source text to markup, style sheet and script. -/
namespace TemplateMarkup

structure CompileOptions where
  strict : Bool := false
  /-- The settings before those that the source makes. -/
  config : Config := {}

inductive CompileError
  | lex (error : LexError)
  | parse (error : ParseError)
deriving DecidableEq

def CompileError.message : CompileError → String
  | .lex error => "tokenize failed: " ++ error.message
  | .parse error => "parse failed: " ++ error.message

structure CompileOutput where
  html : String := ""
  css : String := ""
  js : String := ""
  success : Bool
  warnings : List String
  errors : List String
  fragments : List ScriptFragment := []
deriving DecidableEq

namespace CompileOutput

def error? (output : CompileOutput) : Option String := output.errors.head?

def failed (error : CompileError) (warnings : List String) : CompileOutput :=
  { success := false, warnings, errors := [error.message] }

def sections (output : CompileOutput) : List String :=
  ["--- html\n" ++ output.html, "--- css\n" ++ output.css, "--- js\n" ++ output.js]
    ++ (if output.errors.isEmpty then []
      else ["--- errors\n" ++ "\n".intercalate output.errors])

/-- The output as one text, without white space at the ends of lines. -/
def report (output : CompileOutput) : String :=
  "\n".intercalate ((Text.lines ("\n".intercalate output.sections).toList).map fun line =>
    String.ofList (Text.trimBack line))

end CompileOutput

namespace Compiler

/-- Compiles a source. A failure comes with the warnings before it. -/
def run (options : CompileOptions) (source : String) :
    Except (CompileError × List String) CompileOutput :=
  match TokenStream.ofSource source with
  | .error e => .error (.lex e, [])
  | .ok stream =>
    let parsed := ParseResult.ofTokens source stream.tokens { config := options.config }
      { strict := options.strict }
    let warnings := stream.skipped.map SkippedText.message ++ parsed.messages
    match parsed.error? with
    | some e => .error (.parse e, warnings)
    | none =>
      let written := WriteResult.ofDocument parsed.document
      .ok
        { html := written.html
          css := written.css
          js := written.js
          success := written.success
          warnings := warnings ++ written.warnings.map WriteWarning.message
          errors := written.errors.map WriteError.message
          fragments := written.fragments }

def compile (options : CompileOptions) (source : String) : CompileOutput :=
  match run options source with
  | .ok output => output
  | .error (e, warnings) => .failed e warnings

def compile? (options : CompileOptions) (source : String) : Except CompileError CompileOutput :=
  match run options source with
  | .ok output => .ok output
  | .error (e, _) => .error e

end Compiler

end TemplateMarkup
