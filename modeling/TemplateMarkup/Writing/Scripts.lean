import TemplateMarkup.Writing.State

/-! Script blocks. Code is written as it is; variables and foreign text are put in, and the
ampersand gives way to the selector of the element. -/
namespace TemplateMarkup.Write

def braced (text : String) : String := "\x7b\x7b" ++ text ++ "\x7d\x7d"

def scriptPart (span : Span) (context : Option String) (scope : String) (part : ScriptPart) :
    Write String := do
  match part with
  | .code text => return text
  | .contextRef => return braced (context.getD "&")
  | .classRef name => return braced ("." ++ name)
  | .idRef name => return braced ("#" ++ name)
  | .var ref => renderVar span ref
  | .origin type name =>
    match (← symbols).origin? type name scope with
    | some (_, content) => return content
    | none =>
      warn span (.undefinedOrigin type name)
      return ""

/-- The code of a script block. -/
def scriptCode (span : Span) (context : Option String) (scope : String) (block : ScriptBlock) :
    Write String := do
  let texts ← block.parts.mapM (scriptPart span context scope)
  if context.isNone && block.parts.contains .contextRef then warn span .noContext
  return Text.trim (String.join texts)

/-- Adds a script block, unless it comes to nothing. -/
def script (span : Span) (owner : Option String) (scope : String) (block : ScriptBlock) :
    Write Unit := do
  let code ← scriptCode span owner scope block
  if !code.isEmpty then
    addScript code
    addFragment { owner, code }

end TemplateMarkup.Write
