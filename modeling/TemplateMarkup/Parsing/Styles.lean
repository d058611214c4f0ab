import TemplateMarkup.Parsing.Usages

/-! Style blocks. -/
namespace TemplateMarkup.Parse

/-- What a token says in a selector. A string keeps its quotes, as they stand in the source. -/
def selectorPart : Parse SelectorPart := do
  let token ← advance
  match token.kind with
  | .classSelector => return .classPart token.selectorName
  | .idSelector => return .idPart token.selectorName
  | .contextRef => return .context token.tailText
  | .string _ =>
    let behind ← cursor
    return .raw (← spanning (behind - 1) (behind - 1))
  | _ => return .raw token.text

def selectorStep (start : Nat) (selector : Selector) : Parse (Option Selector) := do
  if (← check .leftBrace) || (← atEnd) then return none
  else
    let here ← cursor
    let apart := here > start && !(← adjacentHere)
    let part ← selectorPart
    return some ((if apart then selector.push (.raw " ") else selector).push part)

/-- A selector up to its brace; what stands between two of its tokens becomes one space. -/
def selector : Parse Selector := do
  let start ← cursor
  let selector ← loop (selectorStep start) {}
  if (← cursor) == start then unexpected "a selector" else return selector

def atRuleStop : Parse Bool := do return (← peekKind).endsStatement || (← check .leftBrace)

def atRule : Parse String := do
  let start ← cursor
  skipUntil atRuleStop
  match ← peekKind with
  | .semicolon => let _ ← advance
  | .leftBrace => moveTo ((← matchingBrace (← cursor)) + 1)
  | _ => if (← cursor) == start then unexpected "an at-rule"
  spanning start ((← cursor) - 1)

/-- Whether the statement at the cursor is a rule: it comes to a brace before it ends. -/
def ruleAhead : Parse Bool := do
  let here ← cursor
  let _ ← tokenAt here
  return (← read).braceAhead here

/-- One item of a style block, added to those before it; `rule` reads a rule where one may
stand. -/
def styleStep (rule : Option (Parse StyleItem)) (items : List StyleItem) :
    Parse (Option (List StyleItem)) := do
  let token ← peek
  match token.kind with
  | .rightBrace => return none
  | .eof => return none
  | .semicolon =>
    let _ ← advance
    return some items
  | .comment .generator =>
    let _ ← advance
    return some items
  | .atWord .style => return some (items ++ [.usage (← propertyUsage .style)])
  | .block .template => return some (items ++ [.usage (← propertyUsage .style)])
  | .block .custom => return some (items ++ [.usage (← propertyUsage .style)])
  | .atWord (.other _) => return some (items ++ [.raw (← atRule)])
  | _ =>
    let ahead ← ruleAhead
    if !ahead && startsProperty token then
      let (name, value) ← property
      return some (items ++ [.property name value])
    else
      match ahead, rule with
      | true, some rule => return some (items ++ [← rule])
      | _, _ => unexpected "a property or selector rule"

def styleRule : Parse StyleItem := do
  let selector ← selector
  let _ ← expect .leftBrace "'\x7b' after selector"
  let items ← loop (styleStep none) []
  let _ ← expect .rightBrace "'\x7d' to close rule"
  return .rule selector items

def styleBlock : Parse StyleBlock := do
  let _ ← advance
  let _ ← expect .leftBrace "'\x7b' after style"
  let items ← loop (styleStep (some styleRule)) []
  let _ ← expect .rightBrace "'\x7d' to close style block"
  return ⟨items⟩

end TemplateMarkup.Parse
