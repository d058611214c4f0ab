import TemplateMarkup.Parsing.Values

/-! Script blocks: their text is kept, but for a few constructs that are looked for in it. -/
namespace TemplateMarkup.Parse

def bracedPart? (token : Token) : Option ScriptPart :=
  match token.kind with
  | .classSelector => some (.classRef token.selectorName)
  | .idSelector => some (.idRef token.selectorName)
  | .contextRef => if token.text == "&" then some .contextRef else none
  | _ => none

/-- A class, an id or an ampersand in double braces that starts at an index. Within each pair
of braces nothing stands between the two. -/
def bracedAt (index close : Nat) : Parse (Option (ScriptPart × Nat)) := do
  if index + 4 < close then
    let inner ← tokenAt (index + 1)
    let middle ← tokenAt (index + 2)
    let inner' ← tokenAt (index + 3)
    let outer' ← tokenAt (index + 4)
    let input ← read
    if inner.kind == .leftBrace && inner'.kind == .rightBrace && outer'.kind == .rightBrace
        && input.adjacent (index + 1) && input.adjacent (index + 4) then
      return (bracedPart? middle).map fun part => (part, index + 5)
    else return none
  else return none

/-- The type and the name of a reference to foreign text that starts at an index. -/
def originNameAt? (input : ParseInput) (index : Nat) : Option (OriginType × String) := do
  let tag ← input.tokens[index + 1]?
  match tag.kind with
  | .atWord word =>
    let name ← input.tokens[index + 2]?
    if name.isName then some (.ofAtWord word, name.text) else none
  | _ => none

def originRefAt (index close : Nat) : Parse (Option (ScriptPart × Nat)) := do
  match originNameAt? (← read) index with
  | none => return none
  | some (type, name) =>
    if index + 3 < close then
      let ended := (← tokenAt (index + 3)).kind == .semicolon
      return some (.origin type name, if ended then index + 4 else index + 3)
    else if index + 2 < close then return some (.origin type name, index + 3)
    else return none

/-- Whether the token at an index is called on the value before it, like a method. -/
def isMethod (index : Nat) : Parse Bool := do
  if (← read).adjacent index then
    let before ← tokenAt (index - 1)
    return before.kind == .dot || before.kind == .classSelector
  else return false

def scriptPartAt (index close : Nat) : Parse (Option (ScriptPart × Nat)) := do
  match (← tokenAt index).kind with
  | .leftBrace => bracedAt index close
  | .block .origin => originRefAt index close
  | .identifier =>
    match ← varRefAt index with
    | none => return none
    | some (ref, next) =>
      if (← isMethod index) || close < next then return none
      else return some (.var ref, next)
  | _ => return none

structure ScriptDraft where
  block : ScriptBlock := {}
  offset : Nat

def scriptParts (close : Nat) (index : Nat) (draft : ScriptDraft) : Parse ScriptDraft :=
  if _ : index < close then do
    match ← scriptPartAt index close with
    | none => scriptParts close (index + 1) draft
    | some (part, next) =>
      let code ← slice draft.offset (← tokenAt index).span.start
      let draft : ScriptDraft :=
        { block := (draft.block.pushCode code).push part
          offset := (← tokenAt (next - 1)).span.stop }
      if _ : index < next then scriptParts close next draft
      else
        modify stall
        return draft
  else return draft
termination_by close - index

def scriptBlock : Parse ScriptBlock := do
  let _ ← advance
  let start ← cursor
  let _ ← expect .leftBrace "'\x7b' after script"
  let close ← matchingBrace start
  let draft ← scriptParts close (start + 1) { offset := (← tokenAt start).span.stop }
  let code ← slice draft.offset (← tokenAt close).span.start
  moveTo (close + 1)
  return draft.block.pushCode code

end TemplateMarkup.Parse
