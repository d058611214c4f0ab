import TemplateMarkup.Parsing.Scripts
import TemplateMarkup.Proofs.SelectorTokens
import TemplateMarkup.Proofs.ValueText
import TemplateMarkup.Proofs.WriteStates

/-! The text of a script block against the source between its braces. What is not a construct is
code, so nothing of the source is lost. -/
namespace TemplateMarkup

/-- The text that a part keeps of its source. -/
def ScriptPart.ownText? : ScriptPart → Option String
  | .code text => some text
  | .var ref => some ref.raw
  | .contextRef | .classRef _ | .idRef _ | .origin _ _ => none

/-- A part that is written as it was read: code, or a reference whose group is unknown. -/
def ScriptPart.IsInert (symbols : SymbolTable) : ScriptPart → Prop
  | .code _ => True
  | .var ref => symbols.lookupKey ref.group .var none ref.scope = none
  | .contextRef | .classRef _ | .idRef _ | .origin _ _ => False

theorem ScriptPart.IsInert.ownText? {symbols : SymbolTable} {part : ScriptPart}
    (inert : part.IsInert symbols) : ∃ text, part.ownText? = some text := by
  cases part with
  | code text => exact ⟨text, rfl⟩
  | var ref => exact ⟨ref.raw, rfl⟩
  | contextRef | classRef | idRef | origin => cases inert

namespace ScriptBlock

def isCode : ScriptPart → Bool
  | .code _ => true
  | _ => false

/-- Code as a part of a script, unless it is empty. -/
def codeParts (text : String) : List ScriptPart := if text.isEmpty then [] else [.code text]

/-- The last part is not code, so that code at the end makes a new part. -/
def Finished (block : ScriptBlock) : Prop := ∀ part ∈ block.parts.getLast?, isCode part = false

theorem appendCode_of_finished (text : String) {parts : List ScriptPart}
    (finished : ∀ part ∈ parts.getLast?, isCode part = false) :
    appendCode text parts = parts ++ [.code text] := by
  fun_induction appendCode text parts with
  | case1 => rfl
  | case2 last => cases finished (.code last) rfl
  | case3 part parts _ ih =>
    cases parts with
    | nil => rfl
    | cons next parts =>
      rw [ih fun last member => finished last (by simpa using member)]
      rfl

theorem Finished.pushCode {block : ScriptBlock} (finished : block.Finished) (text : String) :
    (block.pushCode text).parts = block.parts ++ codeParts text := by
  unfold ScriptBlock.pushCode codeParts
  split
  · rw [List.append_nil]
  · exact appendCode_of_finished text finished

theorem finished_push (block : ScriptBlock) {part : ScriptPart} (plain : isCode part = false) :
    (block.push part).Finished := by
  intro last member
  simp only [push, List.getLast?_concat, Option.mem_def, Option.some.injEq] at member
  rw [← member]
  exact plain

end ScriptBlock

namespace Parse
open SourceText ScriptBlock

/-- A part of a script, and the source it was read from. -/
structure ScriptPiece where
  part : ScriptPart
  source : String

def codePieces (text : String) : List ScriptPiece :=
  if text.isEmpty then [] else [⟨.code text, text⟩]

/-- A construct that is found in a script, with its first token and the token behind it. -/
structure Construct where
  part : ScriptPart
  first : Nat
  next : Nat

/-- The source of a construct. -/
def Construct.text (input : ParseInput) (construct : Construct) : String :=
  SourceText.segment input.source (input.token construct.first).span.start
    (input.token (construct.next - 1)).span.stop

def Construct.piece (input : ParseInput) (construct : Construct) : ScriptPiece :=
  ⟨construct.part, construct.text input⟩

/-- What is found in a script from an index on, up to its closing brace. -/
inductive Finds (input : ParseInput) (s : ParseState) (close : Nat) : Nat → List Construct → Prop
  | nothing {index : Nat} : close ≤ index → Finds input s close index []
  | token {index : Nat} {found : List Construct} : index < close →
      scriptPartAt index close input s = .ok none s → Finds input s close (index + 1) found →
      Finds input s close index found
  | construct {index next : Nat} {part : ScriptPart} {found : List Construct} : index < close →
      scriptPartAt index close input s = .ok (some (part, next)) s →
      Finds input s close next found → Finds input s close index (⟨part, index, next⟩ :: found)

/-- Pieces that make up a text, the constructs among them being the ones found. -/
structure Spells (input : ParseInput) (found : List Construct) (pieces : List ScriptPiece)
    (text : String) : Prop where
  whole : String.join (pieces.map ScriptPiece.source) = text
  constructs : pieces.filter (fun piece => !isCode piece.part) = found.map (Construct.piece input)
  own : ∀ piece ∈ pieces, ∀ text ∈ piece.part.ownText?, piece.source = text

section Spelling

variable {input : ParseInput}

theorem parts_codePieces (text : String) :
    (codePieces text).map ScriptPiece.part = codeParts text := by
  unfold codePieces codeParts
  split <;> rfl

theorem spells_code (text : String) : Spells input [] (codePieces text) text := by
  unfold codePieces
  split
  · next empty =>
    rw [String.isEmpty_iff.1 empty]
    exact ⟨rfl, rfl, by simp⟩
  · exact ⟨by simp, rfl, by simp [ScriptPart.ownText?]⟩

theorem spells_construct {construct : Construct} (plain : isCode construct.part = false)
    (own : ∀ text ∈ construct.part.ownText?, construct.text input = text) :
    Spells input [construct] [construct.piece input] (construct.text input) := by
  refine ⟨?_, ?_, ?_⟩
  · simp [Construct.piece]
  · simp [Construct.piece, plain]
  · intro piece member
    rw [List.mem_singleton.1 member]
    exact own

theorem Spells.append {found found' : List Construct} {pieces pieces' : List ScriptPiece}
    {text text' : String} (h : Spells input found pieces text)
    (h' : Spells input found' pieces' text') :
    Spells input (found ++ found') (pieces ++ pieces') (text ++ text') where
  whole := by rw [List.map_append, String.join_append, h.whole, h'.whole]
  constructs := by rw [List.filter_append, List.map_append, h.constructs, h'.constructs]
  own := fun piece member => (List.mem_append.1 member).elim (h.own piece) (h'.own piece)

end Spelling

section Reading

variable {input : ParseInput} {s s' : ParseState} {index close next : Nat} {part : ScriptPart}

/-- A construct that is found ends in front of the closing brace, and a reference keeps its
source. -/
structure IsConstruct (input : ParseInput) (close : Nat) (construct : Construct) : Prop where
  lt : construct.first < construct.next
  le : construct.next ≤ close
  plain : isCode construct.part = false
  own : ∀ text ∈ construct.part.ownText?, construct.text input = text

theorem bracedPart?_plain {token : Token} (found : bracedPart? token = some part) :
    isCode part = false ∧ part.ownText? = none := by
  unfold bracedPart? at found
  split at found
  · cases found
    exact ⟨rfl, rfl⟩
  · cases found
    exact ⟨rfl, rfl⟩
  · split at found <;> cases found
    exact ⟨rfl, rfl⟩
  · cases found

variable {found : Option (ScriptPart × Nat)}

/-- A search that leaves the state as it is, and finds a construct or nothing. -/
def FindsAt (input : ParseInput) (s : ParseState) (index close : Nat)
    (found : Option (ScriptPart × Nat)) (s' : ParseState) : Prop :=
  s' = s ∧ ∀ part next, found = some (part, next) → IsConstruct input close ⟨part, index, next⟩

theorem findsAt_none : FindsAt input s index close none s := ⟨rfl, by simp⟩

theorem findsAt_bracedAt (inside : close < input.tokens.size)
    (run : bracedAt index close input s = .ok found s') : FindsAt input s index close found s' := by
  unfold bracedAt at run
  rw [ite_apply] at run
  split at run
  · next room =>
    simp only [bind_apply, tokenAt_apply s (show index + 1 < input.tokens.size by omega),
      tokenAt_apply s (show index + 2 < input.tokens.size by omega),
      tokenAt_apply s (show index + 3 < input.tokens.size by omega),
      tokenAt_apply s (show index + 4 < input.tokens.size by omega), read_apply, ite_apply] at run
    split at run
    · cases run
      refine ⟨rfl, fun part next found => ?_⟩
      obtain ⟨_, braced, same⟩ := Option.map_eq_some_iff.1 found
      cases same
      obtain ⟨plain, none⟩ := bracedPart?_plain braced
      exact ⟨by dsimp only; omega, room, plain, by simp [none]⟩
    · cases run
      exact findsAt_none
  · cases run
    exact findsAt_none

theorem findsAt_originRefAt (inside : close < input.tokens.size)
    (run : originRefAt index close input s = .ok found s') :
    FindsAt input s index close found s' := by
  have isConstruct (type : OriginType) (name : String) {next : Nat} (lt : index < next)
      (le : next ≤ close) : FindsAt input s index close (some (.origin type name, next)) s := by
    refine ⟨rfl, ?_⟩
    rintro _ _ ⟨⟩
    exact ⟨lt, le, rfl, by simp [ScriptPart.ownText?]⟩
  unfold originRefAt at run
  rw [bind_ok (read_apply ..)] at run
  cases named : originNameAt? input index with
  | none =>
    simp only [named] at run
    cases run
    exact findsAt_none
  | some origin =>
    obtain ⟨type, name⟩ := origin
    simp only [named, ite_apply] at run
    split at run
    · next room =>
      rw [bind_ok (tokenAt_apply s (by omega))] at run
      cases run
      exact isConstruct type name (by split <;> omega) (by split <;> omega)
    · split at run
      · cases run
        exact isConstruct type name (by omega) (by omega)
      · cases run
        exact findsAt_none

theorem isMethod_apply (s : ParseState) (inside : index < input.tokens.size) :
    ∃ method, isMethod index input s = .ok method s := by
  unfold isMethod
  rw [bind_ok (read_apply ..), ite_apply]
  split
  · rw [bind_ok (tokenAt_apply s (by omega))]
    exact ⟨_, rfl⟩
  · exact ⟨_, rfl⟩

/-- Looking for a construct leaves the state as it is. -/
theorem scriptPartAt_eq_ok (laid : input.Laid) (inside : close < input.tokens.size)
    (lt : index < close) (run : scriptPartAt index close input s = .ok found s') :
    FindsAt input s index close found s' := by
  have here : index < input.tokens.size := by omega
  unfold scriptPartAt at run
  rw [bind_ok (tokenAt_apply s here)] at run
  cases kind : (input.token index).kind with
  | leftBrace =>
    simp only [kind] at run
    exact findsAt_bracedAt inside run
  | block word =>
    simp only [kind] at run
    cases word with
    | origin => exact findsAt_originRefAt inside run
    | _ =>
      cases run
      exact findsAt_none
  | identifier =>
    simp only [kind, bind_apply] at run
    cases shape : varRefShape? input index with
    | none =>
      rw [varRefAt_other s shape] at run
      cases run
      exact findsAt_none
    | some shape' =>
      obtain ⟨ref, read, raw⟩ := varRefAt_reference laid s shape
      have bounds := ParseInput.varRefShape?_bounds shape
      obtain ⟨method, called⟩ := isMethod_apply s here
      simp only [read, bind_apply, called, ite_apply] at run
      split at run
      · cases run
        exact findsAt_none
      · next before =>
        cases run
        refine ⟨rfl, ?_⟩
        rintro _ _ ⟨⟩
        simp only [Bool.or_eq_true, decide_eq_true_eq, not_or] at before
        refine ⟨by dsimp only; omega, by dsimp only; omega, rfl, ?_⟩
        rintro _ ⟨⟩
        exact raw.symm
  | _ =>
    simp only [kind] at run
    cases run
    exact findsAt_none

theorem slice_apply {a b : Nat} (s : ParseState) (ha : IsCut input.source a)
    (hb : IsCut input.source b) (le : a ≤ b) :
    slice a b input s = .ok (SourceText.segment input.source a b) s := by
  simp only [slice, bind_apply, read_apply, slice?_eq_segment ha hb le, pure_apply]

/-- A script in the making goes up to an offset, not past the token at an index, and does not end
in code. -/
structure Drawn (input : ParseInput) (index : Nat) (draft : ScriptDraft) : Prop where
  cut : IsCut input.source draft.offset
  le : draft.offset ≤ (input.token index).span.start
  finished : draft.block.Finished

/-- From one draft of a script to a later one: the pieces added are those of the source between
them. -/
structure Extends (input : ParseInput) (found : List Construct) (draft later : ScriptDraft) :
    Prop where
  le : draft.offset ≤ later.offset
  pieces : ∃ pieces, later.block.parts = draft.block.parts ++ pieces.map ScriptPiece.part ∧
    Spells input found pieces (SourceText.segment input.source draft.offset later.offset)

theorem segment_self {a : Nat} (h : IsCut input.source a) :
    SourceText.segment input.source a a = "" :=
  ((Shown.gap h (Nat.le_refl a)).whole rfl).symm

variable {draft : ScriptDraft}

theorem Drawn.extends_self (drawn : Drawn input index draft) : Extends input [] draft draft := by
  refine ⟨Nat.le_refl _, [], by simp, ?_⟩
  rw [segment_self drawn.cut]
  exact ⟨rfl, rfl, by simp⟩

theorem Drawn.later (drawn : Drawn input index draft) (laid : input.Laid) {later : Nat}
    (le : index ≤ later) (inside : later < input.tokens.size) : Drawn input later draft :=
  ⟨drawn.cut, Nat.le_trans drawn.le (laid.start_le_start le inside), drawn.finished⟩

/-- Adding what stands in front of a construct, and the construct. -/
theorem Drawn.construct {draft' : ScriptDraft} (drawn : Drawn input index draft)
    (laid : input.Laid) (inside : close < input.tokens.size)
    (isConstruct : IsConstruct input close ⟨part, index, next⟩)
    (same : draft' =
      { block := (draft.block.pushCode (SourceText.segment input.source draft.offset
          (input.token index).span.start)).push part
        offset := (input.token (next - 1)).span.stop }) :
    Drawn input next draft' ∧ Extends input [⟨part, index, next⟩] draft draft' := by
  subst same
  have lt : index < next := isConstruct.lt
  have le : next ≤ close := isConstruct.le
  have startCut := laid.starts index (by omega)
  have stopCut := laid.stops (next - 1) (by omega)
  have forward : (input.token index).span.start ≤ (input.token (next - 1)).span.stop :=
    Nat.le_trans (laid.start_le_start (show index ≤ next - 1 by omega) (by omega))
      (laid.start_le_stop (next - 1) (by omega))
  refine ⟨⟨stopCut, ?_, finished_push _ isConstruct.plain⟩, Nat.le_trans drawn.le forward,
    codePieces (SourceText.segment input.source draft.offset (input.token index).span.start) ++
      [Construct.piece input ⟨part, index, next⟩], ?_, ?_⟩
  · exact laid.stop_le_start (next - 1) next (by omega) (by omega)
  · simp only [push, drawn.finished.pushCode, List.map_append, parts_codePieces,
      List.append_assoc]
    rfl
  · have code : Spells input [] _ _ :=
      spells_code (SourceText.segment input.source draft.offset (input.token index).span.start)
    have whole := code.append (spells_construct isConstruct.plain isConstruct.own)
    rw [Construct.text, segment_append drawn.cut startCut stopCut drawn.le forward] at whole
    exact whole

theorem Extends.trans {found found' : List Construct} {middle later : ScriptDraft}
    (h : Extends input found draft middle) (h' : Extends input found' middle later)
    (start : IsCut input.source draft.offset) (between : IsCut input.source middle.offset)
    (stop : IsCut input.source later.offset) : Extends input (found ++ found') draft later := by
  obtain ⟨pieces, parts, spells⟩ := h.pieces
  obtain ⟨pieces', parts', spells'⟩ := h'.pieces
  refine ⟨Nat.le_trans h.le h'.le, pieces ++ pieces', ?_, ?_⟩
  · rw [parts', parts, List.map_append, List.append_assoc]
  · rw [← segment_append start between stop h.le h'.le]
    exact spells.append spells'

/-- The tokens of a script are read from left to right, and what is found among them is added. -/
theorem scriptParts_extends {later : ScriptDraft} (laid : input.Laid)
    (inside : close < input.tokens.size) (le : index ≤ close) (drawn : Drawn input index draft)
    (run : scriptParts close index draft input s = .ok later s') :
    s' = s ∧ Drawn input close later ∧
      ∃ found, Finds input s close index found ∧ Extends input found draft later := by
  fun_induction scriptParts close index draft
  case case1 index draft lt passed taken =>
    obtain ⟨looked?, s₁, looked, run⟩ := bind_eq_ok run
    obtain ⟨rfl, isConstruct⟩ := scriptPartAt_eq_ok laid inside lt looked
    cases looked? with
    | none =>
      obtain ⟨rfl, done, found, finds, extends'⟩ :=
        passed lt (drawn.later laid (Nat.le_succ index) (by omega)) run
      exact ⟨rfl, done, found, .token lt looked finds, extends'⟩
    | some construct =>
      obtain ⟨part, next⟩ := construct
      have here := isConstruct part next rfl
      have forward : index < next := here.lt
      have before : next ≤ close := here.le
      simp only [bind_apply, tokenAt_apply s₁ (show index < input.tokens.size by omega),
        tokenAt_apply s₁ (show next - 1 < input.tokens.size by omega),
        slice_apply s₁ drawn.cut (laid.starts index (by omega)) drawn.le, dif_pos forward] at run
      obtain ⟨drawn', step⟩ := drawn.construct laid inside here rfl
      obtain ⟨rfl, done, found, finds, rest⟩ := taken part next _ _ forward before drawn' run
      exact ⟨rfl, done, _, .construct lt looked finds,
        step.trans rest drawn.cut drawn'.cut done.cut⟩
  case case2 index draft past =>
    cases run
    obtain rfl : index = close := by omega
    exact ⟨rfl, drawn, [], .nothing (Nat.le_refl _), drawn.extends_self⟩

theorem expect_eq_ok {kind : TokenKind} (what : String) (same : (input.token s.cursor).kind = kind)
    (more : s.cursor + 1 < input.tokens.size) :
    expect kind what input s =
      .ok (input.token s.cursor) { s with cursor := s.cursor + 1 } := by
  rw [expect, bind_ok (check_apply ..)]
  rw [if_pos (beq_iff_eq.2 same), advance_eq_ok more]

/-- Behind the word of a block that is read stands its opening brace. -/
theorem leftBrace_behind {what : String} {token : Token}
    (run : expect .leftBrace what input (advanced input s) = .ok token s') :
    (input.token (s.cursor + 1)).kind = .leftBrace := by
  rw [← kind_of_expect run]
  exact congrArg Token.kind (token_advanced 0).symm

/-- A script block is made of pieces that are the source between its braces. -/
theorem scriptBlock_spells {block : ScriptBlock} (laid : input.Laid)
    (run : scriptBlock input s = .ok block s') :
    ∃ close found pieces, input.closingBrace? 0 (s.cursor + 1) = some close ∧
      s' = { s with cursor := close + 1 } ∧
      Finds input { s with cursor := s.cursor + 2 } close (s.cursor + 2) found ∧
      block.parts = pieces.map ScriptPiece.part ∧
      ∃ text, slice? input.source (input.token (s.cursor + 1)).span.stop
          (input.token close).span.start = some text ∧ Spells input found pieces text := by
  unfold scriptBlock at run
  rw [advance_bind] at run
  rw [bind_ok (cursor_apply ..)] at run
  obtain ⟨_, _, opened, _⟩ := bind_eq_ok run
  have brace := leftBrace_behind opened
  have more := lt_of_more laid (i := s.cursor + 1) (by simp [brace])
  have word : advanced input s = { s with cursor := s.cursor + 1 } := by
    have taken : advance input s = _ := advance_eq_ok (by omega)
    rw [advance_eq] at taken
    injection taken
  rw [word, bind_ok (expect_eq_ok _ brace more)] at run
  obtain ⟨close, s₂, matched, run⟩ := bind_eq_ok run
  obtain ⟨closing, rfl⟩ := matchingBrace_eq_ok matched
  obtain ⟨le, inside, closes⟩ := ParseInput.closingBrace?_spec closing
  have lt : s.cursor + 1 < close := by
    refine Nat.lt_of_le_of_ne le fun same => ?_
    rw [← same, brace] at closes
    cases closes
  have start := laid.stops (s.cursor + 1) (by omega)
  have stop := laid.starts close inside
  rw [bind_ok (tokenAt_apply _ (show s.cursor + 1 < input.tokens.size by omega))] at run
  obtain ⟨draft, s₃, read, run⟩ := bind_eq_ok run
  have empty : Drawn input (s.cursor + 2)
      { offset := (input.token (s.cursor + 1)).span.stop } :=
    ⟨start, laid.stop_le_start _ _ (by omega) (by omega), by simp [Finished]⟩
  obtain ⟨rfl, drawn, found, finds, whole⟩ := scriptParts_extends laid inside lt empty read
  obtain ⟨pieces, parts, spells⟩ := whole.pieces
  simp only [bind_apply, tokenAt_apply _ inside, slice_apply _ drawn.cut stop drawn.le] at run
  cases run
  refine ⟨close, found, pieces ++ codePieces
      (SourceText.segment input.source draft.offset (input.token close).span.start), closing, rfl,
    finds, ?_, _, slice?_eq_segment start stop (laid.stop_le_start _ _ lt inside), ?_⟩
  · rw [drawn.finished.pushCode, parts, List.map_append, parts_codePieces]
    rfl
  · have all := spells.append (spells_code (SourceText.segment input.source draft.offset
      (input.token close).span.start))
    rw [List.append_nil, segment_append start drawn.cut stop whole.le drawn.le] at all
    exact all

end Reading

end Parse

namespace Write

variable {w : WriteState} {span : Span}

theorem renderVar_unknown {ref : VarRef}
    (h : w.document.symbols.lookupKey ref.group .var none ref.scope = none) :
    renderVar span ref w = (ref.raw, w) := by
  have still : resolving span (Resolve.resolveVar ref) w = (.ok none, w) := by
    have unknown := Resolve.resolveVarAt_unknown (r := { document := w.document }) h
      Resolve.maxVarDepth
    unfold resolving
    simp only [Resolve.resolveVar, modifyGet, MonadStateOf.modifyGet, StateT.modifyGet, unknown]
    simp [pure]
  rw [renderVar, bind_apply, still]
  rfl

theorem mapM_still {α β : Type} {f : α → Write β} {g : α → β} {items : List α}
    (h : ∀ item ∈ items, f item w = (g item, w)) :
    items.mapM f w = (items.map g, w) := by
  induction items with
  | nil => rfl
  | cons item items ih =>
    have rest := ih fun item member => h item (.tail _ member)
    rw [List.mapM_cons, bind_apply, h item (.head _)]
    dsimp only
    rw [bind_apply, rest]
    rfl

theorem scriptPart_inert {part : ScriptPart} (inert : part.IsInert w.document.symbols)
    (context : Option String) (scope : String) :
    scriptPart span context scope part w = (part.ownText?.getD "", w) := by
  cases part with
  | code text => rfl
  | var ref => exact renderVar_unknown inert
  | contextRef | classRef | idRef | origin => cases inert

/-- A script of inert parts is written as its own text, and nothing is told of. -/
theorem scriptCode_inert {block : ScriptBlock}
    (inert : ∀ part ∈ block.parts, part.IsInert w.document.symbols)
    (context : Option String) (scope : String) :
    scriptCode span context scope block w =
      (Text.trim (String.join (block.parts.map fun part => part.ownText?.getD "")), w) := by
  have plain : block.parts.contains .contextRef = false := by
    rw [Bool.eq_false_iff]
    intro mentioned
    exact inert _ (List.contains_iff_mem.1 mentioned)
  rw [scriptCode, bind_apply, mapM_still fun part member => scriptPart_inert (inert part member)
    context scope]
  simp only [plain, Bool.and_false]
  rfl

theorem script_apply {span : Span} {owner : Option String} {scope code : String}
    {block : ScriptBlock} (run : scriptCode span owner scope block w = (code, w)) :
    script span owner scope block w = ((), if code.isEmpty then w else
      { w with js := w.js ++ [code], fragments := w.fragments ++ [{ owner, code }] }) := by
  rw [script, bind_apply, run]
  cases empty : code.isEmpty with
  | true | false => rfl

end Write

namespace Parse
open SourceText

/-- The parts of a script block, code as it is and each construct that was found as its source, are
together the source between the braces. Where all of them are code or references to unknown
groups, the code that is written is that source, up to white space at the ends. -/
theorem scriptBlock_verbatim {source : String} {stream : TokenStream}
    (tokenizes : TokenStream.ofSource source = .ok stream) (options : ParseOptions)
    {s s' : ParseState} {block : ScriptBlock}
    (run : scriptBlock (ParseInput.ofTokens source stream.tokens options) s = .ok block s') :
    let input := ParseInput.ofTokens source stream.tokens options
    ∃ close found pieces text,
      input.closingBrace? 0 (s.cursor + 1) = some close ∧ s'.cursor = close + 1 ∧
      slice? source.toList (input.token (s.cursor + 1)).span.stop
        (input.token close).span.start = some text ∧
      Finds input { s with cursor := s.cursor + 2 } close (s.cursor + 2) found ∧
      block.parts = pieces.map ScriptPiece.part ∧ Spells input found pieces text ∧
      ∀ (w : WriteState) (span : Span) (owner : Option String) (scope : String),
        (∀ part ∈ block.parts, part.IsInert w.document.symbols) →
          Write.script span owner scope block w = ((), if (Text.trim text).isEmpty then w else
            { w with
              js := w.js ++ [Text.trim text]
              fragments := w.fragments ++ [{ owner, code := Text.trim text }] }) := by
  intro input
  have laid := ParseInput.laid_ofSource tokenizes options
  obtain ⟨close, found, pieces, closing, rfl, finds, parts, text, slice, spells⟩ :=
    scriptBlock_spells laid run
  refine ⟨close, found, pieces, text, closing, rfl, slice, finds, parts, spells, ?_⟩
  intro w span owner scope inert
  have code : Write.scriptCode span owner scope block w = _ :=
    Write.scriptCode_inert inert owner scope
  have same : block.parts.map (fun part => part.ownText?.getD "") =
      pieces.map ScriptPiece.source := by
    rw [parts, List.map_map]
    refine List.map_congr_left fun piece member => ?_
    have kept := inert piece.part (by rw [parts]; exact List.mem_map_of_mem member)
    obtain ⟨own, shown⟩ := kept.ownText?
    simp [shown, spells.own piece member own shown]
  rw [same, spells.whole] at code
  exact Write.script_apply code

/-- A brace in a string or a comment and a call that could be a reference come through as they
are. -/
theorem scriptBlock_verbatim_call :
    let source := "script \x7b log(a) /* \x7d */ + \"\x7d\" \x7d"
    let ref : VarRef := ⟨"log", "a", none, "", "log(a)"⟩
    ∃ stream block s', TokenStream.ofSource source = .ok stream ∧
      scriptBlock (ParseInput.ofTokens source stream.tokens {}) {} = .ok block s' ∧
      block.parts = [.code " ", .var ref, .code " /* \x7d */ + \"\x7d\" "] ∧
      (Write.script default none "" block { document := {} }).2.js =
        ["log(a) /* \x7d */ + \"\x7d\""] := by
  intro source ref
  have facts : (TokenStream.ofSource source).toOption.map (fun stream =>
      let input := ParseInput.ofTokens source stream.tokens {}
      ((valueOf? (scriptBlock input {})).map ScriptBlock.parts,
        (input.closingBrace? 0 1).bind fun close =>
          slice? source.toList (input.token 1).span.stop (input.token close).span.start)) =
      some (some [.code " ", .var ref, .code " /* \x7d */ + \"\x7d\" "],
        some " log(a) /* \x7d */ + \"\x7d\" ") := by
    decide +kernel
  obtain ⟨stream, tokens, same⟩ := Option.map_eq_some_iff.1 facts
  obtain ⟨read, between⟩ := Prod.mk.inj same
  obtain ⟨block, ended, parts⟩ := Option.map_eq_some_iff.1 read
  obtain ⟨close, closing, slice⟩ := Option.bind_eq_some_iff.1 between
  have tokenizes := TokenStream.ofSource_of_toOption tokens
  obtain ⟨s', run⟩ := eq_ok_of_valueOf? ended
  refine ⟨stream, block, s', tokenizes, run, parts, ?_⟩
  obtain ⟨close', _, _, text, closing', -, slice', -, -, -, written⟩ :=
    scriptBlock_verbatim tokenizes {} run
  cases closing.symm.trans closing'
  cases slice.symm.trans slice'
  rw [written { document := {} } default none "" ?_]
  · decide +kernel
  · rw [parts]
    have unknown : ScriptPart.IsInert {} (.var ref) := by
      unfold ScriptPart.IsInert
      decide +kernel
    simpa [ScriptPart.IsInert] using unknown

end Parse

end TemplateMarkup
