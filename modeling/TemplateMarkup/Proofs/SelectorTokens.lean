import TemplateMarkup.Proofs.OriginSites
import TemplateMarkup.Proofs.SourcePieces

/-! The tokens of a selector. Tokens that a selector keeps by name start with their marks, so each
token shows its own text, after a space where it does not follow right behind the one before. -/
namespace TemplateMarkup

/-- The mark in front of the name in a token of a selector. -/
def TokenKind.mark? : TokenKind → Option Char
  | .classSelector => some '.'
  | .idSelector => some '#'
  | .contextRef => some '&'
  | _ => none

namespace Lexeme

/-- What the first character of a lexeme tells of it: a marked token starts with its mark, and
text that no rule takes does not start with white space. -/
structure Opens (c : Char) (lexeme : Lexeme) : Prop where
  mark : ∀ kind mark, lexeme = .token kind → kind.mark? = some mark → c = mark
  unknown : lexeme = .unknown → isSkipped c = false

section Opening

variable {c : Char}

variable {kind : TokenKind}

private theorem Opens.ofToken (plain : kind.mark? = none) : Opens c (.token kind) where
  mark kind' mark same marked := by
    cases same
    rw [plain] at marked
    cases marked
  unknown := by simp

private theorem Opens.ofMark (marked : kind.mark? = some c) : Opens c (.token kind) where
  mark kind' mark same marked' := by
    cases same
    exact Option.some.inj (marked.symm.trans marked')
  unknown := by simp

private theorem Opens.ofOther {lexeme : Lexeme} (token : ∀ kind, lexeme ≠ .token kind)
    (unknown : lexeme ≠ .unknown) : Opens c lexeme where
  mark kind _ same := absurd same (token kind)
  unknown same := absurd same unknown

private theorem opens_identifier (word : String) : Opens c (identifier word) := by
  unfold identifier
  split <;> exact .ofToken rfl

variable {cs : List Char}

private theorem opens_bracket (visible : isSkipped c = false) : Opens c (bracket cs).1 := by
  fun_cases bracket cs with
  | case1 | case2 | case3 | case5 => exact .ofToken rfl
  | case4 => exact .ofOther (by simp) (by simp)
  | case6 => exact ⟨by simp, fun _ => visible⟩

private theorem opens_markedName {named alone : TokenKind} {part : Char → Bool}
    (marked : named.mark? = some c) (plain : alone.mark? = none) :
    Opens c (markedName named alone part cs).1 := by
  unfold markedName
  dsimp only
  split
  · exact .ofToken plain
  · exact .ofMark marked

private theorem mark?_of_punctuation (h : punctuation? c = some kind) : kind.mark? = none := by
  unfold punctuation? at h
  repeat' split at h
  all_goals
    simp only [Option.some.injEq, reduceCtorEq] at h
    try subst h
    try rfl

theorem opens_of_first {lexeme : Lexeme} {n : Nat} (h : first c cs = (lexeme, n)) :
    Opens c lexeme := by
  suffices opens : Opens c (first c cs).1 by rwa [h] at opens
  clear h
  have visible (h : ¬isSkipped c) : isSkipped c = false := by simpa using h
  fun_cases first c cs with
  | case1 | case3 => exact opens_identifier _
  | case2 | case6 | case9 | case11 => exact .ofOther (by simp) (by simp)
  | case4 | case5 | case7 | case8 | case10 | case12 | case14 | case15 => exact .ofToken rfl
  | case13 _ seen => exact opens_bracket (visible seen)
  | case16 | case17 => exact opens_markedName (by subst c; rfl) rfl
  | case18 => exact .ofMark (by subst c; rfl)
  | case19 _ _ _ _ _ _ _ _ _ _ _ _ kind mark => exact .ofToken (mark?_of_punctuation mark)
  | case20 _ seen => exact ⟨by simp, fun _ => visible seen⟩

end Opening

end Lexeme

/-- A token of a marked kind starts with its mark. -/
def Token.Marked (token : Token) : Prop :=
  ∀ mark, token.kind.mark? = some mark → ∃ name, token.text.toList = mark :: name

/-- A token that says what stands in the source, with its mark. -/
structure Token.Spelled (source : List Char) (token : Token) : Prop where
  marked : token.Marked
  text : SourceText.slice? source token.span.start token.span.stop = some token.text

/-- Some character of a skipped text is not white space. -/
def SkippedText.Visible (skipped : SkippedText) : Prop :=
  ∃ c ∈ skipped.text.toList, Lexeme.isSkipped c = false

namespace TokenStream

/-- What reading keeps to: marked tokens start with their marks, and no skipped text is white
space. -/
structure Progress.Opened (p : Progress) : Prop where
  marked : ∀ token ∈ p.tokens, token.Marked
  visible : ∀ skipped ∈ p.skipped, skipped.Visible

section Reading

variable {p : Progress} {text : List Char}

theorem Progress.Opened.pass (h : p.Opened) : (p.pass text).Opened :=
  ⟨h.marked, h.visible⟩

theorem Progress.Opened.skip (h : p.Opened) {c : Char} (visible : Lexeme.isSkipped c = false) :
    (p.skip (c :: text)).Opened where
  marked := h.marked
  visible skipped member := by
    rcases List.mem_cons.1 member with rfl | member
    · exact ⟨c, by simp, visible⟩
    · exact h.visible skipped member

theorem Progress.Opened.push (h : p.Opened) {kind : TokenKind}
    (mark : ∀ mark, kind.mark? = some mark → ∃ name, text = mark :: name) :
    (p.push kind text).Opened where
  marked token member := by
    rcases List.mem_cons.1 member with rfl | member
    · intro c marked
      rw [String.toList_ofList]
      exact mark c marked
    · exact h.marked token member
  visible := h.visible

theorem Progress.Opened.pushPlain (h : p.Opened) {kind : TokenKind} (plain : kind.mark? = none) :
    (p.push kind text).Opened := by
  refine h.push fun mark marked => ?_
  rw [plain] at marked
  cases marked

theorem opened_of_read {cs : List Char} {p' : Progress} (h : p.Opened)
    (run : read cs p = .ok p') : p'.Opened := by
  fun_induction read cs p generalizing p'
  case case1 =>
    cases run
    exact h
  case case2 ih => exact ih h.pass run
  case case3 lexeme ih => exact ih (h.skip ((Lexeme.opens_of_first lexeme).unknown rfl)) run
  case case4 | case6 => cases run
  case case5 ih | case9 ih | case10 ih => exact ih (h.pushPlain rfl) run
  case case7 inner _ ihLine ih =>
    exact ih (ihLine ((h.pushPlain rfl).pushPlain rfl) inner) run
  case case8 ih => exact ih (((h.pushPlain rfl).pushPlain rfl).pushPlain rfl) run
  case case11 kind _ lexeme ih =>
    refine ih (h.push fun mark marked => ?_) run
    obtain rfl := (Lexeme.opens_of_first lexeme).mark kind mark rfl marked
    exact ⟨_, rfl⟩

end Reading

theorem opened_ofSource {source : String} {stream : TokenStream}
    (tokenizes : ofSource source = .ok stream) :
    (∀ token ∈ stream.tokens, token.Marked) ∧ ∀ skipped ∈ stream.skipped, skipped.Visible := by
  obtain ⟨p, run, rfl⟩ := exists_read tokenizes
  have opened : (p.push .eof []).Opened :=
    (opened_of_read ⟨by simp, by simp⟩ run).pushPlain rfl
  exact ⟨fun token member => opened.marked token (List.mem_reverse.1 member),
    fun skipped member => opened.visible skipped (List.mem_reverse.1 member)⟩

end TokenStream

namespace Selector

/-- The parts of a selector side by side, with what its ends are trimmed of. -/
def joined (selector : Selector) : String := String.join (selector.parts.map (partText none))

theorem joined_push (selector : Selector) (part : SelectorPart) :
    (selector.push part).joined = selector.joined ++ partText none part := by
  have parts (parts : List SelectorPart) :
      String.join ((appendPart part parts).map (partText none)) =
        String.join (parts.map (partText none)) ++ partText none part := by
    fun_induction appendPart part parts with
    | case1 => simp
    | case2 last text same => simp [same, partText]
    | case3 last part => simp [partText]
    | case4 first rest _ ih => simp [ih, String.append_assoc]
  exact parts selector.parts

theorem toText_eq (selector : Selector) : selector.toText = Text.trim selector.joined := rfl

end Selector

/-- The texts of tokens that follow a token, each after a space unless it starts where the one
before it ends. -/
def Token.spaced (previous : Token) : List Token → String
  | [] => ""
  | token :: rest =>
    (if token.span.start = previous.span.stop then "" else " ") ++ token.text ++
      spaced token rest

namespace Parse

section Steps

variable {input : ParseInput} {s s' : ParseState} {start : Nat} {acc result : Selector}

/-- Past a token other than the end of the source there is another one. -/
theorem lt_of_more (laid : input.Laid) {i : Nat} (more : (input.token i).kind ≠ .eof) :
    i + 1 < input.tokens.size := by
  refine Classical.byContradiction fun past => more ?_
  rcases Nat.lt_or_ge i input.tokens.size with inside | outside
  · obtain rfl : i = input.tokens.size - 1 := by omega
    exact laid.ends
  · rw [ParseInput.token_of_size_le outside]
    exact laid.ends

theorem advance_eq_ok (more : s.cursor + 1 < input.tokens.size) :
    advance input s = .ok (input.token s.cursor) { s with cursor := s.cursor + 1 } := by
  rw [advance_apply, if_pos (by omega)]

/-- A part of a selector shows the token that it is made of. -/
theorem selectorPart_apply (laid : input.Laid)
    (spelled : ∀ token ∈ input.tokens, token.Spelled input.source)
    (more : s.cursor + 1 < input.tokens.size) :
    ∃ part, selectorPart input s = .ok part { s with cursor := s.cursor + 1 } ∧
      Selector.partText none part = (input.token s.cursor).text := by
  obtain ⟨marked, text⟩ := spelled _ (ParseInput.token_mem (show s.cursor < _ by omega))
  have tail (mark : Char) (h : (input.token s.cursor).kind.mark? = some mark) :
      String.singleton mark ++ (input.token s.cursor).tailText = (input.token s.cursor).text := by
    obtain ⟨name, text⟩ := marked mark h
    rw [← String.toList_inj, Token.tailText, text]
    simp
  unfold selectorPart
  rw [bind_ok (advance_eq_ok more)]
  generalize kind : (input.token s.cursor).kind = found
  split
  · next kind =>
    refine ⟨_, rfl, ?_⟩
    simpa [Selector.partText, Token.selectorName, kind] using tail '.' (by rw [kind]; rfl)
  · next kind =>
    refine ⟨_, rfl, ?_⟩
    simpa [Selector.partText, Token.selectorName, kind] using tail '#' (by rw [kind]; rfl)
  · next kind =>
    refine ⟨_, rfl, ?_⟩
    simpa [Selector.partText] using tail '&' (by rw [kind]; rfl)
  · have same := spanning_apply laid { s with cursor := s.cursor + 1 } (Nat.le_refl s.cursor)
      (by omega)
    rw [SourceText.segment, text] at same
    rw [bind_ok (cursor_apply ..)]
    dsimp only
    rw [Nat.add_sub_cancel, bind_ok same]
    exact ⟨_, rfl, rfl⟩
  · exact ⟨_, rfl, rfl⟩

theorem kind_of_expect {kind : TokenKind} {what : String} {token : Token}
    (run : expect kind what input s = .ok token s') : (input.token s.cursor).kind = kind := by
  unfold expect at run
  rw [bind_ok (check_apply ..)] at run
  rw [ite_apply] at run
  split at run
  · next same => exact beq_iff_eq.1 same
  · obtain ⟨e, failed⟩ := unexpected_apply (α := Token) input s what
    rw [failed] at run
    cases run

/-- A selector goes no further than a brace or the end. -/
def endsSelector (kind : TokenKind) : Bool := kind == .leftBrace || kind == .eof

theorem selectorStep_ends (h : endsSelector (input.token s.cursor).kind = true) :
    selectorStep start acc input s = .ok none s := by
  unfold endsSelector at h
  simp only [selectorStep, atEnd, bind_apply, check_apply, h, if_true, pure_apply]

variable (laid : input.Laid) (spelled : ∀ token ∈ input.tokens, token.Spelled input.source)
include laid spelled

theorem selectorStep_token (start : Nat) (acc : Selector)
    (h : endsSelector (input.token s.cursor).kind = false) :
    s.cursor + 1 < input.tokens.size ∧ ∃ part,
      selectorStep start acc input s = .ok (some
        ((if s.cursor > start && !input.adjacent s.cursor then acc.push (.raw " ") else acc).push
          part)) { s with cursor := s.cursor + 1 } ∧
      Selector.partText none part = (input.token s.cursor).text := by
  have more : s.cursor + 1 < input.tokens.size := by
    refine lt_of_more laid fun eof => ?_
    rw [eof] at h
    cases h
  obtain ⟨part, run, shown⟩ := selectorPart_apply laid spelled more
  refine ⟨more, part, ?_, shown⟩
  unfold endsSelector at h
  simp only [selectorStep, atEnd, bind_apply, check_apply, h, ite_apply, Bool.false_eq_true,
    if_false, cursor_apply, adjacentHere, read_apply, pure_apply, run]

/-- From its second token on a selector takes all tokens up to the first that ends it. -/
theorem loop_spaced (inside : s.cursor < input.tokens.size) (later : start < s.cursor)
    (run : loop (selectorStep start) acc input s = .ok result s') :
    ∃ taken, input.tokens.toList.drop s.cursor = taken ++ input.tokens.toList.drop s'.cursor ∧
      s'.cursor < input.tokens.size ∧ (∀ token ∈ taken, endsSelector token.kind = false) ∧
      result.joined = acc.joined ++ (input.token (s.cursor - 1)).spaced taken := by
  fun_induction loop (selectorStep start) acc input s
  case case1 => cases run
  case case2 acc s s₁ step =>
    cases run
    cases ends : endsSelector (input.token s.cursor).kind with
    | true =>
      rw [selectorStep_ends ends] at step
      cases step
      exact ⟨[], rfl, inside, by simp, by simp [Token.spaced]⟩
    | false =>
      obtain ⟨-, part, same, -⟩ := selectorStep_token laid spelled start result ends
      rw [same] at step
      cases step
  case case3 acc s acc₁ s₁ step advances ih =>
    cases ends : endsSelector (input.token s.cursor).kind with
    | true =>
      rw [selectorStep_ends ends] at step
      cases step
    | false =>
      obtain ⟨more, part, same, shown⟩ := selectorStep_token laid spelled start acc ends
      rw [same] at step
      cases step
      obtain ⟨taken, rest, bound, plain, text⟩ := ih more (by dsimp only; omega) run
      refine ⟨input.token s.cursor :: taken, ?_, bound, ?_, ?_⟩
      · rw [ParseInput.drop_eq inside, rest]
        rfl
      · simpa [ends] using plain
      · have apart := adjacent_iff (Nat.lt_of_le_of_lt (Nat.zero_le _) later) inside
        rw [text, Selector.joined_push, shown, Token.spaced]
        by_cases next : (input.token s.cursor).span.start = (input.token (s.cursor - 1)).span.stop
        · simp [apart.2 next, next, String.append_assoc]
        · have gap : input.adjacent s.cursor = false := by simpa using mt apart.1 next
          simp [gap, next, later, Selector.joined_push, Selector.partText, String.append_assoc]
  case case4 acc s acc₁ s₁ step stands =>
    cases ends : endsSelector (input.token s.cursor).kind with
    | true =>
      rw [selectorStep_ends ends] at step
      cases step
    | false =>
      obtain ⟨-, part, same, -⟩ := selectorStep_token laid spelled start acc ends
      rw [same] at step
      cases step
      exact absurd ⟨by simp, inside⟩ stands

/-- A selector takes at least one token, and all up to the first that ends it. -/
theorem selector_spaced (run : selector input s = .ok result s') :
    ∃ first rest, input.tokens.toList.drop s.cursor =
        first :: (rest ++ input.tokens.toList.drop s'.cursor) ∧
      s'.cursor < input.tokens.size ∧ (∀ token ∈ first :: rest, endsSelector token.kind = false) ∧
      result.joined = first.text ++ first.spaced rest := by
  obtain ⟨_, _, standing, run⟩ := bind_eq_ok run
  cases standing
  obtain ⟨taken, s₁, read, run⟩ := bind_eq_ok run
  obtain ⟨_, _, standing, run⟩ := bind_eq_ok run
  cases standing
  rw [ite_apply] at run
  split at run
  · obtain ⟨e, fails⟩ := unexpected_apply (α := Selector) input s₁ "a selector"
    rw [fails] at run
    cases run
  next moved =>
  cases run
  cases ends : endsSelector (input.token s.cursor).kind with
  | true =>
    rw [loop, selectorStep_ends ends] at read
    cases read
    simp at moved
  | false =>
    obtain ⟨more, part, step, shown⟩ := selectorStep_token laid spelled s.cursor {} ends
    have inside : s.cursor < input.tokens.size := by omega
    rw [loop, step] at read
    simp only [Nat.lt_succ_self, inside, and_self, if_true] at read
    obtain ⟨rest, behind, bound, plain, text⟩ :=
      loop_spaced laid spelled more (Nat.lt_succ_self _) read
    refine ⟨input.token s.cursor, rest, ?_, bound, by simpa [ends] using plain, ?_⟩
    · rw [ParseInput.drop_eq inside, ← behind]
    · have empty : ({} : Selector).joined = "" := rfl
      rw [text]
      simp [Selector.joined_push, shown, empty]

/-- The tokens of the selector of a rule, and the brace behind them. -/
theorem styleRule_spaced {items : List StyleItem}
    (run : styleRule input s = .ok (.rule result items) s') :
    ∃ first rest brace after, input.tokens.toList.drop s.cursor =
        first :: (rest ++ brace :: after) ∧
      brace.kind = .leftBrace ∧ (∀ token ∈ first :: rest, endsSelector token.kind = false) ∧
      result.joined = first.text ++ first.spaced rest := by
  obtain ⟨taken, s₁, read, run⟩ := bind_eq_ok run
  obtain ⟨brace, s₂, opened, run⟩ := bind_eq_ok run
  obtain ⟨_, s₃, _, run⟩ := bind_eq_ok run
  obtain ⟨_, s₄, _, run⟩ := bind_eq_ok run
  cases run
  obtain ⟨first, rest, tokens, bound, plain, text⟩ := selector_spaced laid spelled read
  rw [ParseInput.drop_eq bound] at tokens
  exact ⟨first, rest, _, _, tokens, kind_of_expect opened, plain, text⟩

end Steps

end Parse

end TemplateMarkup
