import TemplateMarkup.Proofs.SourcePieces

/-! How reading goes on behind an opening brace: with the body of an origin block, or with the
next token. -/
namespace TemplateMarkup.TokenStream
open SourceText

variable {depth k : Nat} {cs : List Char}

/-- A body that is closed within a text is the same whatever follows. -/
theorem bodyLength?_within {ds : List Char} (found : bodyLength? depth (cs ++ ds) = some k)
    (lt : k < cs.length) (es : List Char) : bodyLength? depth (cs ++ es) = some k := by
  induction cs generalizing depth k with
  | nil => cases lt
  | cons c cs ih =>
    have inner {depth : Nat} (found : (bodyLength? depth (cs ++ ds)).map (· + 1) = some k) :
        (bodyLength? depth (cs ++ es)).map (· + 1) = some k := by
      obtain ⟨j, there, rfl⟩ := Option.map_eq_some_iff.1 found
      rw [ih there (Nat.lt_of_succ_lt_succ lt)]
      rfl
    rw [List.cons_append] at found ⊢
    unfold bodyLength? at found ⊢
    split at found
    · rw [if_pos ‹_›]
      exact inner found
    · rw [if_neg ‹_›]
      split at found
      · rw [if_pos ‹_›]
        cases depth with
        | zero => exact found
        | succ depth => exact inner found
      · rw [if_neg ‹_›]
        exact inner found

theorem bodyLength?_lt (found : bodyLength? depth cs = some k) : k < cs.length := by
  obtain ⟨rest, closes⟩ := bodyLength?_closes found
  have := congrArg List.length closes
  simp only [List.length_drop, List.length_cons] at this
  omega

theorem bodyLength?_append (more : List Char) (found : bodyLength? depth cs = some k) :
    bodyLength? depth (cs ++ more) = some k := by
  have lt := bodyLength?_lt found
  rw [← List.append_nil cs] at found
  exact bodyLength?_within found lt more

/-- Two hyphens next to each other on a line. -/
def isDashes (line : Nat) (a b : Token) : Bool :=
  a.kind == .symbol '-' && b.kind == .symbol '-' && a.span.stop == b.span.start &&
    b.span.line == line

/-- Some hyphens next to each other are among the tokens of a line. -/
def dashed (line : Nat) : List Token → Bool
  | a :: b :: rest => isDashes line a b || dashed line (b :: rest)
  | _ => false

/-- What is read of the text behind some tokens: all of it, or the rest of the line if two hyphens
stand on it. -/
def reach (line : Nat) (tokens : List Token) (rest : List Char) : List Char :=
  if dashed line tokens then rest.takeWhile (· ≠ '\n') else rest

/-- A brace behind the tokens opens the body of an origin block. -/
def opensBody (tokens : List Token) : Bool := Progress.opensOrigin { tokens := tokens.reverse }

theorem opensBody_reverse (p : Progress) : opensBody p.tokens.reverse = p.opensOrigin := by
  rw [opensBody, List.reverse_reverse]
  rfl

/-- The token that a text here becomes. -/
def Progress.token (p : Progress) (kind : TokenKind) (text : List Char) : Token :=
  { kind, text := String.ofList text, span := p.place.spanOf text }

theorem Progress.reverse_push (p : Progress) (kind : TokenKind) (text : List Char) :
    (p.push kind text).tokens.reverse = p.tokens.reverse ++ [p.token kind text] :=
  List.reverse_cons

theorem Progress.line_token (p : Progress) (kind : TokenKind) (text : List Char) :
    (p.token kind text).span.line = p.place.line := rfl

section Dashes

variable {line : Nat} {tokens : List Token} {token : Token}

theorem dashed_concat : dashed line (tokens ++ [token]) =
    (dashed line tokens || tokens.getLast?.any fun last => isDashes line last token) := by
  induction tokens with
  | nil => rfl
  | cons a tokens ih =>
    cases tokens with
    | nil => simp [dashed]
    | cons b tokens =>
      simp only [List.cons_append] at ih
      simp [dashed, ih, Bool.or_assoc]

theorem dashed_append (more : List Token) (h : dashed line tokens = true) :
    dashed line (tokens ++ more) = true := by
  fun_induction dashed line tokens with
  | case1 a b rest ih =>
    rw [Bool.or_eq_true] at h
    simp only [List.cons_append, dashed, Bool.or_eq_true]
    exact h.imp_right ih
  | case2 => cases h

theorem exists_of_dashed (h : dashed line tokens = true) : ∃ token ∈ tokens,
    token.span.line = line := by
  fun_induction dashed line tokens with
  | case1 a b rest ih =>
    rw [Bool.or_eq_true] at h
    rcases h with here | later
    · simp only [isDashes, Bool.and_eq_true, beq_iff_eq] at here
      exact ⟨b, by simp, here.2⟩
    · obtain ⟨token, member, same⟩ := ih later
      exact ⟨token, List.mem_cons_of_mem a member, same⟩
  | case2 => cases h

end Dashes

/-- What has been read when `front` stands before the place. -/
structure Located (front : List Char) (p : Progress) : Prop where
  follows : p.place.Follows front
  earlier : ∀ token ∈ p.tokens,
    token.span.line ≤ p.place.line ∧ token.span.stop ≤ p.place.offset

section Located

variable {front text : List Char} {p : Progress}

theorem Located.pass (h : Located front p) (text : List Char) :
    Located (front ++ text) (p.pass text) := by
  have next := h.follows.after text
  refine ⟨next, fun token member => ?_⟩
  have bounds := h.earlier token member
  rw [h.follows.line, h.follows.offset] at bounds
  have line := next.line
  have offset := next.offset
  rw [List.count_append] at line
  rw [byteLength_append] at offset
  simp only [Progress.pass]
  omega

theorem Located.skip (h : Located front p) (text : List Char) :
    Located (front ++ text) (p.skip text) :=
  ⟨(h.pass text).follows, (h.pass text).earlier⟩

theorem Located.push (h : Located front p) (kind : TokenKind) (text : List Char) :
    Located (front ++ text) (p.push kind text) := by
  refine ⟨h.follows.after text, fun token member => ?_⟩
  rcases List.mem_cons.1 member with rfl | member
  · refine ⟨?_, Nat.le_refl _⟩
    have line := (h.follows.after text).line
    rw [List.count_append] at line
    simp only [Progress.push, Place.spanOf, line, h.follows.line]
    omega
  · exact (h.pass text).earlier token member

theorem Located.reads {cs : List Char} {p' : Progress} (run : Reads cs p p')
    (h : Located front p) : Located (front ++ cs) p' := by
  induction run generalizing front with
  | done p => rwa [List.append_nil]
  | pass blank _ ih =>
    rw [← List.append_assoc]
    exact ih (h.pass _)
  | skip _ ih =>
    rw [← List.append_assoc]
    exact ih (h.skip _)
  | push kind _ _ _ ih =>
    rw [← List.append_assoc]
    exact ih (h.push kind _)

/-- Hyphens on the line that a text leads to are on the line on which it starts, and the text does
not end the line. -/
theorem Located.same_line (h : Located front p)
    (hyphens : dashed (p.place.after text).line p.tokens.reverse = true) :
    '\n' ∉ text ∧ dashed p.place.line p.tokens.reverse = true := by
  obtain ⟨token, member, same⟩ := exists_of_dashed hyphens
  have bound := (h.earlier token (List.mem_reverse.1 member)).1
  have line := (h.follows.after text).line
  rw [List.count_append, ← Nat.add_assoc, ← h.follows.line] at line
  have none : text.count '\n' = 0 := by omega
  refine ⟨List.count_eq_zero.1 none, ?_⟩
  rwa [line, none] at hyphens

theorem Located.line_after (h : Located front p) (oneLine : '\n' ∉ text) :
    (p.place.after text).line = p.place.line := by
  rw [(h.follows.after text).line, List.count_append, List.count_eq_zero.2 oneLine,
    h.follows.line]
  rfl

end Located

/-- All that is left is being read. Behind two hyphens, the line is at its end. -/
structure ReadsAll (cs : List Char) (p : Progress) : Prop where
  ends : dashed p.place.line p.tokens.reverse = true → ∀ c ∈ cs.head?, c = '\n'
  alone : ∀ last ∈ p.tokens.head?, last.kind = .symbol '-' → last.span.stop = p.place.offset →
    ∀ c ∈ cs.head?, c ≠ '-'

/-- The rest of a line behind two hyphens is being read, and `more` is left behind it. -/
structure ReadsLine (cs more : List Char) (p : Progress) : Prop where
  hyphens : dashed p.place.line p.tokens.reverse = true
  oneLine : '\n' ∉ cs
  ends : ∀ c ∈ more.head?, c = '\n'

section Modes

variable {front text cs more : List Char} {p : Progress}

theorem ReadsAll.pass (reads : ReadsAll (text ++ cs) p) (h : Located front p) :
    ReadsAll cs (p.pass text) := by
  cases text with
  | nil => exact reads
  | cons c text =>
    refine ⟨fun hyphens => ?_, fun last top _ stop => ?_⟩
    · obtain ⟨oneLine, earlier⟩ := h.same_line hyphens
      have feed : c = '\n' := reads.ends earlier c rfl
      simp [feed] at oneLine
    · have bound := (h.earlier last (List.mem_of_mem_head? top)).2
      have offset := Place.after_offset p.place (c :: text)
      have size := c.utf8Size_pos
      rw [byteLength_cons] at offset
      simp only [Progress.pass] at stop
      omega

theorem ReadsLine.pass (reads : ReadsLine (text ++ cs) more p) (h : Located front p) :
    ReadsLine cs more (p.pass text) := by
  have oneLine := reads.oneLine
  rw [List.mem_append, not_or] at oneLine
  refine ⟨?_, oneLine.2, reads.ends⟩
  simpa only [Progress.pass, h.line_after oneLine.1] using reads.hyphens

theorem ReadsAll.push (reads : ReadsAll (text ++ cs) p) (h : Located front p) (kind : TokenKind)
    (hyphen : kind = .symbol '-' → text.head? = some '-' ∧ ∀ c ∈ cs.head?, c ≠ '-') :
    ReadsAll cs (p.push kind text) := by
  refine ⟨fun hyphens => ?_, fun last top symbol _ => ?_⟩
  · simp only [Progress.push, List.reverse_cons, dashed_concat, Bool.or_eq_true] at hyphens
    rcases hyphens with earlier | pair
    · exact (reads.pass h).ends earlier
    · obtain ⟨last, top, pair⟩ := (Option.any_eq_true _ _).1 pair
      simp only [isDashes, Bool.and_eq_true, beq_iff_eq] at pair
      obtain ⟨⟨⟨hl, hk⟩, stop⟩, -⟩ := pair
      rw [List.getLast?_reverse] at top
      obtain ⟨rest, rfl⟩ := List.head?_eq_some_iff.1 (hyphen hk).1
      exact absurd rfl (reads.alone last top hl stop '-' rfl)
  · cases top
    exact (hyphen symbol).2

theorem ReadsLine.push (reads : ReadsLine (text ++ cs) more p) (h : Located front p)
    (kind : TokenKind) : ReadsLine cs more (p.push kind text) := by
  have passed := reads.pass h
  refine ⟨?_, passed.oneLine, passed.ends⟩
  simp only [Progress.push, List.reverse_cons]
  exact dashed_append _ passed.hyphens

end Modes

/-- The mode of reading. -/
def Mode (cs more : List Char) (p : Progress) : Prop :=
  more = [] ∧ ReadsAll cs p ∨ ReadsLine cs more p

section Modes

variable {front text cs more : List Char} {p : Progress}

theorem Mode.pass (mode : Mode (text ++ cs) more p) (h : Located front p) :
    Mode cs more (p.pass text) :=
  mode.imp (fun all => ⟨all.1, all.2.pass h⟩) fun line => line.pass h

theorem Mode.skip (mode : Mode (text ++ cs) more p) (h : Located front p) :
    Mode cs more (p.skip text) :=
  (mode.pass h).imp (fun all => ⟨all.1, all.2.ends, all.2.alone⟩)
    fun line => ⟨line.hyphens, line.oneLine, line.ends⟩

theorem Mode.push (mode : Mode (text ++ cs) more p) (h : Located front p) (kind : TokenKind)
    (hyphen : kind = .symbol '-' → text.head? = some '-' ∧ ∀ c ∈ cs.head?, c ≠ '-') :
    Mode cs more (p.push kind text) :=
  mode.imp (fun all => ⟨all.1, all.2.push h kind hyphen⟩) fun line => line.push h kind

/-- The text that is being read is what is read behind the tokens, before something other than the
end of a line. -/
theorem Mode.reach_eq {c : Char} (mode : Mode (c :: cs) more p) (other : c ≠ '\n') :
    reach p.place.line p.tokens.reverse (cs ++ more) = cs := by
  rcases mode with ⟨rfl, all⟩ | line
  · have none : dashed p.place.line p.tokens.reverse = false :=
      Bool.eq_false_iff.2 fun hyphens => other (all.ends hyphens c rfl)
    simp [reach, none]
  · have oneLine : ∀ x ∈ cs, decide (x ≠ '\n') = true := by
      intro x member
      have := line.oneLine
      grind
    have stops : more.takeWhile (fun x => decide (x ≠ '\n')) = [] := by
      cases more with
      | nil => rfl
      | cons x more => simp [line.ends x rfl]
    rw [reach, if_pos line.hyphens, List.takeWhile_append_of_pos oneLine, stops, List.append_nil]

end Modes

/-- The first of the tokens is not foreign text. -/
def StartsPlain (tokens : List Token) : Prop := ∀ token ∈ tokens.head?, token.kind ≠ .rawText

/-- How reading goes on behind an opening brace, when `tokens` and `before` stand before it, and
`back` and `rest` behind. -/
structure Opens (before rest : List Char) (tokens : List Token) (opening : Token)
    (back : List Token) : Prop where
  start : opening.span.start = byteLength before
  stop : opening.span.stop = byteLength before + 1
  raw : ∀ n, opensBody tokens = true →
    bodyLength? 0 (reach opening.span.line tokens rest) = some n →
    ∃ raw closing behind, back = raw :: closing :: behind ∧ raw.kind = .rawText ∧
      closing.kind = .rightBrace ∧
      closing.span.start = opening.span.stop + byteLength (rest.take n)
  plain : (opensBody tokens = true → bodyLength? 0 (reach opening.span.line tokens rest) = none) →
    StartsPlain back

/-- Some tokens have been read behind others, each brace among them as it has to be. -/
structure Braced (source : List Char) (tokens added : List Token) : Prop where
  plain : StartsPlain added
  opens : ∀ mid opening back, added = mid ++ opening :: back → opening.kind = .leftBrace →
    ∃ before rest, source = before ++ '\x7b' :: rest ∧
      Opens before rest (tokens ++ mid) opening back

section Braced

variable {source : List Char} {tokens added more : List Token}

theorem StartsPlain.append (first : StartsPlain added) (second : StartsPlain more) :
    StartsPlain (added ++ more) := by
  cases added with
  | nil => exact second
  | cons token added => exact first

theorem Opens.append {before rest : List Char} {opening : Token} {back : List Token}
    (h : Opens before rest tokens opening back) (plain : StartsPlain more) :
    Opens before rest tokens opening (back ++ more) where
  start := h.start
  stop := h.stop
  raw n opens found := by
    obtain ⟨raw, closing, behind, rfl, kinds⟩ := h.raw n opens found
    exact ⟨raw, closing, behind ++ more, by simp, kinds⟩
  plain none := (h.plain none).append plain

theorem braced_nil : Braced source tokens [] := by
  constructor
  · simp [StartsPlain]
  · simp

theorem braced_other {token : Token} (brace : token.kind ≠ .leftBrace)
    (raw : token.kind ≠ .rawText) : Braced source tokens [token] := by
  constructor
  · simpa [StartsPlain] using raw
  · intro mid opening back split kind
    cases mid with
    | nil =>
      cases split
      exact absurd kind brace
    | cons first mid => simp at split

theorem braced_opening {opening : Token} {before rest : List Char}
    (split : source = before ++ '\x7b' :: rest) (kind : opening.kind = .leftBrace)
    (opens : Opens before rest tokens opening added) (others : ∀ token ∈ added,
      token.kind ≠ .leftBrace) : Braced source tokens (opening :: added) := by
  constructor
  · simp [StartsPlain, kind]
  · intro mid other back cut brace
    cases mid with
    | nil =>
      cases cut
      exact ⟨before, rest, split, by simpa using opens⟩
    | cons first mid =>
      obtain ⟨-, rfl⟩ := List.cons.inj cut
      exact absurd brace (others other (by simp))

theorem Braced.append (first : Braced source tokens added)
    (second : Braced source (tokens ++ added) more) : Braced source tokens (added ++ more) where
  plain := first.plain.append second.plain
  opens := by
    intro mid opening back split kind
    rcases List.append_eq_append_iff.1 split with ⟨late, rfl, later⟩ | ⟨early, rfl, earlier⟩
    · obtain ⟨before, rest, cut, opens⟩ := second.opens late opening back later kind
      exact ⟨before, rest, cut, by rwa [← List.append_assoc]⟩
    · cases early with
      | nil =>
        obtain ⟨before, rest, cut, opens⟩ := second.opens [] opening back earlier.symm kind
        exact ⟨before, rest, cut, by simpa using opens⟩
      | cons first early =>
        obtain ⟨rfl, rfl⟩ := List.cons.inj earlier
        obtain ⟨before, rest, cut, opens⟩ := first.opens mid opening early rfl kind
        exact ⟨before, rest, cut, opens.append second.plain⟩

end Braced

/-- Reading leads from one progress to another, with each brace read as it has to be. -/
def Goes (source : List Char) (p p' : Progress) : Prop :=
  ∃ added, p'.tokens.reverse = p.tokens.reverse ++ added ∧ Braced source p.tokens.reverse added

section Goes

variable {source front cs more text : List Char} {p middle p' : Progress}

theorem Goes.trans (first : Goes source p middle) (second : Goes source middle p') :
    Goes source p p' := by
  obtain ⟨added, tokens, braced⟩ := first
  obtain ⟨later, tokens', braced'⟩ := second
  rw [tokens] at braced'
  exact ⟨added ++ later, by rw [tokens', tokens, List.append_assoc], braced.append braced'⟩

theorem goes_same (same : p'.tokens = p.tokens) : Goes source p p' :=
  ⟨[], by simp [same], braced_nil⟩

theorem goes_push {kind : TokenKind} (brace : kind ≠ .leftBrace) (raw : kind ≠ .rawText) :
    Goes source p (p.push kind text) :=
  ⟨_, p.reverse_push kind text, braced_other brace raw⟩

theorem Goes.dashed (goes : Goes source p p') {line : Nat}
    (hyphens : dashed line p.tokens.reverse = true) : dashed line p'.tokens.reverse = true := by
  obtain ⟨added, tokens, -⟩ := goes
  rw [tokens]
  exact dashed_append added hyphens

variable (h : Located front p) (split : source = front ++ '\x7b' :: (cs ++ more))
  (mode : Mode ('\x7b' :: cs) more p)
include h split mode

/-- A brace whose body is not found, or not looked for. -/
theorem goes_brace (none : p.opensOrigin = true → bodyLength? 0 cs = none) :
    Goes source p (p.push .leftBrace ['\x7b']) := by
  refine ⟨_, p.reverse_push _ _, braced_opening split rfl ?_ (by simp)⟩
  refine ⟨h.follows.offset, ?_, fun n opens found => ?_, fun _ => by simp [StartsPlain]⟩
  · rw [← h.follows.offset]
    exact Place.after_offset p.place ['\x7b']
  · rw [opensBody_reverse] at opens
    rw [Progress.line_token, mode.reach_eq (by decide), none opens] at found
    cases found

theorem goes_body {k : Nat} (opens : p.opensOrigin = true) (found : bodyLength? 0 cs = some k) :
    Goes source p (((p.push .leftBrace ['\x7b']).push .rawText (cs.take k)).push .rightBrace
      ['\x7d']) := by
  let opened := p.push .leftBrace ['\x7b']
  let inside := opened.push .rawText (cs.take k)
  refine ⟨[p.token .leftBrace ['\x7b'], opened.token .rawText (cs.take k),
    inside.token .rightBrace ['\x7d']], ?_, braced_opening split rfl ?_ ?_⟩
  · simp only [Progress.reverse_push, List.append_assoc]
    rfl
  · refine ⟨h.follows.offset, ?_, fun n _ found' => ?_, fun none => ?_⟩
    · rw [← h.follows.offset]
      exact Place.after_offset p.place ['\x7b']
    · rw [Progress.line_token, mode.reach_eq (by decide), found] at found'
      cases found'
      refine ⟨_, _, [], rfl, rfl, rfl, ?_⟩
      obtain ⟨rest, closes⟩ := bodyLength?_closes found
      have inside : (cs ++ more).take k = cs.take k := by
        have : k < cs.length := by
          refine Nat.lt_of_not_le fun le => ?_
          rw [List.drop_eq_nil_of_le le] at closes
          cases closes
        exact List.take_append_of_le_length (by omega)
      rw [inside]
      exact Place.after_offset opened.place (cs.take k)
    · rw [opensBody_reverse, Progress.line_token, mode.reach_eq (by decide), found] at none
      cases none opens
  · simp [Progress.token]

end Goes

section Run

variable {source front cs more line : List Char} {p p' : Progress} {n : Nat}

/-- What two hyphens take ends where the line does. -/
theorem head?_drop_restOfLine (cs : List Char) :
    ∀ c ∈ (cs.drop (Lexeme.restOfLine cs)).head?, c = '\n' := by
  unfold Lexeme.restOfLine Lexeme.run
  induction cs with
  | nil => simp
  | cons x cs ih =>
    by_cases feed : x = '\n'
    · simp [feed]
    · simpa [feed] using ih

/-- Two hyphens that do not start a line put what follows them on it into a mode of its own. -/
theorem readsLine_dashes (taken : cs.take (Lexeme.restOfLine cs) = '-' :: line)
    (mode : Mode ('-' :: cs) more p) : ReadsLine line (cs.drop (Lexeme.restOfLine cs) ++ more)
      ((p.push (.symbol '-') ['-']).push (.symbol '-') ['-']) := by
  refine ⟨?_, fun feed => ?_, fun c top => ?_⟩
  · rw [Progress.reverse_push, dashed_concat, Progress.reverse_push, List.getLast?_concat]
    simp [isDashes, Progress.token, Progress.push, Place.spanOf, Place.after, Place.next]
  · have member : '\n' ∈ cs.take (Lexeme.restOfLine cs) := by
      rw [taken]
      exact List.mem_cons_of_mem _ feed
    simpa using Lexeme.mem_take_run member
  · have rest := head?_drop_restOfLine cs
    cases left : cs.drop (Lexeme.restOfLine cs) with
    | nil =>
      rw [left, List.nil_append] at top
      rcases mode with ⟨rfl, -⟩ | onLine
      · cases top
      · exact onLine.ends c top
    | cons x left' =>
      rw [left] at top rest
      exact rest c top

/-- Behind the rest of the line, reading is in the mode in which it was before the hyphens. -/
theorem Mode.resumes (mode : Mode ('-' :: cs) more p)
    (hyphens : dashed p'.place.line p'.tokens.reverse = true) :
    Mode (cs.drop (Lexeme.restOfLine cs)) more p' := by
  have feed := head?_drop_restOfLine cs
  refine mode.imp (fun all => ⟨all.1, fun _ => feed, fun _ _ _ _ c top => ?_⟩) fun onLine =>
    ⟨hyphens, fun member => onLine.oneLine ?_, onLine.ends⟩
  · rw [feed c top]
    decide
  · exact List.mem_cons_of_mem _ (List.mem_of_mem_drop member)

/-- A lexeme and what follows it make up the text. -/
theorem cut_lexeme (c : Char) (cs : List Char) (n : Nat) :
    c :: cs = (c :: cs.take n) ++ cs.drop n := by simp

theorem split_lexeme {c : Char} (split : source = front ++ (c :: cs ++ more)) (n : Nat) :
    source = front ++ (c :: cs.take n) ++ (cs.drop n ++ more) := by
  rw [split, List.append_assoc, ← List.append_assoc (c :: cs.take n), ← cut_lexeme c cs n]

theorem read_goes (run : read cs p = .ok p') (h : Located front p) (mode : Mode cs more p)
    (split : source = front ++ (cs ++ more)) : Goes source p p' := by
  fun_induction read cs p generalizing p' front more
  case case1 p =>
    cases run
    exact goes_same rfl
  case case2 p c cs n text lexeme ih =>
    rw [cut_lexeme c cs n] at mode
    exact (goes_same rfl).trans (ih run (h.pass text) (mode.pass h) (split_lexeme split n))
  case case3 p c cs n text lexeme ih =>
    rw [cut_lexeme c cs n] at mode
    exact (goes_same rfl).trans (ih run (h.skip text) (mode.skip h) (split_lexeme split n))
  case case4 => cases run
  case case5 p c cs n text fresh lexeme ih =>
    rw [cut_lexeme c cs n] at mode
    exact (goes_push (by simp) (by simp)).trans
      (ih run (h.push _ text) (mode.push h _ (by simp)) (split_lexeme split n))
  case case6 => cases run
  case case7 p c cs n fresh middle inner lexeme ihLine ih =>
    obtain ⟨rfl, rfl, line, taken⟩ := (Lexeme.formed_of_first lexeme).dashes rfl
    rw [taken, List.tail_cons] at ihLine inner
    have onLine := readsLine_dashes taken mode
    have two := (h.push (.symbol '-') ['-']).push (.symbol '-') ['-']
    have whole := split_lexeme split (Lexeme.restOfLine cs)
    rw [taken] at whole
    have inside := ihLine inner two (.inr onLine) (by simpa using whole)
    have later := two.reads (reads_of_read inner)
    -- the hyphens are still on the line, since what was read behind them does not end it
    have hyphens : dashed middle.place.line middle.tokens.reverse = true := by
      rw [later.follows.line, List.count_append, List.count_eq_zero.2 onLine.oneLine,
        Nat.add_zero, ← two.follows.line]
      exact inside.dashed onLine.hyphens
    exact ((goes_push (by simp) (by simp)).trans (goes_push (by simp) (by simp))).trans
      (inside.trans (ih run later (mode.resumes hyphens) (by simpa using whole)))
  case case8 p c cs n text opened opens k body lexeme ih =>
    obtain ⟨rfl, rfl⟩ := (Lexeme.formed_of_first lexeme).brace rfl
    obtain ⟨rest, closes⟩ := bodyLength?_closes body
    have after : cs.drop (k + 1) = rest := by rw [← List.drop_drop, closes]; rfl
    have parts : cs = cs.take k ++ (['\x7d'] ++ cs.drop (k + 1)) := by
      rw [after, List.singleton_append, ← closes, List.take_append_drop]
    have inside : Mode (['\x7b'] ++ (cs.take k ++ (['\x7d'] ++ cs.drop (k + 1)))) more p := by
      rwa [← parts]
    have mode' := ((inside.push h .leftBrace (by simp)).push (h.push _ _) .rawText (by simp)).push
      ((h.push _ _).push _ _) .rightBrace (by simp)
    refine (goes_body h split mode opens body).trans
      (ih run (((h.push _ _).push _ _).push _ _) mode' ?_)
    calc source = front ++ ('\x7b' :: (cs.take k ++ (['\x7d'] ++ cs.drop (k + 1))) ++ more) := by
          rw [← parts, split]
      _ = _ := by simp [text]
  case case9 p c cs n text opened opens body lexeme ih =>
    obtain ⟨rfl, rfl⟩ := (Lexeme.formed_of_first lexeme).brace rfl
    have inside : Mode (['\x7b'] ++ cs) more p := mode
    exact (goes_brace h split mode fun _ => body).trans
      (ih run (h.push _ ['\x7b']) (inside.push h _ (by simp)) (split_lexeme split 0))
  case case10 p c cs n text opened opens lexeme ih =>
    obtain ⟨rfl, rfl⟩ := (Lexeme.formed_of_first lexeme).brace rfl
    have inside : Mode (['\x7b'] ++ cs) more p := mode
    exact (goes_brace h split mode fun yes => absurd yes opens).trans
      (ih run (h.push _ ['\x7b']) (inside.push h _ (by simp)) (split_lexeme split 0))
  case case11 p c cs n text kind other lexeme ih =>
    have formed := Lexeme.formed_of_first lexeme
    rw [cut_lexeme c cs n] at mode
    refine (goes_push ?_ ?_).trans (ih run (h.push _ text) (mode.push h _ ?_)
      (split_lexeme split n))
    · rintro rfl
      exact other rfl
    · rintro rfl
      exact formed.raw rfl
    · rintro rfl
      obtain ⟨rfl, rfl, alone⟩ := formed.hyphen rfl
      exact ⟨rfl, fun c top same => alone (same ▸ top)⟩

end Run

/-- Every opening brace among the tokens of a source. -/
theorem opens_of_leftBrace {source : String} {stream : TokenStream}
    (tokenizes : ofSource source = .ok stream) {front back : List Token} {opening : Token}
    (split : stream.tokens = front ++ opening :: back) (kind : opening.kind = .leftBrace) :
    ∃ before rest, source.toList = before ++ '\x7b' :: rest ∧
      Opens before rest front opening back := by
  obtain ⟨p, run, rfl⟩ := exists_read tokenizes
  have start : Located [] ({} : Progress) := ⟨⟨rfl, rfl, rfl⟩, by simp⟩
  have mode : Mode source.toList [] {} := .inl ⟨rfl, by simp [dashed], by simp⟩
  have goes : Goes source.toList {} p := read_goes run start mode (by simp)
  have ends : Goes source.toList p (p.push .eof []) := goes_push (by simp) (by simp)
  obtain ⟨added, tokens, braced⟩ := goes.trans ends
  have whole : added = front ++ opening :: back := by simpa [← split] using tokens.symm
  obtain ⟨before, rest, cut, opens⟩ := braced.opens front opening back whole kind
  exact ⟨before, rest, cut, by simpa using opens⟩

end TemplateMarkup.TokenStream
