import TemplateMarkup.Proofs.ParseSteps
import TemplateMarkup.Proofs.SourceSlices
import TemplateMarkup.Parsing.Documents

/-! Where the tokens of a source stand: one behind the other, each between the ends of two
characters. -/
namespace TemplateMarkup

namespace Lexeme

/-- What holds of every lexeme: an opening brace and a lone hyphen are one character, two hyphens
go on to the end of the line, white space is made of skipped characters, no colon is in a name,
and no text stands for the end or for foreign text. -/
structure Formed (c : Char) (cs : List Char) (lexeme : Lexeme) (n : Nat) : Prop where
  brace : lexeme = .token .leftBrace → c = '\x7b' ∧ n = 0
  hyphen : lexeme = .token (.symbol '-') → c = '-' ∧ n = 0 ∧ cs.head? ≠ some '-'
  dashes : lexeme = .dashes → c = '-' ∧ n = restOfLine cs ∧ ∃ rest, cs.take n = '-' :: rest
  blank : lexeme = .blank → ∀ x ∈ c :: cs.take n, isSkipped x
  name : ∀ kind, lexeme = .token kind → kind.isName → ':' ∉ c :: cs.take n
  eof : lexeme ≠ .token .eof
  raw : lexeme ≠ .token .rawText

/-- A kind of tokens that have no say in how reading goes on. -/
structure Inert (kind : TokenKind) : Prop where
  brace : kind ≠ .leftBrace
  hyphen : kind ≠ .symbol '-'
  eof : kind ≠ .eof
  raw : kind ≠ .rawText

section Shapes

variable {c : Char} {cs : List Char} {n : Nat}

variable {kind : TokenKind}

private theorem Formed.ofToken (inert : Inert kind) (name : kind.isName → ':' ∉ c :: cs.take n) :
    Formed c cs (.token kind) n where
  brace h := absurd (Lexeme.token.inj h) inert.brace
  hyphen h := absurd (Lexeme.token.inj h) inert.hyphen
  dashes := nofun
  blank := nofun
  name kind h := by
    cases h
    exact name
  eof h := inert.eof (Lexeme.token.inj h)
  raw h := inert.raw (Lexeme.token.inj h)

private theorem Formed.ofMark (inert : Inert kind) (mark : ¬kind.isName) :
    Formed c cs (.token kind) n :=
  .ofToken inert fun name => absurd name mark

private theorem Formed.ofUnknown : Formed c cs .unknown n :=
  ⟨nofun, nofun, nofun, nofun, nofun, nofun, nofun⟩

private theorem Formed.ofUnterminated {cause : Unterminated} :
    Formed c cs (.unterminated cause) n :=
  ⟨nofun, nofun, nofun, nofun, nofun, nofun, nofun⟩

variable {tail : List Char}

/-- The characters that a run counts satisfy what it looks for. -/
theorem mem_take_run {p : Char → Bool} {x : Char} (h : x ∈ tail.take (run p tail)) :
    p x = true := by
  rw [run, ← List.prefix_iff_eq_take.1 (List.takeWhile_prefix p)] at h
  exact List.all_eq_true.1 List.all_takeWhile x h

private theorem formed_identifier (word : String) (starts : c ≠ ':') :
    Formed c cs (identifier word) (run isIdentifierPart cs) := by
  have plain : ':' ∉ c :: cs.take (run isIdentifierPart cs) := by
    intro member
    rcases List.mem_cons.1 member with rfl | member
    · exact starts rfl
    · exact absurd (mem_take_run member) (by decide)
  unfold identifier
  split <;> exact .ofToken (by constructor <;> simp) fun _ => plain

private theorem formed_bracket : Formed c cs (bracket tail).1 (bracket tail).2 := by
  fun_cases bracket tail with
  | case1 | case2 | case3 | case5 =>
    exact .ofMark (by constructor <;> simp) (by simp [TokenKind.isName])
  | case4 => exact .ofUnterminated
  | case6 => exact .ofUnknown

private theorem formed_markedName {named alone : TokenKind} {part : Char → Bool}
    (named_inert : Inert named) (named_mark : ¬named.isName) (alone_inert : Inert alone)
    (alone_mark : ¬alone.isName) :
    Formed c cs (markedName named alone part tail).1 (markedName named alone part tail).2 := by
  unfold markedName
  dsimp only
  split
  · exact .ofMark alone_inert alone_mark
  · exact .ofMark named_inert named_mark

private theorem formed_punctuation (other : c ≠ '-') (h : punctuation? c = some kind) :
    Formed c cs (.token kind) 0 := by
  by_cases opens : c = '\x7b'
  · have same : kind = .leftBrace := by simpa [punctuation?, opens] using h.symm
    subst same
    exact ⟨fun _ => ⟨opens, rfl⟩, by simp, by simp, by simp, by simp [TokenKind.isName], by simp,
      by simp⟩
  · have mark : Inert kind ∧ ¬kind.isName := by
      unfold punctuation? at h
      rw [if_neg opens] at h
      repeat' split at h
      all_goals simp only [Option.some.injEq, reduceCtorEq] at h
      all_goals
        subst h
        exact ⟨by constructor <;> simp [other], by simp [TokenKind.isName]⟩
    exact .ofMark mark.1 mark.2

theorem formed_of_first {lexeme : Lexeme} (h : first c cs = (lexeme, n)) :
    Formed c cs lexeme n := by
  suffices formed : Formed c cs (first c cs).1 (first c cs).2 by rwa [h] at formed
  clear h
  fun_cases first c cs with
  | case1 | case3 => exact formed_identifier _ (by rintro rfl; contradiction)
  | case2 _ skipped =>
    refine ⟨by simp, by simp, by simp, fun _ x member => ?_, by simp, by simp, by simp⟩
    rcases List.mem_cons.1 member with rfl | member
    · exact skipped
    · exact mem_take_run member
  | case4 | case5 | case7 | case8 | case10 | case14 | case15 | case18 =>
    exact .ofMark (by constructor <;> simp) (by simp [TokenKind.isName])
  | case6 | case9 => exact .ofUnterminated
  | case11 _ _ _ _ _ hyphen =>
    refine ⟨by simp, by simp, fun _ => ⟨hyphen, rfl, ?_⟩, by simp, by simp, by simp, by simp⟩
    simp [restOfLine, run]
  | case12 _ _ _ _ _ _ hyphen alone =>
    refine ⟨by simp, fun _ => ⟨hyphen, rfl, fun next => ?_⟩, by simp, by simp,
      by simp [TokenKind.isName], by simp, by simp⟩
    obtain ⟨rest, rfl⟩ := List.head?_eq_some_iff.1 next
    exact alone rest rfl
  | case13 => exact formed_bracket
  | case16 | case17 =>
    exact formed_markedName (by constructor <;> simp) (by simp [TokenKind.isName])
      (by constructor <;> simp) (by simp [TokenKind.isName])
  | case19 _ _ _ _ _ _ hyphen _ _ _ _ _ kind mark => exact formed_punctuation hyphen mark
  | case20 => exact .ofUnknown

end Shapes

end Lexeme

namespace Place

theorem after_offset (p : Place) (cs : List Char) :
    (p.after cs).offset = p.offset + SourceText.byteLength cs := by
  induction cs generalizing p with
  | nil => rfl
  | cons c cs ih =>
    have step : (p.next c).offset = p.offset + c.utf8Size := by
      unfold next
      split
      · rename_i h
        subst h
        rfl
      · rfl
    rw [SourceText.byteLength_cons, after, List.foldl_cons]
    have := ih (p.next c)
    rw [after] at this
    rw [this, step]
    omega

end Place

namespace TokenStream
open SourceText

variable {cs : List Char}

theorem bodyLength?_closes {depth k : Nat} (h : bodyLength? depth cs = some k) :
    ∃ rest, cs.drop k = '\x7d' :: rest := by
  induction cs generalizing depth k with
  | nil => cases h
  | cons c cs ih =>
    unfold bodyLength? at h
    split at h
    · obtain ⟨j, hj, rfl⟩ := Option.map_eq_some_iff.1 h
      exact ih hj
    · split at h
      · rename_i hc
        cases depth with
        | zero =>
          cases h
          exact ⟨cs, by rw [hc]; rfl⟩
        | succ depth =>
          obtain ⟨j, hj, rfl⟩ := Option.map_eq_some_iff.1 h
          exact ih hj
      · obtain ⟨j, hj, rfl⟩ := Option.map_eq_some_iff.1 h
        exact ih hj

/-- Reading goes through a text piece by piece: white space is passed, what no rule takes is
skipped, and every other piece becomes a token. No colon is in a token that serves as a name. -/
inductive Reads : List Char → Progress → Progress → Prop
  | done (p : Progress) : Reads [] p p
  | pass {text cs : List Char} {p p' : Progress} (blank : ∀ c ∈ text, Lexeme.isSkipped c)
      (rest : Reads cs (p.pass text) p') : Reads (text ++ cs) p p'
  | skip {text cs : List Char} {p p' : Progress} (rest : Reads cs (p.skip text) p') :
      Reads (text ++ cs) p p'
  | push {text cs : List Char} {p p' : Progress} (kind : TokenKind) (eof : kind ≠ .eof)
      (name : kind.isName → ':' ∉ text)
      (rest : Reads cs (p.push kind text) p') : Reads (text ++ cs) p p'

variable {p p' : Progress}

theorem Reads.mark {text : List Char} {kind : TokenKind} (mark : kind ≠ .eof ∧ ¬kind.isName)
    (rest : Reads cs (p.push kind text) p') : Reads (text ++ cs) p p' :=
  .push kind mark.1 (fun name => absurd name mark.2) rest

theorem Reads.append {cs' : List Char} {middle : Progress} (h : Reads cs p middle)
    (h' : Reads cs' middle p') : Reads (cs ++ cs') p p' := by
  induction h with
  | done p => exact h'
  | pass blank _ ih =>
    rw [List.append_assoc]
    exact .pass blank (ih h')
  | skip _ ih =>
    rw [List.append_assoc]
    exact .skip (ih h')
  | push kind eof name _ ih =>
    rw [List.append_assoc]
    exact .push kind eof name (ih h')

theorem reads_of_read (run : read cs p = .ok p') : Reads cs p p' := by
  -- a lexeme and what follows it make up the text
  have cut (c : Char) (cs : List Char) (n : Nat) : c :: cs = (c :: cs.take n) ++ cs.drop n := by
    simp
  fun_induction read cs p generalizing p'
  case case1 p =>
    cases run
    exact .done p
  case case2 p c cs n text lexeme ih =>
    rw [cut c cs n]
    exact .pass ((Lexeme.formed_of_first lexeme).blank rfl) (ih run)
  case case3 p c cs n text lexeme ih =>
    rw [cut c cs n]
    exact .skip (ih run)
  case case4 => cases run
  case case5 p c cs n text fresh lexeme ih =>
    rw [cut c cs n]
    exact .mark (by simp [TokenKind.isName]) (ih run)
  case case6 => cases run
  case case7 p c cs n fresh middle inner lexeme ihLine ih =>
    obtain ⟨rfl, -, line, taken⟩ := (Lexeme.formed_of_first lexeme).dashes rfl
    rw [cut '-' cs n, taken]
    rw [taken, List.tail_cons] at ihLine inner
    have marks : Reads (['-'] ++ (['-'] ++ line)) p middle :=
      .mark (by simp [TokenKind.isName]) (.mark (by simp [TokenKind.isName]) (ihLine inner))
    exact marks.append (ih run)
  case case8 p c cs n text opened opens k body lexeme ih =>
    obtain ⟨-, rfl⟩ := (Lexeme.formed_of_first lexeme).brace rfl
    obtain ⟨rest, closes⟩ := bodyLength?_closes body
    have parts : c :: cs = (c :: cs.take 0) ++ (cs.take k ++ (['\x7d'] ++ cs.drop (k + 1))) := by
      have after : cs.drop (k + 1) = rest := by rw [← List.drop_drop, closes]; rfl
      rw [after, List.singleton_append, ← closes, List.take_append_drop]
      rfl
    rw [parts]
    have inside : Reads (cs.take k ++ (['\x7d'] ++ cs.drop (k + 1))) opened p' :=
      .mark (by simp [TokenKind.isName]) (.mark (by simp [TokenKind.isName]) (ih run))
    exact .mark (by simp [TokenKind.isName]) inside
  case case9 p c cs n _ _ _ _ lexeme ih | case10 p c cs n _ _ _ lexeme ih =>
    obtain ⟨-, rfl⟩ := (Lexeme.formed_of_first lexeme).brace rfl
    rw [cut c cs 0]
    exact .mark (by simp [TokenKind.isName]) (ih run)
  case case11 p c cs n text kind other lexeme ih =>
    rw [cut c cs n]
    refine .push _ ?_ ((Lexeme.formed_of_first lexeme).name kind rfl) (ih run)
    rintro rfl
    exact (Lexeme.formed_of_first lexeme).eof rfl

/-- The tokens read so far, last first, when `front` has been read. -/
structure Placed (source front : List Char) (p : Progress) : Prop where
  offset : p.place.offset = byteLength front
  ordered : p.tokens.Pairwise fun later earlier => earlier.span.stop ≤ later.span.start
  inside : ∀ token ∈ p.tokens, IsCut source token.span.start ∧ IsCut source token.span.stop ∧
    token.span.start ≤ token.span.stop ∧ token.span.stop ≤ byteLength front

variable {source front text back : List Char}

theorem Placed.pass (h : Placed source front p) : Placed source (front ++ text) (p.pass text) where
  offset := by rw [Progress.pass, Place.after_offset, h.offset, byteLength_append]
  ordered := h.ordered
  inside := by
    intro token member
    obtain ⟨start, stop, le, bound⟩ := h.inside token member
    refine ⟨start, stop, le, ?_⟩
    rw [byteLength_append]
    omega

theorem Placed.skip (h : Placed source front p) : Placed source (front ++ text) (p.skip text) :=
  ⟨h.pass.offset, h.ordered, h.pass.inside⟩

theorem Placed.push (h : Placed source front p) (kind : TokenKind)
    (split : source = front ++ text ++ back) :
    Placed source (front ++ text) (p.push kind text) where
  offset := h.pass.offset
  ordered := by
    refine List.pairwise_cons.2 ⟨?_, h.ordered⟩
    intro token member
    have := (h.inside token member).2.2.2
    rw [← h.offset] at this
    exact this
  inside := by
    intro token member
    rcases List.mem_cons.1 member with rfl | member
    · have start : (p.place.spanOf text).start = byteLength front := h.offset
      have stop : (p.place.spanOf text).stop = byteLength (front ++ text) := h.pass.offset
      refine ⟨⟨front, text ++ back, ?_, start.symm⟩, ⟨front ++ text, back, split, stop.symm⟩,
        ?_, ?_⟩
      · rw [split, List.append_assoc]
      · dsimp only
        rw [start, stop, byteLength_append]
        omega
      · exact Nat.le_of_eq stop
    · exact h.pass.inside token member

/-- Reading leaves the tokens placed, whatever follows the text that is read. -/
theorem Reads.placed (run : Reads cs p p') (h : Placed source front p)
    (split : source = front ++ cs ++ back) : Placed source (front ++ cs) p' := by
  induction run generalizing front with
  | done p => simpa using h
  | pass blank _ ih =>
    rw [← List.append_assoc] at split ⊢
    exact ih h.pass split
  | skip _ ih =>
    rw [← List.append_assoc] at split ⊢
    exact ih h.skip split
  | push kind eof _ _ ih =>
    rw [← List.append_assoc] at split ⊢
    exact ih (h.push kind (by rw [split, List.append_assoc])) split

def Progress.endToken (p : Progress) : Token :=
  { kind := .eof, text := "", span := p.place.spanOf [] }

theorem Progress.tokens_push_eof (p : Progress) : (p.push .eof []).tokens.reverse =
    p.tokens.reverse ++ [p.endToken] := by
  simp [Progress.push, Progress.endToken]

theorem Reads.placed_eof (run : Reads source {} p) : Placed source source (p.push .eof []) := by
  have start : Placed source [] {} := ⟨rfl, .nil, by simp⟩
  have whole : source = [] ++ source ++ [] := by simp
  have finish : source = source ++ [] ++ [] := by simp
  have placed := (run.placed start whole).push .eof finish
  simpa using placed

theorem Reads.ordered (run : Reads source {} p) :
    (p.tokens.reverse ++ [p.endToken]).Pairwise
      fun token later => token.span.stop ≤ later.span.start := by
  rw [← p.tokens_push_eof]
  exact List.pairwise_reverse.2 run.placed_eof.ordered

variable {source : String} {stream : TokenStream}

theorem exists_read (tokenizes : ofSource source = .ok stream) :
    ∃ p, read source.toList {} = .ok p ∧
      stream = ⟨(p.push .eof []).tokens.reverse, p.skipped.reverse⟩ := by
  unfold ofSource at tokenizes
  cases run : read source.toList {} with
  | error e =>
    rw [run] at tokenizes
    cases tokenizes
  | ok p =>
    rw [run] at tokenizes
    cases tokenizes
    exact ⟨p, rfl, rfl⟩

theorem exists_reads (tokenizes : ofSource source = .ok stream) :
    ∃ p, Reads source.toList {} p ∧
      stream = ⟨p.tokens.reverse ++ [p.endToken], p.skipped.reverse⟩ := by
  obtain ⟨p, run, rfl⟩ := exists_read tokenizes
  exact ⟨p, reads_of_read run, by rw [p.tokens_push_eof]⟩

theorem ofSource_of_toOption (found : (TokenStream.ofSource source).toOption = some stream) :
    TokenStream.ofSource source = .ok stream := by
  cases run : TokenStream.ofSource source with
  | error e =>
    rw [run] at found
    cases found
  | ok other =>
    rw [run] at found
    cases found
    rfl

theorem Reads.names (run : Reads cs p p')
    (before : ∀ token ∈ p.tokens, token.isName → ':' ∉ token.text.toList) :
    ∀ token ∈ p'.tokens, token.isName → ':' ∉ token.text.toList := by
  induction run with
  | done p => exact before
  | pass _ _ ih | skip _ ih => exact ih before
  | push kind eof name _ ih =>
    refine ih fun token member isName => ?_
    rcases List.mem_cons.1 member with rfl | member
    · simpa using name isName
    · exact before token member isName

/-- No colon is in a token that serves as a name. -/
theorem colon_notMem_of_isName (tokenizes : ofSource source = .ok stream) {token : Token}
    (member : token ∈ stream.tokens) (isName : token.isName) : ':' ∉ token.text.toList := by
  obtain ⟨p, steps, rfl⟩ := exists_reads tokenizes
  rcases List.mem_append.1 member with early | last
  · exact steps.names (by simp) token (List.mem_reverse.1 early) isName
  · rw [List.mem_singleton.1 last] at isName
    cases isName

end TokenStream

namespace ParseInput
open SourceText

/-- Tokens in the order of the source, each between two of its characters, the last its end. -/
structure Laid (input : ParseInput) : Prop where
  starts : ∀ i < input.tokens.size, IsCut input.source (input.token i).span.start
  stops : ∀ i < input.tokens.size, IsCut input.source (input.token i).span.stop
  start_le_stop : ∀ i < input.tokens.size, (input.token i).span.start ≤ (input.token i).span.stop
  stop_le_start : ∀ i j, i < j → j < input.tokens.size →
    (input.token i).span.stop ≤ (input.token j).span.start
  ends : (input.token (input.tokens.size - 1)).kind = .eof

theorem Laid.start_le_start {input : ParseInput} (h : input.Laid) {i j : Nat} (le : i ≤ j)
    (inside : j < input.tokens.size) : (input.token i).span.start ≤ (input.token j).span.start := by
  rcases Nat.lt_or_eq_of_le le with lt | rfl
  · have := h.start_le_stop i (by omega)
    have := h.stop_le_start i j lt inside
    omega
  · exact Nat.le_refl _

theorem closed_append_eof (length : Nat) (front : List Token) {last : Token}
    (h : last.kind = .eof) : closed length (front ++ [last]) = front ++ [last] := by
  unfold closed
  simp [h]

theorem laid_of_tokens {input : ParseInput} {front : List Token} {last : Token}
    (tokens : input.tokens.toList = front ++ [last]) (eof : last.kind = .eof)
    (ordered : (front ++ [last]).Pairwise fun a b => a.span.stop ≤ b.span.start)
    (inside : ∀ token ∈ front ++ [last], IsCut input.source token.span.start ∧
      IsCut input.source token.span.stop ∧ token.span.start ≤ token.span.stop) : input.Laid := by
  have member (i : Nat) (h : i < input.tokens.size) : input.token i ∈ front ++ [last] := by
    rw [← tokens]
    exact Array.mem_toList_iff.2 (token_mem h)
  refine ⟨fun i h => (inside _ (member i h)).1, fun i h => (inside _ (member i h)).2.1,
    fun i h => (inside _ (member i h)).2.2, ?_, ?_⟩
  · intro i j lt h
    obtain ⟨hi, atI⟩ := token_eq_getElem tokens (show i < input.tokens.size by omega)
    obtain ⟨hj, atJ⟩ := token_eq_getElem tokens h
    rw [atI, atJ]
    exact List.pairwise_iff_getElem.1 ordered i j hi hj lt
  · have size : input.tokens.size = front.length + 1 := by
      rw [← Array.length_toList, tokens]
      simp
    obtain ⟨hi, atLast⟩ := token_eq_getElem tokens
      (show input.tokens.size - 1 < input.tokens.size by omega)
    rw [atLast]
    simpa [size] using eof

/-- What is parsed of a source are the tokens that mean something. -/
theorem tokens_ofSource {source : String} {stream : TokenStream}
    (tokenizes : TokenStream.ofSource source = .ok stream) (options : ParseOptions) :
    (ofTokens source stream.tokens options).tokens.toList =
      stream.tokens.filter fun token => !token.kind.isPlainComment := by
  obtain ⟨p, -, rfl⟩ := TokenStream.exists_reads tokenizes
  have ends : p.endToken.kind = .eof := rfl
  have kept : (p.tokens.reverse ++ [p.endToken]).filter (fun token => !token.kind.isPlainComment) =
      p.tokens.reverse.filter (fun token => !token.kind.isPlainComment) ++ [p.endToken] := by
    simp [TokenStream.Progress.endToken, TokenKind.isPlainComment]
  simp only [ofTokens, kept]
  rw [closed_append_eof _ _ ends]

theorem laid_ofSource {source : String} {stream : TokenStream}
    (tokenizes : TokenStream.ofSource source = .ok stream) (options : ParseOptions) :
    (ofTokens source stream.tokens options).Laid := by
  have whole := tokens_ofSource tokenizes options
  obtain ⟨p, steps, rfl⟩ := TokenStream.exists_reads tokenizes
  have placed := steps.placed_eof
  obtain ⟨front, last, eof, kept⟩ : ∃ front last, last.kind = .eof ∧
      (p.tokens.reverse ++ [p.endToken]).filter
        (fun token => !token.kind.isPlainComment) = front ++ [last] := by
    refine ⟨p.tokens.reverse.filter fun token => !token.kind.isPlainComment, p.endToken, rfl, ?_⟩
    simp [TokenStream.Progress.endToken, TokenKind.isPlainComment]
  refine laid_of_tokens (whole.trans kept) eof ?_ ?_
  · rw [← kept]
    exact steps.ordered.filter _
  · intro token member
    rw [← kept] at member
    have kept := (List.mem_filter.1 member).1
    rw [← TokenStream.Progress.tokens_push_eof, List.mem_reverse] at kept
    obtain ⟨h₁, h₂, h₃, -⟩ := placed.inside token kept
    exact ⟨h₁, h₂, h₃⟩

end ParseInput

end TemplateMarkup
