import Mathlib.Data.List.Forall2
import TemplateMarkup.Proofs.ReadingStrides

/-! A byte order mark in front of a source. It is white space, but it also serves in words, and for
the question whether a comment starts its line it counts as text. So it makes no difference only
where more white space follows it and the first line does not open with a generator comment. -/
namespace TemplateMarkup

/-- A token and the same token some bytes further on. -/
structure Token.Later (bytes : Nat) (token later : Token) : Prop where
  kind : later.kind = token.kind
  text : later.text = token.text
  start : later.span.start = bytes + token.span.start
  stop : later.span.stop = bytes + token.span.stop

namespace TokenStream
open Lexeme

/-- A source behind a byte order mark. -/
def marked (source : String) : String := String.ofList (byteOrderMark :: source.toList)

/-- A byte order mark is ignored: the tokens behind it are those of the source, as far further on as
the mark is long, or reading fails for the same cause. -/
def IgnoresMark (source : String) : Prop :=
  match ofSource source, ofSource (marked source) with
  | .ok plain, .ok later => List.Forall₂ (Token.Later 3) plain.tokens later.tokens
  | .error e, .error e' => e'.cause = e.cause
  | _, _ => False

/-- A mark goes with the white space behind it if that is longer than the word that it would
begin. -/
def PassesMark (cs : List Char) : Prop := run isIdentifierPart cs < run isSkipped cs

/-- A line opens with a generator comment: two hyphens behind nothing but white space, none of
which makes a word with them. -/
def OpensWithComment (cs : List Char) : Prop :=
  ∃ blank rest, cs = blank ++ '-' :: '-' :: rest ∧
    (∀ c ∈ blank, Text.isWhiteSpace c = true ∧ c ≠ '\n') ∧
    ∀ c ∈ blank.getLast?, isBeyondAscii c = false

section Places

/-- A place, and the same place behind a mark. What only white space stands before behind the mark
has only white space before it. -/
structure Trails (q p : Place) : Prop where
  offset : p.offset = 3 + q.offset
  fresh : p.fresh = true → q.fresh = true

variable {q p : Place} {text : List Char} {c : Char}

theorem Trails.next (trails : Trails q p) (c : Char) : Trails (q.next c) (p.next c) := by
  have offset := trails.offset
  unfold Place.next
  split
  · exact ⟨by dsimp only; omega, fun _ => rfl⟩
  · refine ⟨by dsimp only; omega, fun fresh => ?_⟩
    simp only [Bool.and_eq_true] at fresh ⊢
    exact ⟨trails.fresh fresh.1, fresh.2⟩

theorem Trails.after (trails : Trails q p) (text : List Char) :
    Trails (q.after text) (p.after text) := by
  unfold Place.after
  induction text generalizing q p with
  | nil => exact trails
  | cons c text ih => exact ih (trails.next c)

theorem Trails.spanOf (trails : Trails q p) (kind : TokenKind) (text : List Char) :
    Token.Later 3 ⟨kind, String.ofList text, q.spanOf text⟩
      ⟨kind, String.ofList text, p.spanOf text⟩ :=
  ⟨rfl, rfl, trails.offset, (trails.after text).offset⟩

/-- Whether the line begins here is seen differently from the two places. -/
def Differ (q p : Place) : Prop := q.fresh = true ∧ p.fresh = false

theorem fresh_after_blank (blank : ∀ c ∈ text, Text.isWhiteSpace c = true ∧ c ≠ '\n') (p : Place) :
    (p.after text).fresh = p.fresh := by
  unfold Place.after
  induction text generalizing p with
  | nil => rfl
  | cons c text ih =>
    obtain ⟨white, inLine⟩ := blank c (.head _)
    have step : (p.next c).fresh = p.fresh := by simp [Place.next, inLine, white]
    rw [List.foldl_cons, ih fun d member => blank d (.tail _ member), step]

/-- The two places differ behind a text only if they did before it and it is white space on one
line. -/
theorem Differ.before (differ : Differ (q.after text) (p.after text)) :
    Differ q p ∧ ∀ c ∈ text, Text.isWhiteSpace c = true ∧ c ≠ '\n' := by
  induction text generalizing q p with
  | nil => exact ⟨differ, by simp⟩
  | cons c text ih =>
    obtain ⟨⟨isFresh, stale⟩, blank⟩ := ih (q := q.next c) (p := p.next c) differ
    rw [fresh_next] at isFresh stale
    have inLine : c ≠ '\n' := by
      rintro rfl
      cases stale
    simp only [beq_iff_eq, inLine, Bool.or_eq_true, Bool.and_eq_true, false_or, Bool.or_eq_false_iff,
      beq_eq_false_iff_ne, ne_eq, not_false_eq_true, true_and] at isFresh stale
    obtain ⟨first, white⟩ := isFresh
    rw [white, Bool.and_true] at stale
    refine ⟨⟨first, stale⟩, fun d member => ?_⟩
    rcases List.mem_cons.1 member with rfl | later
    · exact ⟨white, inLine⟩
    · exact blank d later

end Places

section Blanks

variable {c : Char} {cs : List Char}

theorem isIdentifierPart_of_isBeyondAscii (beyond : isBeyondAscii c = true) :
    isIdentifierPart c = true := by simp [isIdentifierPart, beyond]

theorem startsIdentifier_of_isBeyondAscii (beyond : isBeyondAscii c = true) :
    startsIdentifier c = true := by simp [startsIdentifier, beyond]

section

variable (white : Text.isWhiteSpace c = true)

include white

theorem ne_byteOrderMark : c ≠ byteOrderMark := by
  rintro rfl
  exact absurd white (by decide)

theorem mem_of_white (ascii : isBeyondAscii c = false) :
    c ∈ ['\t', '\n', Char.ofNat 11, Char.ofNat 12, '\r', ' '] := by
  have small : c.toNat < 0x80 := by simpa [isBeyondAscii] using ascii
  have codes : c.toNat = 9 ∨ c.toNat = 10 ∨ c.toNat = 11 ∨ c.toNat = 12 ∨ c.toNat = 13 ∨
      c.toNat = 32 := by
    simp only [Text.isWhiteSpace, Bool.or_eq_true, Bool.and_eq_true, decide_eq_true_eq,
      beq_iff_eq] at white
    omega
  have same {d : Char} (code : c.toNat = d.toNat) : c = d := Char.toNat_inj.1 code
  rcases codes with code | code | code | code | code | code
  · exact same (d := '\t') code ▸ by simp
  · exact same (d := '\n') code ▸ by simp
  · exact same (d := Char.ofNat 11) code ▸ by simp
  · exact same (d := Char.ofNat 12) code ▸ by simp
  · exact same (d := '\r') code ▸ by simp
  · exact same (d := ' ') code ▸ by simp

theorem isIdentifierPart_of_white (ascii : isBeyondAscii c = false) :
    isIdentifierPart c = false := by
  have all : ∀ d ∈ ['\t', '\n', Char.ofNat 11, Char.ofNat 12, '\r', ' '],
      isIdentifierPart d = false := by
    simp only [List.forall_mem_cons, List.not_mem_nil, false_imp_iff, implies_true, and_true]
    decide
  exact all c (mem_of_white white ascii)

/-- What a blank begins on its line: white space, a word of characters beyond ASCII, or nothing that
any rule takes. -/
theorem first_of_white (cs : List Char) :
    isSkipped c = true ∧ isBeyondAscii c = false ∧ first c cs = (.blank, run isSkipped cs) ∨
      isBeyondAscii c = true ∧ (∃ kind, kind ≠ .leftBrace ∧
        first c cs = (.token kind, run isIdentifierPart cs)) ∨
      isBeyondAscii c = false ∧ first c cs = (.unknown, 0) := by
  by_cases skipped : isSkipped c = true
  · have other := ne_byteOrderMark white
    exact .inl ⟨skipped, isBeyondAscii_of_isSkipped skipped other, first_blank skipped other cs⟩
  · right
    cases beyond : isBeyondAscii c with
    | true =>
      left
      unfold first identifier
      rw [if_neg skipped, if_pos (startsIdentifier_of_isBeyondAscii beyond)]
      dsimp only
      split <;> exact ⟨rfl, _, by simp, rfl⟩
    | false =>
      right
      have skips : ∀ d ∈ ['\t', '\n', Char.ofNat 11, Char.ofNat 12, '\r', ' '],
          isSkipped d = true ∨ d = Char.ofNat 11 := by
        simp only [List.forall_mem_cons, List.not_mem_nil, false_imp_iff, implies_true, and_true]
        decide
      rcases skips c (mem_of_white white beyond) with skips | rfl
      · exact absurd skips skipped
      · exact ⟨rfl, rfl⟩

end

/-- White space on the line before a comment opens the line with it. -/
theorem OpensWithComment.cons {lexeme : Lexeme} {n : Nat} (found : first c cs = (lexeme, n))
    (blank : ∀ d ∈ c :: cs.take n, Text.isWhiteSpace d = true ∧ d ≠ '\n')
    (opens : OpensWithComment (cs.drop n)) : OpensWithComment (c :: cs) := by
  obtain ⟨more, rest, split, white, last⟩ := opens
  refine ⟨c :: cs.take n ++ more, rest, ?_, fun d member => ?_, fun d member => ?_⟩
  · rw [List.append_assoc, ← split, List.cons_append, List.take_append_drop]
  · rcases List.mem_append.1 member with front | back
    · exact blank d front
    · exact white d back
  · rcases more.eq_nil_or_concat with rfl | ⟨more, x, rfl⟩
    · -- the lexeme itself ends before the hyphens, so it is no word
      rw [List.append_nil] at member
      have inside := List.mem_of_getLast? member
      rcases first_of_white (blank c (.head _)).1 cs with
        ⟨skipped, ascii, same⟩ | ⟨-, kind, -, same⟩ | ⟨ascii, same⟩
      · cases found.symm.trans same
        have : isSkipped d = true := by
          rcases List.mem_cons.1 inside with rfl | later
          · exact skipped
          · exact mem_take_run later
        exact isBeyondAscii_of_isSkipped this (ne_byteOrderMark (blank d inside).1)
      · cases found.symm.trans same
        have stops : isIdentifierPart '-' = false := head?_drop_run (by rw [split]; rfl)
        cases stops
      · cases found.symm.trans same
        rw [List.take_zero, List.getLast?_singleton, Option.mem_some] at member
        exact member ▸ ascii
    · rw [List.concat_eq_append, ← List.append_assoc, List.getLast?_concat] at member
      exact last d (by rw [List.concat_eq_append, List.getLast?_concat]; exact member)

end Blanks

section Lockstep

variable {cs text : List Char} {q p q' p' : Progress}

/-- What has been read of a text, and what has been read of it behind a mark. -/
structure Alike (q p : Progress) : Prop where
  place : Trails q.place p.place
  tokens : List.Forall₂ (Token.Later 3) q.tokens p.tokens

theorem alikeKept : Kept Alike where
  pass alike text := ⟨alike.place.after text, alike.tokens⟩
  skip alike text := ⟨alike.place.after text, alike.tokens⟩
  push alike kind text :=
    ⟨alike.place.after text, .cons (alike.place.spanOf kind text) alike.tokens⟩

theorem kinds_of_later {bytes : Nat} {tokens later : List Token}
    (all : List.Forall₂ (Token.Later bytes) tokens later) :
    later.map Token.kind = tokens.map Token.kind := by
  induction all with
  | nil => rfl
  | cons same _ ih => rw [List.map_cons, List.map_cons, same.kind, ih]

theorem le_start_of_later {bytes : Nat} {tokens later : List Token}
    (all : List.Forall₂ (Token.Later bytes) tokens later) :
    ∀ token ∈ later, bytes ≤ token.span.start := by
  induction all with
  | nil => simp
  | cons same _ ih =>
    refine List.forall_mem_cons.2 ⟨?_, ih⟩
    rw [same.start]
    exact Nat.le_add_right _ _

theorem Alike.opensOrigin (alike : Alike q p) : p.opensOrigin = q.opensOrigin := by
  unfold Progress.opensOrigin
  rw [List.map_take, List.map_take, kinds_of_later alike.tokens]

theorem alikeSteps : Lockstep fun q p => Alike q p ∧ q.place.fresh = p.place.fresh where
  fresh related := related.2
  opensOrigin related := related.1.opensOrigin.symm
  pass related text := ⟨alikeKept.pass related.1 text, fresh_after_congr related.2 text⟩
  skip related text := ⟨alikeKept.skip related.1 text, fresh_after_congr related.2 text⟩
  push related kind text := ⟨alikeKept.push related.1 kind text, fresh_after_congr related.2 text⟩

/-- Behind a mark a text is read as without it, if the two readings do not come to a comment that
opens the line of the mark. -/
theorem read_alike (alike : Alike q p)
    (plain : Differ q.place p.place → ¬OpensWithComment cs) :
    Ends Alike (read cs q) (read cs p) := by
  induction length : cs.length using Nat.strong_induction_on generalizing cs q p with
  | _ n ih =>
    subst length
    by_cases differ : Differ q.place p.place
    · cases cs with
      | nil =>
        unfold read
        exact .ok alike
      | cons c cs =>
        have shorter (n : Nat) : (cs.drop n).length < (c :: cs).length := by
          rw [List.length_drop, List.length_cons]
          omega
        have way := front q c cs
        generalize stride q (c :: cs) = taken at way
        cases way with
        | fails found =>
          rw [read_unterminated found, read_unterminated found]
          exact .error alike _
        | splits _ stale =>
          rw [differ.1] at stale
          cases stale
        | foreign brace opens body =>
          subst brace
          rw [read_foreign opens body, read_foreign (alike.opensOrigin.trans opens) body]
          refine ih _ (shorter _) (alikeKept.enclosed alike _) (fun differ => ?_) rfl
          exact absurd (differ.before.1.before.1.before.2 _ (.head _)).1 (by decide)
        | @adds lexeme n found closed fresh bare =>
          -- a comment for one reading would be two hyphens for the other
          have other : lexeme ≠ .dashes := by
            rintro rfl
            obtain ⟨rfl, -, rest, taken⟩ := (formed_of_first found).dashes rfl
            refine plain differ ⟨[], rest ++ cs.drop n, ?_, by simp, by simp⟩
            rw [List.nil_append, ← List.cons_append, ← taken, List.take_append_drop]
          have bare' : p.body? lexeme cs = none := by
            rwa [Progress.body?, alike.opensOrigin]
          rw [read_of_goes (Front.adds found closed fresh bare).eq,
            read_of_goes (Front.adds found closed (fun dashes => absurd dashes other) bare').eq]
          refine ih _ (shorter _) (alikeKept.add alike _ _) (fun differ opens => ?_) rfl
          rw [Progress.place_add closed, Progress.place_add closed] at differ
          obtain ⟨before, blank⟩ := differ.before
          exact plain before (.cons found blank opens)
    · have fresh : q.place.fresh = p.place.fresh :=
        Bool.eq_iff_iff.2 ⟨fun isFresh => Bool.of_not_eq_false fun stale => differ ⟨isFresh, stale⟩,
          alike.place.fresh⟩
      exact (alikeSteps.read ⟨alike, fresh⟩ cs).imp And.left

/-- Where a comment opens the line of a mark, the two readings part: one has a comment where the
other has a hyphen. -/
theorem read_parts (alike : Alike q p) (differ : Differ q.place p.place)
    (opens : OpensWithComment cs) (reads : read cs q = .ok q') (reads' : read cs p = .ok p') :
    ¬List.Forall₂ (Token.Later 3) q'.tokens p'.tokens := by
  obtain ⟨blank, rest, rfl, white, last⟩ := opens
  induction length : blank.length using Nat.strongRecOn generalizing blank q p with
  | _ length ih =>
  subst length
  cases blank with
  | nil =>
    rw [List.nil_append] at reads reads'
    rw [read_dashes_fresh rfl differ.1] at reads
    rw [read_dashes rfl differ.2] at reads'
    cases inner : read (('-' :: rest).take (restOfLine ('-' :: rest))).tail p.hyphens with
    | error e =>
      rw [inner] at reads'
      cases reads'
    | ok middle =>
      rw [inner] at reads'
      obtain ⟨later, same⟩ := (reads_of_read reads).suffix
      obtain ⟨later', same'⟩ := (reads_of_read inner).suffix.trans (reads_of_read reads').suffix
      intro all
      have kinds := kinds_of_later all
      rw [← same, ← same', List.map_append, List.map_append] at kinds
      change _ ++ .symbol '-' :: .symbol '-' :: p.tokens.map Token.kind =
        _ ++ .comment .generator :: q.tokens.map Token.kind at kinds
      rw [kinds_of_later alike.tokens, List.append_cons, List.append_cons,
        List.append_cons (later.map Token.kind), List.append_cancel_right_eq] at kinds
      cases (List.append_inj' kinds rfl).2
  | cons c blank =>
    have here := (white c (.head _)).1
    -- the readings go on alike behind white space
    have next {n : Nat} {q₁ p₁ : Progress} (le : n ≤ blank.length) (alike : Alike q₁ p₁)
        (place : q₁.place = q.place.after (c :: blank.take n))
        (place' : p₁.place = p.place.after (c :: blank.take n))
        (reads : read ((blank ++ '-' :: '-' :: rest).drop n) q₁ = .ok q')
        (reads' : read ((blank ++ '-' :: '-' :: rest).drop n) p₁ = .ok p') :
        ¬List.Forall₂ (Token.Later 3) q'.tokens p'.tokens := by
      have passed : ∀ d ∈ c :: blank.take n, Text.isWhiteSpace d = true ∧ d ≠ '\n' :=
        fun d member => white d (List.mem_of_mem_take (i := n + 1) member)
      rw [List.drop_append_of_le_length le] at reads reads'
      refine ih _ ?_ alike ?_ (blank.drop n) reads reads' ?_ ?_ rfl
      · rw [List.length_drop, List.length_cons]
        omega
      · rw [Differ, place, place', fresh_after_blank passed, fresh_after_blank passed]
        exact differ
      · exact fun d member => white d (.tail _ (List.mem_of_mem_drop member))
      · intro d member
        rw [List.getLast?_drop] at member
        split at member
        · cases member
        · exact last d (List.mem_getLast?_cons member)
    have front {n : Nat} (le : n ≤ blank.length) :
        (blank ++ '-' :: '-' :: rest).take n = blank.take n := List.take_append_of_le_length le
    rw [List.cons_append] at reads reads'
    rcases first_of_white here (blank ++ '-' :: '-' :: rest) with
      ⟨-, -, found⟩ | ⟨beyond, kind, other, found⟩ | ⟨-, found⟩
    · rw [run_append_of_stops (by rintro _ ⟨⟩; rfl)] at found
      have le := run_le isSkipped blank
      rw [read_blank found, front le] at reads reads'
      exact next le (alikeKept.pass alike _) rfl rfl reads reads'
    · -- the word ends before the last blank
      obtain ⟨x, final⟩ : ∃ x, blank.getLast? = some x := by
        cases blank with
        | nil =>
          have ascii := last c rfl
          rw [beyond] at ascii
          cases ascii
        | cons d blank => exact ⟨_, List.getLast?_cons⟩
      have inside := List.mem_of_getLast? final
      have ascii := last x (List.mem_getLast?_cons final)
      rw [run_append_of_mem inside
        (isIdentifierPart_of_white (white x (.tail _ inside)).1 ascii)] at found
      have le := run_le isIdentifierPart blank
      rw [read_lexeme found other, front le] at reads reads'
      exact next le (alikeKept.push alike _ _) rfl rfl reads reads'
    · rw [read_unknown found, front (Nat.zero_le _)] at reads reads'
      exact next (Nat.zero_le _) (alikeKept.skip alike _) rfl rfl reads reads'

end Lockstep

section Sources

variable {cs : List Char} {source : String}

theorem run_cons {p : Char → Bool} {c : Char} (h : p c = true) (cs : List Char) :
    run p (c :: cs) = run p cs + 1 := by simp [run, h]

/-- White space that a mark goes with is passed as a whole, marks and all. -/
theorem first_of_passesMark {c : Char} (passes : PassesMark (c :: cs)) :
    first c cs = (.blank, run isSkipped cs) := by
  unfold PassesMark at passes
  have skipped : isSkipped c = true := by
    cases skips : isSkipped c with
    | true => rfl
    | false =>
      rw [show run isSkipped (c :: cs) = 0 by simp [run, skips]] at passes
      cases passes
  unfold first
  rw [if_pos skipped]
  refine if_neg ?_
  rw [Bool.and_eq_true, decide_eq_true_eq]
  rintro ⟨beyond, le⟩
  rw [run_cons skipped, run_cons (isIdentifierPart_of_isBeyondAscii beyond)] at passes
  omega

theorem read_mark (passes : PassesMark cs) (p : Progress) :
    read (byteOrderMark :: cs) p = read cs (p.pass [byteOrderMark]) := by
  have mark : first byteOrderMark cs = (.blank, run isSkipped cs) := by
    apply first_of_passesMark
    unfold PassesMark at passes ⊢
    rw [run_cons rfl, run_cons rfl]
    omega
  cases cs with
  | nil => cases passes
  | cons c cs =>
    have whole : run isSkipped (c :: cs) = run isSkipped cs + 1 := by
      refine run_cons ((formed_of_first (first_of_passesMark passes)).blank rfl c (.head _)) cs
    rw [read_blank mark, read_blank (first_of_passesMark passes), Progress.pass_pass, whole,
      List.drop_succ_cons, List.take_succ_cons]
    rfl

theorem read_markedWord (begins : ¬PassesMark cs) (p : Progress) : ∃ kind,
    read (byteOrderMark :: cs) p = read (cs.drop (run isIdentifierPart cs))
      (p.push kind (byteOrderMark :: cs.take (run isIdentifierPart cs))) := by
  have word : first byteOrderMark cs =
      (identifier (String.ofList (byteOrderMark :: cs.take (run isIdentifierPart cs))),
        run isIdentifierPart cs) := by
    unfold first
    rw [if_pos (show isSkipped byteOrderMark = true from rfl)]
    refine if_pos ?_
    rw [Bool.and_eq_true, decide_eq_true_eq]
    exact ⟨rfl, Nat.le_of_not_lt begins⟩
  unfold identifier at word
  split at word
  · exact ⟨_, read_lexeme word (by simp) p⟩
  · exact ⟨_, read_lexeme word (by simp) p⟩

theorem alike_mark : Alike {} (({} : Progress).pass [byteOrderMark]) :=
  ⟨⟨by decide, by decide⟩, .nil⟩

theorem differ_mark : Differ ({} : Progress).place (({} : Progress).pass [byteOrderMark]).place :=
  ⟨by decide, by decide⟩

/-- If the tokens behind a mark are those of the source, the mark was white space and no comment
opens the first line. -/
theorem passesMark_of_later {q p : Progress} (reads : read cs {} = .ok q)
    (reads' : read (byteOrderMark :: cs) {} = .ok p)
    (all : List.Forall₂ (Token.Later 3) q.tokens p.tokens) :
    PassesMark cs ∧ ¬OpensWithComment cs := by
  have passes : PassesMark cs := by
    refine Classical.byContradiction fun begins => ?_
    -- the word that the mark begins stands where no token can have been moved to
    obtain ⟨kind, word⟩ := read_markedWord begins {}
    rw [word] at reads'
    have behind := le_start_of_later all _ ((reads_of_read reads').suffix.subset (.head _))
    cases behind
  refine ⟨passes, fun opens => ?_⟩
  rw [read_mark passes] at reads'
  exact read_parts alike_mark differ_mark opens reads reads' all

/-- A source is read alike with and without a mark that is white space, if no comment opens the
first line. -/
theorem read_of_passesMark (passes : PassesMark cs) (plain : ¬OpensWithComment cs) :
    Ends Alike (read cs {}) (read (byteOrderMark :: cs) {}) := by
  rw [read_mark passes]
  exact read_alike alike_mark fun _ => plain

/-- A byte order mark is ignored exactly if it is white space and no comment opens the first line,
or if reading fails for one cause with and without it. -/
theorem ignoresMark_iff (source : String) :
    IgnoresMark source ↔
      PassesMark source.toList ∧ ¬OpensWithComment source.toList ∨
        ∃ e e', ofSource source = .error e ∧ ofSource (marked source) = .error e' ∧
          e'.cause = e.cause := by
  have plain : ofSource source = (read source.toList {}).map fun p =>
      ⟨(p.push .eof []).tokens.reverse, p.skipped.reverse⟩ := rfl
  have later : ofSource (marked source) = (read (byteOrderMark :: source.toList) {}).map fun p =>
      ⟨(p.push .eof []).tokens.reverse, p.skipped.reverse⟩ := by
    rw [ofSource, marked, String.toList_ofList]
  unfold IgnoresMark
  rw [plain, later]
  have alike := @read_of_passesMark source.toList
  have parts := @passesMark_of_later source.toList
  cases reads : read source.toList {} with
  | ok q =>
    cases reads' : read (byteOrderMark :: source.toList) {} with
    | ok p =>
      rw [reads, reads'] at alike
      constructor
      · intro all
        have all' := List.forall₂_reverse_iff.1 all
        exact .inl (parts reads reads' (List.forall₂_cons.1 all').2)
      · rintro (⟨passes, plain⟩ | ⟨e, e', fails, -⟩)
        · cases alike passes plain with
          | ok alike => exact List.forall₂_reverse_iff.2 (alikeKept.push alike .eof []).tokens
        · cases fails
    | error e' =>
      rw [reads, reads'] at alike
      refine ⟨False.elim, ?_⟩
      rintro (⟨passes, plain⟩ | ⟨e, e', fails, -⟩)
      · cases alike passes plain
      · cases fails
  | error e =>
    cases reads' : read (byteOrderMark :: source.toList) {} with
    | ok p =>
      rw [reads, reads'] at alike
      refine ⟨False.elim, ?_⟩
      rintro (⟨passes, plain⟩ | ⟨e, e', -, fails, -⟩)
      · cases alike passes plain
      · cases fails
    | error e' =>
      rw [reads, reads'] at alike
      refine ⟨fun same => .inr ⟨e, e', rfl, rfl, same⟩, ?_⟩
      rintro (⟨passes, plain⟩ | ⟨_, _, ⟨⟩, ⟨⟩, same⟩)
      · cases alike passes plain
        rfl
      · exact same

/-- A mark before a word becomes part of it. -/
example : (ofSource (marked "div")).toOption.map (fun stream => stream.tokens.map Token.text) =
    some [marked "div", ""] := by decide +kernel

end Sources

end TokenStream

end TemplateMarkup
