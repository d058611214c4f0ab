import TemplateMarkup.Proofs.SpacedHyphens

/-! Lines by themselves. A text that is read without foreign text may be cut behind a line: what
stands behind the cut is read as a text of its own, and only its places are counted on. -/
namespace TemplateMarkup

/-- How far a text stands behind the front of a larger one. -/
structure Shift where
  bytes : Nat
  lines : Nat

def Span.moved (d : Shift) (span : Span) : Span :=
  { start := d.bytes + span.start
    stop := d.bytes + span.stop
    line := d.lines + span.line
    column := span.column }

def Token.moved (d : Shift) (token : Token) : Token := { token with span := token.span.moved d }

def SkippedText.moved (d : Shift) (s : SkippedText) : SkippedText :=
  { s with line := d.lines + s.line }

def LexError.moved (d : Shift) (e : LexError) : LexError := { e with line := d.lines + e.line }

namespace TokenStream
open Lexeme SourceText

/-- The tokens of a text without its end, and behind them those of another. -/
def andBehind (s : TokenStream) (d : Shift) (t : TokenStream) : TokenStream where
  tokens := s.tokens.dropLast ++ t.tokens.map (.moved d)
  skipped := s.skipped ++ t.skipped.map (.moved d)

variable {d : Shift} {cs tail : List Char} {q p m : Progress}

section Cutting

theorem opensOrigin_eq_false (plain : ∀ token ∈ p.tokens, token.kind ≠ .block .origin) :
    p.opensOrigin = false := by
  unfold Progress.opensOrigin
  split
  case h_1 same | h_2 same =>
    have member : TokenKind.block .origin ∈ (p.tokens.take 3).map Token.kind := by simp [same]
    obtain ⟨token, there, origin⟩ := List.mem_map.1 member
    exact absurd origin (plain token (List.mem_of_mem_take there))
  case h_3 => rfl

theorem read_blank_line {c : Char} (all : ∀ x ∈ c :: cs, isSkipped x) (noMark : c ≠ byteOrderMark)
    (ends : EndsLine tail) (p : Progress) :
    read (c :: cs ++ tail) p = read tail (p.pass (c :: cs)) := by
  rw [List.cons_append, read_blank (first_blank (all c (.head _)) noMark _),
    run_append_of_all fun x member => all x (.tail _ member), read_tail ends, Progress.pass_pass,
    List.drop_length_add_append, List.take_length_add_append, List.cons_append]

/-- What is read up to the end of a line does not depend on the lines below, if no foreign text may
begin. -/
theorem read_append (ends : EndsLine tail) (noMark : byteOrderMark ∉ cs)
    (plain : ∀ token ∈ m.tokens, token.kind ≠ .block .origin) (done : read cs p = .ok m) :
    read (cs ++ tail) p = read tail m := by
  induction length : cs.length using Nat.strong_induction_on generalizing cs p with
  | _ n ih =>
    subst length
    have closed : p.opensOrigin = false := opensOrigin_eq_false fun token member =>
      plain token ((reads_of_read done).suffix.subset member)
    cases cs with
    | nil =>
      unfold read at done
      cases done
      rfl
    | cons c cs =>
      have noMark' : byteOrderMark ∉ cs := fun member => noMark (.tail _ member)
      have way := front p c cs
      generalize here : stride p (c :: cs) = s at way
      cases way with
      | fails found =>
        rw [read_of_fails here] at done
        cases done
      | @splits n found stale =>
        obtain ⟨split, single, ends', -⟩ := text_of_splits here
        rw [read_of_splits here] at done
        generalize (cs.take n).tail = line at split single done
        generalize cs.drop n = rest at split ends' done
        rw [split] at noMark ih ⊢
        have both : EndsLine (rest ++ tail) := by
          cases rest with
          | nil => exact ends
          | cons d rest => exact ends'
        have long := stride_dashes single both stale
        rw [← List.append_assoc] at long
        have whole := read_of_splits long
        cases inner : read line p.hyphens with
        | error e =>
          rw [inner] at done
          cases done
        | ok middle =>
          rw [inner] at done whole
          refine whole.trans (ih _ ?_ (fun member => noMark ?_) done rfl)
          · simp only [List.length_cons, List.length_append]
            omega
          · exact .tail _ (.tail _ (List.mem_append_right _ member))
      | foreign brace opens body => exact absurd opens (by simp [closed])
      | @adds lexeme n found closed' fresh body =>
        cases atLineEnd c cs ends with
        | same eq =>
          have le : n ≤ cs.length := by
            have le := first_le c cs
            rwa [found] at le
          have body' : p.body? lexeme (cs ++ tail) = none := by simp [Progress.body?, closed]
          have long := (Front.adds (eq.trans found) closed' fresh body').eq
          rw [List.take_append_of_le_length le, List.drop_append_of_le_length le] at long
          rw [read_of_goes here] at done
          rw [List.cons_append, read_of_goes long]
          refine ih _ ?_ (fun member => noMark' (List.mem_of_mem_drop member)) done rfl
          rw [List.length_drop, List.length_cons]
          omega
        | blank all =>
          have noMark : c ≠ byteOrderMark := fun same => noMark (same ▸ .head _)
          have alone := read_blank_line all noMark (by simp [EndsLine] : EndsLine []) p
          rw [List.append_nil, done] at alone
          rw [read_blank_line all noMark ends]
          unfold read at alone
          cases alone
          rfl
        | left cause opened =>
          rw [found] at opened
          cases opened
          cases closed'

theorem read_feed (noMark : tail.head? ≠ some byteOrderMark) (p : Progress) :
    read ('\n' :: tail) p = read tail (p.pass ['\n']) := by
  rw [read_tail (by simp [EndsLine]),
    show run isSkipped ('\n' :: tail) = run isSkipped tail + 1 from rfl]
  cases tail with
  | nil => rfl
  | cons c tail =>
    cases skipped : isSkipped c with
    | true =>
      have length : run isSkipped (c :: tail) = run isSkipped tail + 1 := by simp [run, skipped]
      rw [read_blank (first_blank skipped (fun same => noMark (by rw [same]; rfl)) tail),
        Progress.pass_pass, length]
      rfl
    | false =>
      have length : run isSkipped (c :: tail) = 0 := by simp [run, skipped]
      rw [length]
      rfl

end Cutting

section Moving

/-- A place behind others, and the same place when they are left out. -/
structure Shifted (d : Shift) (q p : Place) : Prop where
  offset : p.offset = d.bytes + q.offset
  line : p.line = d.lines + q.line
  column : p.column = q.column
  fresh : q.fresh = p.fresh

theorem Shifted.after {q p : Place} (shifted : Shifted d q p) (text : List Char) :
    Shifted d (q.after text) (p.after text) := by
  unfold Place.after
  induction text generalizing q p with
  | nil => exact shifted
  | cons c text ih =>
    refine ih ?_
    obtain ⟨offset, line, column, fresh⟩ := shifted
    unfold Place.next
    split
    · exact ⟨by dsimp only; omega, by dsimp only; omega, rfl, rfl⟩
    · exact ⟨by dsimp only; omega, line, by dsimp only; omega, by dsimp only; rw [fresh]⟩

/-- What has been read of a text behind `m`, and what has been read of it by itself. -/
structure Behind (d : Shift) (m q p : Progress) : Prop where
  place : Shifted d q.place p.place
  tokens : p.tokens = q.tokens.map (.moved d) ++ m.tokens
  skipped : p.skipped = q.skipped.map (.moved d) ++ m.skipped

theorem behindSteps (plain : ∀ token ∈ m.tokens, token.kind ≠ .block .origin) :
    Lockstep (Behind d m) where
  fresh behind := behind.place.fresh
  opensOrigin {q p} behind := by
    obtain ⟨-, tokens, -⟩ := behind
    unfold Progress.opensOrigin
    rw [tokens]
    generalize q.tokens = own
    generalize m.tokens = earlier at plain
    -- three tokens are looked at, and those before the text have no block word of an origin
    rcases own with _ | ⟨a, _ | ⟨b, _ | ⟨c, rest⟩⟩⟩ <;>
      rcases earlier with _ | ⟨x, _ | ⟨y, _ | ⟨z, zs⟩⟩⟩ <;> simp [Token.moved] <;> grind
  pass behind text := ⟨behind.place.after text, behind.tokens, behind.skipped⟩
  skip {q p} behind text := by
    refine ⟨behind.place.after text, behind.tokens, ?_⟩
    simp only [Progress.skip, behind.skipped, behind.place.line, behind.place.column,
      SkippedText.moved, List.map_cons, List.cons_append]
  push {q p} behind kind text := by
    refine ⟨behind.place.after text, ?_, behind.skipped⟩
    simp only [Progress.push, Place.spanOf, behind.tokens, behind.place.offset, behind.place.line,
      behind.place.column, (behind.place.after text).offset, Token.moved, Span.moved,
      List.map_cons, List.cons_append]

end Moving

/-- A text, a line feed and another text are read as the two texts are, if the first is read
without error and without a block word that may make text foreign. -/
theorem ofSource_lines (a b : String) {s : TokenStream} (noMark : byteOrderMark ∉ a.toList)
    (noMark' : b.toList.head? ≠ some byteOrderMark) (done : ofSource a = .ok s)
    (plain : ∀ token ∈ s.tokens, token.kind ≠ .block .origin) :
    let d : Shift := ⟨byteLength a.toList + 1, a.toList.count '\n' + 1⟩
    ofSource (a ++ "\n" ++ b) = ((ofSource b).map (s.andBehind d)).mapError (LexError.moved d) := by
  intro d
  obtain ⟨m, run, rfl⟩ := exists_read done
  have clean : ∀ token ∈ m.tokens, token.kind ≠ .block .origin := fun token member =>
    plain token (List.mem_reverse.2 (.tail _ member))
  have located : Located ([] ++ a.toList) m := Located.reads (reads_of_read run)
    ⟨⟨rfl, rfl, rfl⟩, by simp⟩
  rw [List.nil_append] at located
  have start : Behind d m {} (m.pass ['\n']) := by
    have feed := located.follows.next '\n'
    refine ⟨⟨feed.offset.trans ?_, feed.line.trans ?_, rfl, rfl⟩, rfl, rfl⟩
    · rw [byteLength_append]
      rfl
    · rw [List.count_append, Nat.add_comm]
      rfl
  have ends := (behindSteps clean).read start b.toList
  have whole : read (a ++ "\n" ++ b).toList {} = read b.toList (m.pass ['\n']) := by
    rw [← read_feed noMark', String.toList_append, String.toList_append, List.append_assoc]
    exact read_append (by simp [EndsLine]) noMark clean run
  unfold ofSource
  rw [whole]
  generalize read b.toList {} = left at ends
  generalize read b.toList (m.pass ['\n']) = right at ends
  cases ends with
  | ok behind =>
    have last := ((behindSteps clean).push behind .eof []).tokens
    simp [Except.map, Except.mapError, andBehind, last, behind.skipped, m.tokens_push_eof]
  | @error q p behind cause =>
    simp [Except.map, Except.mapError, Progress.fail, LexError.moved, behind.place.line,
      behind.place.column]

/-- Two hyphens are symbols in the first line and begin a comment in the second. -/
theorem ofSource_lines_hyphens : ∃ s, ofSource "a -- 'b'" = .ok s ∧
    (∀ token ∈ s.tokens, token.kind ≠ .block .origin) ∧
      ofSource ("a -- 'b'" ++ "\n" ++ "-- c\n'd") =
        ((ofSource "-- c\n'd").map (s.andBehind ⟨9, 1⟩)).mapError (LexError.moved ⟨9, 1⟩) := by
  have fine : (ofSource "a -- 'b'").toOption.any
      (·.tokens.all fun token => token.kind ≠ .block .origin) = true := by decide +kernel
  obtain ⟨s, found, plain⟩ := (Option.any_eq_true _ _).1 fine
  have plain : ∀ token ∈ s.tokens, token.kind ≠ .block .origin := fun token member =>
    of_decide_eq_true (List.all_eq_true.1 plain token member)
  have done := ofSource_of_toOption found
  exact ⟨s, done, plain, ofSource_lines _ _ (by decide) (by decide) done plain⟩

end TokenStream

end TemplateMarkup
