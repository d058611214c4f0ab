import Mathlib.Data.List.TakeWhile
import TemplateMarkup.Proofs.BraceReading

/-! What reading does at the lexeme in front, one equation for each kind of lexeme. -/
namespace TemplateMarkup

namespace Lexeme

variable {c : Char} {cs ds : List Char} {p : Char → Bool}

theorem run_le (p : Char → Bool) (cs : List Char) : run p cs ≤ cs.length :=
  (List.takeWhile_prefix p).length_le

/-- A run does not go on behind a character that ends it. -/
theorem run_append_of_stops (stops : ∀ d ∈ ds.head?, p d = false) : run p (cs ++ ds) = run p cs := by
  have none : ds.takeWhile p = [] := by
    cases ds with
    | nil => rfl
    | cons d ds => rw [List.takeWhile_cons, if_neg (by simp [stops d rfl])]
  unfold run
  rw [List.takeWhile_append, none, List.append_nil]
  split
  · next all => rw [← all]
  · rfl

/-- Nor behind one inside the text. -/
theorem run_append_of_mem {x : Char} (member : x ∈ cs) (stops : p x = false) :
    run p (cs ++ ds) = run p cs := by
  unfold run
  rw [List.takeWhile_append, if_neg]
  intro all
  have whole : cs.takeWhile p = cs := (List.takeWhile_prefix p).eq_of_length all
  rw [← whole] at member
  exact absurd (List.all_eq_true.1 List.all_takeWhile x member) (by simp [stops])

/-- Behind a run stands something that does not go on with it. -/
theorem head?_drop_run {x : Char} (next : (cs.drop (run p cs)).head? = some x) :
    p x = false := by
  have split := List.takeWhile_append_dropWhile (p := p) (l := cs)
  have rest : cs.drop (run p cs) = cs.dropWhile p :=
    (congrArg (List.drop (run p cs)) split).symm.trans List.drop_left
  rw [rest] at next
  have := List.head?_dropWhile_not p cs
  rw [next] at this
  simpa using this

theorem isBeyondAscii_of_isSkipped (skipped : isSkipped c) (noMark : c ≠ byteOrderMark) :
    isBeyondAscii c = false := by
  unfold isSkipped at skipped
  simp only [Bool.or_eq_true, beq_iff_eq, noMark, or_false] at skipped
  rcases skipped with ((((rfl | rfl) | rfl) | rfl) | rfl) <;> decide

theorem first_blank (skipped : isSkipped c) (noMark : c ≠ byteOrderMark) (cs : List Char) :
    first c cs = (.blank, run isSkipped cs) := by
  unfold first
  rw [if_pos skipped, isBeyondAscii_of_isSkipped skipped noMark]
  rfl

end Lexeme

namespace TokenStream
open Lexeme

variable {cs : List Char} {p p' : Progress}

theorem fresh_next (p : Place) (c : Char) :
    (p.next c).fresh = (c == '\n' || p.fresh && Text.isWhiteSpace c) := by
  unfold Place.next
  split
  · next feed =>
    subst feed
    rfl
  · next inLine => simp [inLine]

theorem Progress.pass_pass (p : Progress) (a b : List Char) :
    (p.pass a).pass b = p.pass (a ++ b) := by
  unfold pass Place.after
  rw [List.foldl_append]

theorem Reads.suffix (run : Reads cs p p') : p.tokens <:+ p'.tokens := by
  induction run with
  | done => exact List.suffix_refl _
  | pass _ _ ih | skip _ ih => exact ih
  | push _ _ _ _ ih => exact (List.suffix_cons _ _).trans ih

section Steps

variable {c : Char} {n : Nat}

theorem read_lexeme {kind : TokenKind} (found : first c cs = (.token kind, n))
    (other : kind ≠ .leftBrace) (p : Progress) :
    read (c :: cs) p = read (cs.drop n) (p.push kind (c :: cs.take n)) := by
  conv => lhs; unfold read
  simp only [found]

theorem read_unterminated {cause : Unterminated} (found : first c cs = (.unterminated cause, n))
    (p : Progress) : read (c :: cs) p = .error (p.fail cause) := by
  unfold read
  simp only [found]

theorem first_brace (cs : List Char) : first '\x7b' cs = (.token .leftBrace, 0) := rfl

/-- What has been read when a brace opens here. -/
def Progress.opened (p : Progress) : Progress := p.push .leftBrace ['\x7b']

/-- What has been read when a brace opens foreign text here. -/
def Progress.enclosed (p : Progress) (text : List Char) : Progress :=
  (p.opened.push .rawText text).push .rightBrace ['\x7d']

theorem read_foreign {k : Nat} (opens : p.opensOrigin = true) (body : bodyLength? 0 cs = some k) :
    read ('\x7b' :: cs) p = read (cs.drop (k + 1)) (p.enclosed (cs.take k)) := by
  conv => lhs; unfold read
  simp only [first_brace, opens, body, if_true]
  rfl

theorem read_brace (plain : p.opensOrigin = true → bodyLength? 0 cs = none) :
    read ('\x7b' :: cs) p = read cs p.opened := by
  conv => lhs; unfold read
  simp only [first_brace]
  cases opens : p.opensOrigin with
  | true =>
    simp only [plain opens, if_true]
    rfl
  | false => rfl

theorem read_dashes_fresh (found : first c cs = (.dashes, n)) (fresh : p.place.fresh = true) :
    read (c :: cs) p = read (cs.drop n) (p.push (.comment .generator) (c :: cs.take n)) := by
  conv => lhs; unfold read
  simp only [found, fresh, if_true]

/-- What has been read when two hyphens stand here. -/
def Progress.hyphens (p : Progress) : Progress :=
  (p.push (.symbol '-') ['-']).push (.symbol '-') ['-']

theorem read_dashes (found : first c cs = (.dashes, n)) (stale : p.place.fresh = false) :
    read (c :: cs) p =
      (read (cs.take n).tail p.hyphens).bind fun middle => read (cs.drop n) middle := by
  conv => lhs; unfold read
  simp only [found, stale, Bool.false_eq_true, if_false]
  unfold Progress.hyphens
  cases read (cs.take n).tail ((p.push (.symbol '-') ['-']).push (.symbol '-') ['-']) <;> rfl

theorem read_blank (found : first c cs = (.blank, n)) (p : Progress) :
    read (c :: cs) p = read (cs.drop n) (p.pass (c :: cs.take n)) := by
  conv => lhs; unfold read
  simp only [found]

theorem read_unknown (found : first c cs = (.unknown, n)) (p : Progress) :
    read (c :: cs) p = read (cs.drop n) (p.skip (c :: cs.take n)) := by
  conv => lhs; unfold read
  simp only [found]

end Steps

end TokenStream

end TemplateMarkup
