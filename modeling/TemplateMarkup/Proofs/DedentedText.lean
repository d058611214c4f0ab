import Mathlib.Data.List.Forall2
import Mathlib.Data.List.TakeWhile
import TemplateMarkup.Parsing.Origins
import TemplateMarkup.Proofs.SourceSlices

/-! The layout that a body keeps when its lines lose the indentation that they share. -/
namespace TemplateMarkup

namespace Text

theorem trimBack_append (a b : List Char) :
    trimBack (a ++ b) = if trimBack b = [] then trimBack a else a ++ trimBack b := by
  simp only [trimBack, List.reverse_append, List.dropWhile_append, List.isEmpty_iff,
    List.reverse_eq_nil_iff]
  split
  · rfl
  · rw [List.reverse_append, List.reverse_reverse]

theorem not_mem_of_mem_linesFrom {current cs line : List Char} (without : '\n' ∉ current)
    (mem : line ∈ linesFrom current cs) : '\n' ∉ line := by
  fun_induction linesFrom current cs with
  | case1 => cases mem
  | case2 => rwa [List.mem_singleton.1 mem, List.mem_reverse]
  | case3 current cs ih =>
    rcases List.mem_cons.1 mem with rfl | later
    · rw [List.mem_reverse]
      unfold dropReturn
      split
      · exact fun h => without (List.mem_cons_of_mem _ h)
      · exact without
    · exact ih List.not_mem_nil later
  | case4 current c cs other ih => exact ih (by simp [without, Ne.symm other]) mem

end Text

namespace SourceText

theorem dropBytes?_eq_none {n : Nat} {cs : List Char} (short : byteLength cs < n) :
    dropBytes? n cs = none := by
  induction cs generalizing n with
  | nil => exact if_neg (by omega)
  | cons c cs ih =>
    rw [byteLength_cons] at short
    rw [dropBytes?, if_neg (by omega), if_pos (by omega), ih (by omega)]

end SourceText

namespace Origin

open Text SourceText

variable {cs line blanks feed rest : List Char} {ls : List (List Char)} {indent : Nat}

/-- The white space at the front of a line is made of spaces and tabs. -/
def Indented (line : List Char) : Prop := ∀ c ∈ line.takeWhile isWhiteSpace, isIndent c

def leading (line : List Char) : Nat := (line.takeWhile isWhiteSpace).length

def Solid (line : List Char) : Prop := ∃ c ∈ line, isWhiteSpace c = false

instance : DecidablePred Indented := fun line =>
  decidable_of_iff ((line.takeWhile isWhiteSpace).all isIndent) List.all_eq_true

instance : DecidablePred Solid := fun line =>
  decidable_of_iff (line.any (!isWhiteSpace ·)) (by simp [Solid])

/-- What becomes of a line when `indent` blanks are taken from each. -/
inductive Dedents (indent : Nat) : List Char → List Char → Prop
  | loses {lead line : List Char} :
    (∀ c ∈ lead, isIndent c) → lead.length = indent → Dedents indent (lead ++ line) line
  | empties {line : List Char} :
    (∀ c ∈ line, isIndent c) → line.length < indent → Dedents indent line []

theorem Dedents.subset {line' : List Char} (dedents : Dedents indent line line') :
    line' ⊆ line := by
  cases dedents with
  | loses => exact List.subset_append_right _ _
  | empties => exact List.nil_subset _

theorem isWhiteSpace_of_isIndent {c : Char} (blank : isIndent c) : isWhiteSpace c := by
  rcases Bool.or_eq_true_iff.1 blank with h | h <;> rw [beq_iff_eq.1 h] <;> rfl

theorem byteLength_blank (blank : ∀ c ∈ cs, isIndent c) : byteLength cs = cs.length := by
  induction cs with
  | nil => rfl
  | cons c cs ih =>
    have one : c.utf8Size = 1 := by
      rcases Bool.or_eq_true_iff.1 (blank c List.mem_cons_self) with h | h <;>
        rw [beq_iff_eq.1 h] <;> rfl
    rw [byteLength_cons, one, ih fun d mem => blank d (List.mem_cons_of_mem _ mem),
      List.length_cons, Nat.add_comm]

theorem bodyLines_eq (blank : ∀ c ∈ blanks, isIndent c)
    (feeds : feed = ['\n'] ∨ feed = ['\r', '\n']) :
    bodyLines (blanks ++ (feed ++ rest)) = lines (trimBack rest) := by
  have white : trimBack (blanks ++ feed) = [] := by
    rw [trimBack, List.reverse_eq_nil_iff, List.dropWhile_eq_nil_iff]
    intro c mem
    rcases List.mem_append.1 (List.mem_reverse.1 mem) with mem | mem
    · exact isWhiteSpace_of_isIndent (blank c mem)
    · have all : feed.all isWhiteSpace := by rcases feeds with rfl | rfl <;> rfl
      exact List.all_eq_true.1 all c mem
  rw [bodyLines, ← List.append_assoc, trimBack_append]
  split
  · next none => rw [white, none]; rfl
  · rw [List.append_assoc, List.dropWhile_append_of_pos blank]
    rcases feeds with rfl | rfl <;> rfl

theorem leading_of_not_solid (hollow : ¬ Solid line) : line.takeWhile isWhiteSpace = line :=
  List.takeWhile_eq_self_iff.2 fun c mem => by
    rw [← Bool.not_eq_false]
    exact fun dark => hollow ⟨c, mem, dark⟩

theorem dedentLine_of_le (indented : Indented line) (le : indent ≤ leading line) :
    dedentLine indent line = line.drop indent ∧
      ∀ c ∈ line.take indent, isIndent c := by
  have part : line.take indent <+: line.takeWhile isWhiteSpace := by
    refine List.prefix_of_prefix_length_le (List.take_prefix _ _) (List.takeWhile_prefix _) ?_
    rw [List.length_take]
    exact Nat.le_trans (Nat.min_le_left _ _) le
  have blank : ∀ c ∈ line.take indent, isIndent c := fun c mem => indented c (part.subset mem)
  have long : indent ≤ line.length := Nat.le_trans le (List.takeWhile_prefix _).length_le
  have dropped := dropBytes?_append (line.take indent) (line.drop indent)
  rw [List.take_append_drop, byteLength_blank blank, List.length_take_of_le long] at dropped
  exact ⟨by rw [dedentLine, dropped]; rfl, blank⟩

theorem dedents_dedentLine (indented : Indented line)
    (least : Solid line → indent ≤ leading line) :
    Dedents indent line (dedentLine indent line) := by
  by_cases le : indent ≤ leading line
  · obtain ⟨same, blank⟩ := dedentLine_of_le indented le
    have long : indent ≤ line.length := Nat.le_trans le (List.takeWhile_prefix _).length_le
    have loses : Dedents indent (line.take indent ++ line.drop indent) (line.drop indent) :=
      .loses blank (List.length_take_of_le long)
    rwa [List.take_append_drop, ← same] at loses
  · have all := leading_of_not_solid fun solid => le (least solid)
    rw [Indented, all] at indented
    rw [leading, all] at le
    have gone : dedentLine indent line = [] := by
      rw [dedentLine, dropBytes?_eq_none (by rw [byteLength_blank indented]; omega)]
      exact List.dropWhile_eq_nil_iff.2 fun c mem => isWhiteSpace_of_isIndent (indented c mem)
    rw [gone]
    exact .empties indented (by omega)

/-- The shared indentation is the least one of the lines that are not blank. -/
theorem commonIndentation_spec (indented : ∀ line ∈ ls, Indented line) :
    (∀ line ∈ ls, Solid line → commonIndentation ls ≤ leading line) ∧
      ∀ line ∈ ls, Solid line →
        ∃ line ∈ ls, Solid line ∧ leading line = commonIndentation ls := by
  have solid : ∀ line, line ∈ (ls.filter fun line => !line.all isWhiteSpace) ↔
      line ∈ ls ∧ Solid line := by simp [Solid]
  have measured : ∀ line ∈ ls, indentation line = leading line := fun line mem =>
    byteLength_blank (indented line mem)
  rw [commonIndentation]
  cases found : ((ls.filter fun line => !line.all isWhiteSpace).map indentation).min? with
  | none =>
    rw [List.min?_eq_none_iff, List.map_eq_nil_iff] at found
    have none : ∀ line ∈ ls, ¬ Solid line := fun line mem h =>
      List.not_mem_nil (found ▸ (solid line).2 ⟨mem, h⟩)
    exact ⟨fun line mem h => (none line mem h).elim, fun line mem h => (none line mem h).elim⟩
  | some least =>
    obtain ⟨mem, le⟩ := List.min?_eq_some_iff.1 found
    obtain ⟨line, kept, rfl⟩ := List.mem_map.1 mem
    obtain ⟨mem, h⟩ := (solid line).1 kept
    refine ⟨fun other mem' h' => ?_, fun _ _ _ => ⟨line, mem, h, (measured line mem).symm⟩⟩
    rw [← measured other mem']
    exact le _ (List.mem_map_of_mem ((solid other).2 ⟨mem', h'⟩))

theorem head?_dedentLine (indented : Indented line) (solid : Solid line) :
    ∃ c ∈ (dedentLine (leading line) line).head?, isWhiteSpace c = false := by
  rw [(dedentLine_of_le indented (Nat.le_refl _)).1]
  have dropped : (line.takeWhile isWhiteSpace ++ line.dropWhile isWhiteSpace).drop (leading line) =
      line.dropWhile isWhiteSpace := List.drop_left
  obtain ⟨c, mem, dark⟩ := solid
  have some : line.dropWhile isWhiteSpace ≠ [] := fun none => by
    rw [List.dropWhile_eq_nil_iff.1 none c mem] at dark
    cases dark
  rw [List.takeWhile_append_dropWhile] at dropped
  rw [dropped, List.head?_eq_some_head some]
  exact ⟨_, rfl, by simpa using List.head_dropWhile_not isWhiteSpace some⟩

/-- Dedenting keeps the lines of a body that starts on a line of its own: each loses the blanks
that all lines with text share, and a line with fewer is left empty. -/
theorem dedent_layout (blank : ∀ c ∈ blanks, isIndent c)
    (feeds : feed = ['\n'] ∨ feed = ['\r', '\n'])
    (indented : ∀ line ∈ lines (trimBack rest), Indented line) :
    ∃ (indent : Nat) (dedented : List (List Char)),
      (∀ line ∈ lines (trimBack rest), Solid line → indent ≤ leading line) ∧
      dedent (String.ofList (blanks ++ (feed ++ rest))) =
        "\n".intercalate (dedented.map String.ofList) ∧
      (∀ line ∈ dedented, '\n' ∉ line) ∧
      List.Forall₂ (Dedents indent) (lines (trimBack rest)) dedented ∧
      ((∃ line ∈ lines (trimBack rest), Solid line) →
        (∃ line ∈ lines (trimBack rest), Solid line ∧ leading line = indent) ∧
        ∃ line ∈ dedented, ∃ c ∈ line.head?, isWhiteSpace c = false) := by
  obtain ⟨least, attained⟩ := commonIndentation_spec indented
  generalize split : lines (trimBack rest) = ls at *
  refine ⟨_, ls.map (dedentLine (commonIndentation ls)), least, ?_, ?_, ?_, ?_⟩
  · rw [dedent, String.toList_ofList, bodyLines_eq blank feeds, split, List.map_map]
    rfl
  · intro _ mem back
    obtain ⟨line, own, rfl⟩ := List.mem_map.1 mem
    refine not_mem_of_mem_linesFrom List.not_mem_nil (?_ : line ∈ lines (trimBack rest))
      ((dedents_dedentLine (indented line own) (least line own)).subset back)
    rwa [split]
  · rw [List.forall₂_map_right_iff, List.forall₂_same]
    exact fun line mem => dedents_dedentLine (indented line mem) (least line mem)
  · rintro ⟨some, mem, solid⟩
    obtain ⟨line, mem, solid, same⟩ := attained some mem solid
    refine ⟨⟨line, mem, solid, same⟩, _, List.mem_map_of_mem mem, ?_⟩
    rw [← same]
    exact head?_dedentLine (indented line mem) solid

theorem dedent_layout_boxes : ∃ (indent : Nat) (dedented : List (List Char)),
    dedent "\t\r\n    Box\n \n\t  \t- Box\r\n    end\n  " =
      "\n".intercalate (dedented.map String.ofList) ∧
    List.Forall₂ (Dedents indent)
      ["    Box".toList, [' '], "\t  \t- Box".toList, "    end".toList] dedented ∧
    ∃ line ∈ dedented, ∃ c ∈ line.head?, isWhiteSpace c = false := by
  obtain ⟨indent, dedented, -, joined, -, lost, first⟩ := @dedent_layout ['\t'] ['\r', '\n']
    "    Box\n \n\t  \t- Box\r\n    end\n  ".toList (List.all_eq_true.1 rfl)
    (.inr rfl) (by decide)
  exact ⟨indent, dedented, joined, lost, (first (by decide)).2⟩

end Origin

end TemplateMarkup
