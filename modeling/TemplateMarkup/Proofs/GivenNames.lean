import Mathlib.Data.List.Nodup
import Mathlib.Data.List.Induction
import TemplateMarkup.Proofs.OrderedMapLookup
import TemplateMarkup.SymbolTable

/-! Names that are given to elements. A base is numbered from the second time on, so two names are
the same only where one base is another base with a number behind it. -/
namespace TemplateMarkup

namespace SymbolTable

/-- The name for a base that has been asked for so often before. -/
def numbered (base : String) (count : Nat) : String :=
  if count = 0 then base else base ++ toString count

section Numerals

/-- What a numeral begins with is a numeral, of a number that is no larger. -/
theorem exists_toDigits_of_append {front back : List Char} {n : Nat} (nonempty : front ≠ [])
    (pos : 0 < n) (h : front ++ back = Nat.toDigits 10 n) :
    ∃ m, 0 < m ∧ m ≤ n ∧ front = Nat.toDigits 10 m := by
  induction back using List.reverseRecOn generalizing n with
  | nil => exact ⟨n, pos, Nat.le_refl n, by simpa using h⟩
  | append_singleton back c ih =>
    rw [Nat.toDigits_eq_if (by omega)] at h
    split at h
    · have length := congrArg List.length h
      have := List.length_pos_iff.2 nonempty
      simp at length
      omega
    · rw [← List.append_assoc] at h
      obtain ⟨m, positive, le, same⟩ := ih (by omega) (List.append_inj_left' h rfl)
      exact ⟨m, positive, by omega, same⟩

/-- What stands behind the base. -/
private def digitsOf (count : Nat) : List Char :=
  if count = 0 then [] else Nat.toDigits 10 count

private theorem toList_numbered (base : String) (count : Nat) :
    (numbered base count).toList = base.toList ++ digitsOf count := by
  unfold numbered digitsOf
  split <;> simp [Nat.toString_eq_repr, Nat.toList_repr]

private theorem digitsOf_injective {m n : Nat} (h : digitsOf m = digitsOf n) : m = n := by
  have value (k : Nat) : Nat.ofDigitChars 10 (digitsOf k) 0 = k := by
    unfold digitsOf
    split <;> simp_all [Nat.ofDigitChars_toDigits, Nat.ofDigitChars_nil]
  rw [← value m, h, value]

/-- A base that goes on where another ends goes on with one of its numbers. -/
private theorem eq_append_of_digits {a b : String} {more : List Char} {m n : Nat}
    (longer : b.toList = a.toList ++ more) (same : digitsOf m = more ++ digitsOf n) :
    a = b ∧ m = n ∨ ∃ k, 0 < k ∧ k ≤ m ∧ b = a ++ toString k := by
  by_cases none : more = []
  · subst none
    left
    exact ⟨String.toList_inj.1 (by simpa using longer.symm),
      digitsOf_injective (by simpa using same)⟩
  · right
    have pos : 0 < m := by
      rcases Nat.eq_zero_or_pos m with rfl | pos
      · simp [digitsOf, none] at same
      · exact pos
    rw [digitsOf, if_neg (by omega)] at same
    obtain ⟨k, positive, le, numeral⟩ := exists_toDigits_of_append none pos same.symm
    refine ⟨k, positive, le, String.toList_inj.1 ?_⟩
    simp [longer, numeral, Nat.toString_eq_repr, Nat.toList_repr]

theorem numbered_eq {a b : String} {m n : Nat} (h : numbered a m = numbered b n) :
    a = b ∧ m = n ∨ (∃ k, 0 < k ∧ k ≤ m ∧ b = a ++ toString k) ∨
      ∃ k, 0 < k ∧ k ≤ n ∧ a = b ++ toString k := by
  have lists := congrArg String.toList h
  simp only [toList_numbered] at lists
  rcases List.append_eq_append_iff.1 lists with ⟨more, longer, same⟩ | ⟨more, longer, same⟩
  · rcases eq_append_of_digits longer same with both | shifted
    · exact .inl both
    · exact .inr (.inl shifted)
  · rcases eq_append_of_digits longer same with ⟨rfl, rfl⟩ | shifted
    · exact .inl ⟨rfl, rfl⟩
    · exact .inr (.inr shifted)

end Numerals

section Occurrences

/-- The bases, each with the number of times it was asked for before. -/
def occurrences : List String → List String → List (String × Nat)
  | _, [] => []
  | past, base :: rest => (base, past.count base) :: occurrences (base :: past) rest

variable {past bases : List String} {base : String} {n : Nat}

theorem mem_occurrences :
    (base, n) ∈ occurrences past bases ↔
      past.count base ≤ n ∧ n < past.count base + bases.count base := by
  induction bases generalizing past with
  | nil =>
    simp [occurrences]
  | cons first rest ih =>
    simp only [occurrences, List.mem_cons, Prod.mk.injEq, ih, List.count_cons, beq_iff_eq]
    by_cases same : first = base
    · subst same
      simp
      omega
    · simp [same, Ne.symm same]

theorem nodup_occurrences (past bases : List String) : (occurrences past bases).Nodup := by
  induction bases generalizing past with
  | nil => simp [occurrences]
  | cons first rest ih =>
    simp only [occurrences, List.nodup_cons, mem_occurrences, List.count_cons_self, ih, and_true]
    omega

/-- The names of all occurrences differ exactly if no base is another one with a number that was
given to it. -/
theorem nodup_numbered_iff (bases : List String) :
    ((occurrences [] bases).map fun o => numbered o.1 o.2).Nodup ↔
      ∀ base n, 0 < n → n < bases.count base → base ++ toString n ∉ bases := by
  rw [List.nodup_map_iff_inj_on (nodup_occurrences [] bases)]
  constructor
  · intro distinct base n pos lt member
    have first : (base, n) ∈ occurrences [] bases := mem_occurrences.2 (by simpa using lt)
    have second : (base ++ toString n, 0) ∈ occurrences [] bases :=
      mem_occurrences.2 (by simpa using member)
    have same : numbered base n = numbered (base ++ toString n) 0 := by
      simp [numbered, Nat.ne_of_gt pos]
    have both := distinct _ first _ second same
    simp at both
    omega
  · rintro apart ⟨a, m⟩ first ⟨b, n⟩ second same
    rw [mem_occurrences] at first second
    simp only [List.count_nil, Nat.zero_le, Nat.zero_add, true_and] at first second
    have there {c : String} {k : Nat} (h : k < bases.count c) : c ∈ bases :=
      List.count_pos_iff.1 (by omega)
    rcases numbered_eq same with ⟨rfl, rfl⟩ | ⟨k, pos, le, rfl⟩ | ⟨k, pos, le, rfl⟩
    · rfl
    · exact absurd (there second) (apart a k pos (by omega))
    · exact absurd (there first) (apart b k pos (by omega))

end Occurrences

section Requests

/-- What a name is asked for. -/
inductive NameKind
  | ofClass | ofId
deriving DecidableEq

variable (table : SymbolTable)

/-- The next name of a kind for a base. -/
def nextOf : NameKind → String → String × SymbolTable
  | .ofClass, base => table.nextClass base
  | .ofId, base => table.nextId base

def countsOf : NameKind → OrderedMap String Nat
  | .ofClass => table.classCounts
  | .ofId => table.idCounts

/-- The names that are given when they are asked for one after the other. -/
def namesGiven : SymbolTable → List (NameKind × String) → List (NameKind × String)
  | _, [] => []
  | table, (kind, base) :: requests =>
    let answer := table.nextOf kind base
    (kind, answer.1) :: namesGiven answer.2 requests

/-- The texts of a kind, in order. -/
def ofKind (kind : NameKind) (texts : List (NameKind × String)) : List String :=
  (texts.filter (·.1 = kind)).map Prod.snd

theorem nextOf_name (kind : NameKind) (base : String) :
    (table.nextOf kind base).1 = numbered base (((table.countsOf kind).get? base).getD 0) := by
  cases kind <;> rfl

theorem countsOf_nextOf (kind other : NameKind) (base : String) :
    (table.nextOf kind base).2.countsOf other =
      if other = kind then
        (table.countsOf kind).insert base (((table.countsOf kind).get? base).getD 0 + 1)
      else table.countsOf other := by
  cases kind <;> cases other <;> rfl

/-- The table remembers how often each base of a kind was asked for. -/
def Remembers (kind : NameKind) (past : List String) : Prop :=
  ∀ base, ((table.countsOf kind).get? base).getD 0 = past.count base

variable {table} {kind : NameKind} {past : List String}

section

variable (remembers : table.Remembers kind past)

include remembers

theorem Remembers.next (base : String) :
    (table.nextOf kind base).2.Remembers kind (base :: past) := by
  intro other
  rw [countsOf_nextOf, if_pos rfl, OrderedMap.get?_insert, List.count_cons]
  by_cases same : other = base
  · subst same
    simp [remembers other]
  · simp [same, Ne.symm same, remembers other]

theorem Remembers.other {asked : NameKind} (differs : kind ≠ asked) (base : String) :
    (table.nextOf asked base).2.Remembers kind past := by
  intro other
  rw [countsOf_nextOf, if_neg differs]
  exact remembers other

theorem ofKind_namesGiven (requests : List (NameKind × String)) :
    ofKind kind (table.namesGiven requests) =
      (occurrences past (ofKind kind requests)).map fun o => numbered o.1 o.2 := by
  induction requests generalizing table past with
  | nil => rfl
  | cons request requests ih =>
    obtain ⟨asked, base⟩ := request
    by_cases same : asked = kind
    · subst same
      have rest := ih (remembers.next base)
      simp only [ofKind] at rest ⊢
      simp [namesGiven, occurrences, nextOf_name, remembers base, rest]
    · have rest := ih (remembers.other (Ne.symm same) base)
      simp only [ofKind] at rest ⊢
      simp [namesGiven, same, rest]

end

end Requests

/-- The names of a kind that a table gives, whatever is asked for in between, are all different
exactly if no base that is asked for is another one with a number that the other one reaches. -/
theorem namesGiven_nodup_iff (table : SymbolTable) (requests : List (NameKind × String))
    (kind : NameKind) :
    let fresh := { table with classCounts := {}, idCounts := {} }
    let bases := ofKind kind requests
    (ofKind kind (fresh.namesGiven requests)).Nodup ↔
      ∀ base n, 0 < n → n < bases.count base → base ++ toString n ∉ bases := by
  intro fresh bases
  have start : fresh.Remembers kind [] := by
    intro base
    cases kind <;> rfl
  rw [ofKind_namesGiven start]
  exact nodup_numbered_iff bases

/-- The second of two equal bases is given the name of a third. -/
example : ({} : SymbolTable).namesGiven [(.ofClass, "box"), (.ofId, "box"), (.ofClass, "box"),
      (.ofClass, "box1")] =
    [(.ofClass, "box"), (.ofId, "box"), (.ofClass, "box1"), (.ofClass, "box1")] := by
  decide +kernel

end SymbolTable

end TemplateMarkup
