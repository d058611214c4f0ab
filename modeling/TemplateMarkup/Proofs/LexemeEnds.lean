import Mathlib.Tactic.SplitIfs
import TemplateMarkup.Proofs.ReadingSteps

/-! Where a lexeme ends. What stands behind a lexeme has no part in it but for the character right
behind it, and the end of a line ends every lexeme except white space, a string and a block
comment. -/
namespace TemplateMarkup

namespace Lexeme

variable {c : Char} {cs ds es : List Char} {p starts part : Char → Bool} {n : Nat}

/-- A text that ends the line in front of it. -/
def EndsLine (ds : List Char) : Prop := ∀ d ∈ ds.head?, d = '\n'

/-- Two texts that are alike for the lexeme in front of them: both end its line, or both go on with
a hyphen. -/
def EndAlike (ds es : List Char) : Prop :=
  EndsLine ds ∧ EndsLine es ∨ ds.head? = some '-' ∧ es.head? = some '-'

theorem EndAlike.symm (alike : EndAlike ds es) : EndAlike es ds := by
  rcases alike with ⟨line, line'⟩ | ⟨hyphen, hyphen'⟩
  · exact .inl ⟨line', line⟩
  · exact .inr ⟨hyphen', hyphen⟩

theorem EndAlike.head (alike : EndAlike ds es) : ∀ d ∈ ds.head?, d = '\n' ∨ d = '-' := by
  intro d member
  rcases alike with ⟨line, -⟩ | ⟨hyphen, -⟩
  · exact .inl (line d member)
  · rw [hyphen] at member
    exact .inr (Option.some.inj member).symm

theorem EndAlike.stops (alike : EndAlike ds es) (feed : p '\n' = false) (hyphen : p '-' = false) :
    ∀ d ∈ ds.head?, p d = false := by
  intro d member
  rcases alike.head d member with rfl | rfl
  · exact feed
  · exact hyphen

section Runs

theorem run_append_of_all (all : ∀ x ∈ cs, p x) : run p (cs ++ ds) = cs.length + run p ds := by
  unfold run
  rw [List.takeWhile_append_of_pos all, List.length_append]

theorem run_eq_zero_iff : run p ds = 0 ↔ ∀ d ∈ ds.head?, p d = false := by
  cases ds with
  | nil => simp [run]
  | cons d ds => cases stops : p d <;> simp [run, stops]

/-- A run within a text is the same before two texts that are alike. -/
theorem run_alike (alike : EndAlike ds es) (feed : p '\n' = false)
    (le : run p (cs ++ ds) ≤ cs.length) : run p (cs ++ es) = run p (cs ++ ds) := by
  by_cases all : ∀ x ∈ cs, p x
  · rw [run_append_of_all all] at le
    have none : run p ds = 0 := by omega
    have none' : run p es = 0 := by
      rw [run_eq_zero_iff] at none ⊢
      rcases alike with ⟨-, line⟩ | ⟨hyphen, hyphen'⟩
      · exact fun d member => line d member ▸ feed
      · rwa [hyphen', ← hyphen]
    rw [run_append_of_all all, run_append_of_all all, none, none']
  · simp only [not_forall, Bool.not_eq_true] at all
    obtain ⟨x, member, stops⟩ := all
    rw [run_append_of_mem member stops, run_append_of_mem member stops]

theorem nameRun_le (starts part : Char → Bool) (cs : List Char) :
    nameRun starts part cs ≤ cs.length := by
  cases cs with
  | nil => exact Nat.le_refl _
  | cons c cs =>
    have := run_le part cs
    rw [nameRun, List.length_cons]
    split <;> omega

theorem nameRun_of_stops (stops : ∀ d ∈ ds.head?, starts d = false) :
    nameRun starts part ds = 0 := by
  cases ds with
  | nil => rfl
  | cons d ds => simp [nameRun, stops d rfl]

theorem nameRun_append (first : ∀ d ∈ ds.head?, starts d = false)
    (rest : ∀ d ∈ ds.head?, part d = false) :
    nameRun starts part (cs ++ ds) = nameRun starts part cs := by
  cases cs with
  | nil => exact nameRun_of_stops first
  | cons c cs => simp only [List.cons_append, nameRun, run_append_of_stops rest]

theorem nameRun_alike (alike : EndAlike ds es) (feed : starts '\n' = false)
    (hyphen : starts '-' = false) (feed' : part '\n' = false)
    (le : nameRun starts part (cs ++ ds) ≤ cs.length) :
    nameRun starts part (cs ++ es) = nameRun starts part (cs ++ ds) := by
  cases cs with
  | nil =>
    rw [List.nil_append, List.nil_append, nameRun_of_stops (alike.stops feed hyphen),
      nameRun_of_stops (alike.symm.stops feed hyphen)]
  | cons c cs =>
    simp only [List.cons_append, nameRun, List.length_cons] at le ⊢
    split at le
    · next first => rw [if_pos first, if_pos first, run_alike alike feed' (by omega)]
    · next first => rw [if_neg first, if_neg first]

theorem fractionRun_le (cs : List Char) : fractionRun cs ≤ cs.length := by
  unfold fractionRun
  split
  · next cs =>
    have := run_le Char.isDigit cs
    dsimp only
    split <;> simp only [List.length_cons] <;> omega
  · omega

theorem fractionRun_append (alike : EndAlike ds es) : fractionRun (cs ++ ds) = fractionRun cs := by
  cases cs with
  | nil =>
    cases ds with
    | nil => rfl
    | cons d ds => rcases alike.head d rfl with rfl | rfl <;> rfl
  | cons c cs =>
    have digits : run Char.isDigit (cs ++ ds) = run Char.isDigit cs :=
      run_append_of_stops (alike.stops rfl rfl)
    by_cases point : c = '.'
    · subst point
      simp only [List.cons_append, fractionRun, digits]
    · simp [fractionRun, point]

theorem numberRun_le (cs : List Char) : numberRun cs ≤ cs.length := by
  have whole := run_le Char.isDigit cs
  have fraction := fractionRun_le (cs.drop (run Char.isDigit cs))
  have unit := run_le isUnitPart
    (cs.drop (run Char.isDigit cs + fractionRun (cs.drop (run Char.isDigit cs))))
  simp only [List.length_drop] at fraction unit
  unfold numberRun
  dsimp only
  omega

theorem numberRun_append (alike : EndAlike ds es) : numberRun (cs ++ ds) = numberRun cs := by
  have whole : run Char.isDigit (cs ++ ds) = run Char.isDigit cs :=
    run_append_of_stops (alike.stops rfl rfl)
  have first := run_le Char.isDigit cs
  have second := fractionRun_le (cs.drop (run Char.isDigit cs))
  rw [List.length_drop] at second
  unfold numberRun
  simp only [whole, List.drop_append_of_le_length first, fractionRun_append alike]
  rw [List.drop_append_of_le_length (by omega), run_append_of_stops (alike.stops rfl rfl)]

theorem pseudoRun_le (cs : List Char) : pseudoRun cs ≤ cs.length := by
  unfold pseudoRun
  split
  · next cs =>
    have := nameRun_le Char.isAlpha isAsciiNamePart cs
    dsimp only
    split <;> simp only [List.length_cons] <;> omega
  · next cs _ =>
    have := nameRun_le Char.isAlpha isAsciiNamePart cs
    dsimp only
    split <;> simp only [List.length_cons] <;> omega
  · omega

theorem pseudoRun_of_head (other : ds.head? ≠ some ':') : pseudoRun ds = 0 := by
  unfold pseudoRun
  split
  case h_1 | h_2 => exact absurd rfl other
  · rfl

theorem pseudoRun_colon (other : ds.head? ≠ some ':') :
    pseudoRun (':' :: ds) = if nameRun Char.isAlpha isAsciiNamePart ds = 0 then 0
      else nameRun Char.isAlpha isAsciiNamePart ds + 1 := by
  conv => lhs; unfold pseudoRun
  split
  · next same =>
    cases same
    exact absurd rfl other
  · next same =>
    cases same
    rfl
  · next none => exact absurd rfl (none ds)

theorem EndAlike.noColon (alike : EndAlike ds es) : ds.head? ≠ some ':' := by
  intro colon
  rcases alike.head ':' colon with same | same <;> exact absurd same (by decide)

theorem pseudoRun_alike (alike : EndAlike ds es) (le : pseudoRun (cs ++ ds) ≤ cs.length) :
    pseudoRun (cs ++ es) = pseudoRun (cs ++ ds) := by
  have names (fs : List Char) (le : nameRun Char.isAlpha isAsciiNamePart (fs ++ ds) ≤ fs.length) :
      nameRun Char.isAlpha isAsciiNamePart (fs ++ es) =
        nameRun Char.isAlpha isAsciiNamePart (fs ++ ds) := nameRun_alike alike rfl rfl rfl le
  cases cs with
  | nil =>
    rw [List.nil_append, List.nil_append, pseudoRun_of_head alike.noColon,
      pseudoRun_of_head alike.symm.noColon]
  | cons c cs =>
    by_cases colon : c = ':'
    · subst colon
      cases cs with
      | nil =>
        rw [List.cons_append, List.cons_append, List.nil_append, List.nil_append,
          pseudoRun_colon alike.noColon, pseudoRun_colon alike.symm.noColon,
          nameRun_of_stops (alike.stops rfl rfl), nameRun_of_stops (alike.symm.stops rfl rfl)]
      | cons d cs =>
        by_cases double : d = ':'
        · subst double
          simp only [List.cons_append, pseudoRun, List.length_cons] at le ⊢
          rw [names cs (by split at le <;> omega)]
        · have other (fs : List Char) : (d :: fs).head? ≠ some ':' := by simpa using double
          simp only [List.cons_append, List.length_cons] at le ⊢
          rw [pseudoRun_colon (other _)] at le
          have same := names (d :: cs) (by
            rw [List.cons_append, List.length_cons]
            split at le <;> omega)
          rw [List.cons_append, List.cons_append] at same
          rw [pseudoRun_colon (other _), pseudoRun_colon (other _), same]
    · have other (fs : List Char) : (c :: fs).head? ≠ some ':' := by simpa using colon
      rw [List.cons_append, List.cons_append, pseudoRun_of_head (other _),
        pseudoRun_of_head (other _)]

end Runs

section Brackets

theorem bracket_append (alike : EndAlike ds es) : bracket (cs ++ ds) = bracket cs := by
  have name : nameRun Char.isAlpha isBracketWordPart (cs ++ ds) =
      nameRun Char.isAlpha isBracketWordPart cs :=
    nameRun_append (alike.stops rfl rfl) (alike.stops rfl rfl)
  have le := nameRun_le Char.isAlpha isBracketWordPart cs
  have closes : ((cs ++ ds).drop (nameRun Char.isAlpha isBracketWordPart cs)).head? = some ']' ↔
      (cs.drop (nameRun Char.isAlpha isBracketWordPart cs)).head? = some ']' := by
    rw [List.drop_append_of_le_length le]
    cases cs.drop (nameRun Char.isAlpha isBracketWordPart cs) with
    | nil =>
      refine iff_of_false (fun found => ?_) (by simp)
      rcases alike.head ']' found with same | same <;> exact absurd same (by decide)
    | cons d rest => rfl
  unfold bracket
  simp only [name, closes, List.take_append_of_le_length le]

theorem bracket_le (cs : List Char) : (bracket cs).2 ≤ cs.length := by
  have le := nameRun_le Char.isAlpha isBracketWordPart cs
  unfold bracket
  dsimp only
  split
  · exact Nat.zero_le _
  · split
    · next closed =>
      have more : nameRun Char.isAlpha isBracketWordPart cs < cs.length := by
        refine Nat.lt_of_le_of_ne le fun all => ?_
        rw [all, List.drop_length] at closed
        cases closed
      split <;> exact more
    · split
      · exact le
      · split
        · exact Nat.zero_le _
        · exact le

theorem markedName_le {named alone : TokenKind} :
    (markedName named alone part cs).2 ≤ cs.length := by
  have le := nameRun_le startsAsciiName part cs
  unfold markedName
  dsimp only
  split
  · exact Nat.zero_le _
  · exact le

theorem markedName_alike {named alone : TokenKind} (alike : EndAlike ds es)
    (feed : part '\n' = false) (le : (markedName named alone part (cs ++ ds)).2 ≤ cs.length) :
    markedName named alone part (cs ++ es) = markedName named alone part (cs ++ ds) := by
  have name : nameRun startsAsciiName part (cs ++ ds) ≤ cs.length := by
    unfold markedName at le
    dsimp only at le
    split at le
    · omega
    · exact le
  unfold markedName
  rw [nameRun_alike alike rfl rfl feed name]

end Brackets

section Strings

variable {quote : Char} {found : List Char × Nat}

theorem stringBody_cons (plain : c ≠ '\\') (cs : List Char) :
    stringBody quote (c :: cs) = if c = quote then some ([], 1)
      else (stringBody quote cs).map fun found => (c :: found.1, found.2 + 1) :=
  stringBody.eq_4 _ _ _ (by simp [plain]) (by simp [plain])

/-- The first character of a string is not a backslash if it stands for itself. -/
theorem plain_of_unescaped (alone : c = '\\' → cs = [] → False)
    (escape : ∀ d rest, c = '\\' → cs = d :: rest → False) : c ≠ '\\' := by
  intro same
  cases cs with
  | nil => exact alone same rfl
  | cons d cs => exact escape d cs same rfl

theorem stringBody_le (closed : stringBody quote cs = some found) :
    0 < found.2 ∧ found.2 ≤ cs.length := by
  fun_induction stringBody quote cs generalizing found with
  | case1 | case2 => cases closed
  | case4 =>
    cases closed
    simp
  | case3 c cs ih | case5 c cs _ _ _ ih =>
    obtain ⟨inner, there, rfl⟩ := Option.map_eq_some_iff.1 closed
    have := ih there
    simp only [List.length_cons]
    omega

theorem stringBody_append (ds : List Char) (closed : stringBody quote cs = some found) :
    stringBody quote (cs ++ ds) = some found := by
  fun_induction stringBody quote cs generalizing found with
  | case1 | case2 => cases closed
  | case3 c cs ih =>
    obtain ⟨inner, there, rfl⟩ := Option.map_eq_some_iff.1 closed
    simp only [List.cons_append, stringBody, ih there, Option.map_some]
  | case4 cs alone escape =>
    rw [List.cons_append, stringBody_cons (plain_of_unescaped alone escape), if_pos rfl]
    exact closed
  | case5 c cs alone escape other ih =>
    obtain ⟨inner, there, rfl⟩ := Option.map_eq_some_iff.1 closed
    rw [List.cons_append, stringBody_cons (plain_of_unescaped alone escape), if_neg other,
      ih there, Option.map_some]

/-- A string that is open at the end of a text is closed behind it. -/
theorem stringBody_beyond (opened : stringBody quote cs = none)
    (closed : stringBody quote (cs ++ ds) = some found) : cs.length < found.2 := by
  fun_induction stringBody quote cs generalizing found with
  | case1 => exact (stringBody_le closed).1
  | case2 =>
    cases ds with
    | nil => cases closed
    | cons d ds =>
      obtain ⟨inner, -, rfl⟩ := Option.map_eq_some_iff.1 closed
      simp
  | case3 c cs ih =>
    obtain ⟨inner, there, rfl⟩ := Option.map_eq_some_iff.1 closed
    have := ih (Option.map_eq_none_iff.1 opened) there
    simp only [List.length_cons]
    omega
  | case4 => cases opened
  | case5 c cs alone escape other ih =>
    rw [List.cons_append, stringBody_cons (plain_of_unescaped alone escape),
      if_neg other] at closed
    obtain ⟨inner, there, rfl⟩ := Option.map_eq_some_iff.1 closed
    have := ih (Option.map_eq_none_iff.1 opened) there
    simp only [List.length_cons]
    omega

theorem stringBody_within (closed : stringBody quote (cs ++ ds) = some found)
    (le : found.2 ≤ cs.length) : stringBody quote cs = some found := by
  cases here : stringBody quote cs with
  | none => exact absurd (stringBody_beyond here closed) (by omega)
  | some found' => rw [← stringBody_append ds here, closed]

theorem commentBody_le (closed : commentBody cs = some n) : 0 < n ∧ n ≤ cs.length := by
  fun_induction commentBody cs generalizing n with
  | case1 => cases closed
  | case2 =>
    cases closed
    simp
  | case3 c cs _ ih =>
    obtain ⟨k, there, rfl⟩ := Option.map_eq_some_iff.1 closed
    have := ih there
    simp only [List.length_cons]
    omega

theorem commentBody_append (ds : List Char) (closed : commentBody cs = some n) :
    commentBody (cs ++ ds) = some n := by
  fun_induction commentBody cs generalizing n with
  | case1 => cases closed
  | case2 =>
    cases closed
    rfl
  | case3 c cs other ih =>
    obtain ⟨k, there, rfl⟩ := Option.map_eq_some_iff.1 closed
    have open' : ∀ rest, c = '*' → cs ++ ds = '/' :: rest → False := by
      rintro rest rfl split
      cases cs with
      | nil => cases there
      | cons d cs =>
        cases split
        exact other cs rfl rfl
    rw [List.cons_append, commentBody.eq_3 _ _ open', ih there, Option.map_some]

theorem commentBody_beyond (opened : commentBody cs = none)
    (closed : commentBody (cs ++ ds) = some n) : cs.length < n := by
  induction cs generalizing n with
  | nil => exact (commentBody_le closed).1
  | cons c cs ih =>
    rw [List.cons_append] at closed
    unfold commentBody at closed
    split at closed
    · next same => cases same
    · next same =>
      cases closed
      obtain ⟨rfl, same⟩ := List.cons.inj same
      cases cs with
      | nil => simp
      | cons d cs =>
        cases same
        cases opened
    · next c' cs' other same =>
      obtain ⟨rfl, rfl⟩ := List.cons.inj same
      obtain ⟨k, there, rfl⟩ := Option.map_eq_some_iff.1 closed
      have open' : ∀ rest, c = '*' → cs = '/' :: rest → False := by
        rintro rest rfl rfl
        exact other _ rfl rfl
      rw [commentBody.eq_3 _ _ open'] at opened
      have := ih (Option.map_eq_none_iff.1 opened) there
      simp only [List.length_cons]
      omega

theorem commentBody_within (closed : commentBody (cs ++ ds) = some n) (le : n ≤ cs.length) :
    commentBody cs = some n := by
  cases here : commentBody cs with
  | none => exact absurd (commentBody_beyond here closed) (by omega)
  | some n' => rw [← commentBody_append ds here, closed]

end Strings

section Quotes

variable (quote : c = '"' ∨ c = '\'' ∨ c = Char.ofNat 0x60)

include quote

theorem first_string {found : List Char × Nat} (closed : stringBody c cs = some found) :
    first c cs = (.token (.string (String.ofList found.1)), found.2) := by
  unfold first
  rcases quote with rfl | rfl | rfl <;>
    rw [if_neg (by decide), if_neg (by decide), if_neg (by decide), if_pos (by decide), closed]

theorem first_openString (opened : stringBody c cs = none) :
    first c cs = (.unterminated .string, 0) := by
  unfold first
  rcases quote with rfl | rfl | rfl <;>
    rw [if_neg (by decide), if_neg (by decide), if_neg (by decide), if_pos (by decide), opened]

end Quotes

/-- A slash that opens no comment. -/
theorem first_slash (line : cs.head? ≠ some '/') (block : cs.head? ≠ some '*') :
    first '/' cs = (.token (.symbol '/'), 0) := by
  unfold first
  rw [if_neg (by decide), if_neg (by decide), if_neg (by decide), if_neg (by decide), if_pos rfl]
  split
  · exact absurd rfl line
  · exact absurd rfl block
  · rfl

theorem first_comment (closed : commentBody cs = some n) :
    first '/' ('*' :: cs) = (.token (.comment .block), n + 1) := by
  unfold first
  rw [if_neg (by decide), if_neg (by decide), if_neg (by decide), if_neg (by decide), if_pos rfl]
  simp only [closed]

theorem first_openComment (opened : commentBody cs = none) :
    first '/' ('*' :: cs) = (.unterminated .comment, 0) := by
  unfold first
  rw [if_neg (by decide), if_neg (by decide), if_neg (by decide), if_neg (by decide), if_pos rfl]
  simp only [opened]

theorem first_hyphen (other : cs.head? ≠ some '-') : first '-' cs = (.token (.symbol '-'), 0) := by
  unfold first
  rw [if_neg (by decide), if_neg (by decide), if_neg (by decide), if_neg (by decide),
    if_neg (by decide), if_pos rfl]
  split
  · exact absurd rfl other
  · rfl

theorem first_dashes (cs : List Char) :
    first '-' ('-' :: cs) = (.dashes, restOfLine ('-' :: cs)) := rfl

/-- What may be left open at the end of a line: a string or a block comment. -/
def IsOpen (lexeme : Lexeme) : Prop :=
  lexeme = .unterminated .string ∨ lexeme = .unterminated .comment

section Alike

variable {lexeme : Lexeme}

theorem first_alike_quote (closed : ¬IsOpen lexeme) (le : n ≤ cs.length)
    (quote : c = '"' ∨ c = '\'' ∨ c = Char.ofNat 0x60)
    (found : first c (cs ++ ds) = (lexeme, n)) (es : List Char) :
    first c (cs ++ es) = (lexeme, n) := by
  cases body : stringBody c (cs ++ ds) with
  | none =>
    rw [first_openString quote body] at found
    cases found
    exact absurd (.inl rfl) closed
  | some text =>
    rw [first_string quote body] at found
    cases found
    rw [first_string quote (stringBody_append es (stringBody_within body le))]

section

variable (alike : EndAlike ds es)

include alike

theorem first_alike_slash (closed : ¬IsOpen lexeme) (le : n ≤ cs.length)
    (found : first '/' (cs ++ ds) = (lexeme, n)) : first '/' (cs ++ es) = (lexeme, n) := by
  cases cs with
  | nil =>
    have alone {fs gs : List Char} (alike : EndAlike fs gs) :
        first '/' fs = (.token (.symbol '/'), 0) := by
      refine first_slash (fun same => ?_) (fun same => ?_) <;>
        rcases alike.head _ same with same | same <;> exact absurd same (by decide)
    rw [List.nil_append, alone alike] at found
    rw [List.nil_append, alone alike.symm, found]
  | cons d cs =>
    rw [List.cons_append] at found ⊢
    by_cases double : d = '/'
    · subst double
      have line (fs : List Char) :
          first '/' ('/' :: fs) = (.token (.comment .line), restOfLine ('/' :: fs)) := rfl
      rw [line] at found
      cases found
      have same : restOfLine ('/' :: cs ++ es) = restOfLine ('/' :: cs ++ ds) :=
        run_alike alike rfl le
      rw [line, ← List.cons_append, same, List.cons_append]
    by_cases star : d = '*'
    · subst star
      cases body : commentBody (cs ++ ds) with
      | none =>
        rw [first_openComment body] at found
        cases found
        exact absurd (.inr rfl) closed
      | some k =>
        rw [first_comment body] at found
        cases found
        rw [List.length_cons] at le
        rw [first_comment (commentBody_append es (commentBody_within body (by omega)))]
    · have alone (fs : List Char) : first '/' (d :: fs) = (.token (.symbol '/'), 0) :=
        first_slash (by simpa using double) (by simpa using star)
      rw [alone] at found ⊢
      exact found

theorem first_alike_hyphen (le : n ≤ cs.length) (found : first '-' (cs ++ ds) = (lexeme, n)) :
    first '-' (cs ++ es) = (lexeme, n) := by
  have dashes (fs gs : List Char) (first' : fs = '-' :: gs) :
      first '-' fs = (.dashes, restOfLine fs) := by
    subst first'
    rfl
  by_cases double : (cs ++ ds).head? = some '-'
  · obtain ⟨rest, split⟩ := List.head?_eq_some_iff.1 double
    rw [dashes _ _ split] at found
    cases found
    have same : restOfLine (cs ++ es) = restOfLine (cs ++ ds) := run_alike alike rfl le
    cases cs with
    | nil =>
      -- Two hyphens are longer than one.
      rw [List.nil_append] at split
      subst split
      simp [restOfLine, run] at le
    | cons d cs =>
      cases split
      rw [← same]
      rfl
  · have other : (cs ++ es).head? ≠ some '-' := by
      cases cs with
      | nil =>
        rcases alike with ⟨-, line⟩ | ⟨hyphen, -⟩
        · intro same
          exact absurd (line _ same) (by decide)
        · exact absurd hyphen double
      | cons d cs => exact double
    rw [first_hyphen double] at found
    rw [first_hyphen other, found]

/-- A lexeme within a text is the same before two texts that are alike, if it is not white space and
not left open. -/
theorem first_alike (closed : ¬IsOpen lexeme) (le : n ≤ cs.length) (plain : isSkipped c = false)
    (found : first c (cs ++ ds) = (lexeme, n)) : first c (cs ++ es) = (lexeme, n) := by
  by_cases quote : c = '"' ∨ c = '\'' ∨ c = Char.ofNat 0x60
  · exact first_alike_quote closed le quote found es
  by_cases slash : c = '/'
  · subst slash
    exact first_alike_slash alike closed le found
  by_cases hyphen : c = '-'
  · subst hyphen
    exact first_alike_hyphen alike le found
  have opens : ¬(c = '"' || c = '\'' || c = Char.ofNat 0x60) = true := by
    simpa [or_assoc] using quote
  have skipped : ¬isSkipped c = true := by simp [plain]
  have atName {fs gs : List Char} (alike : EndAlike fs gs) :
      nameRun startsAsciiName isBracketWordPart (cs ++ fs) =
        nameRun startsAsciiName isBracketWordPart cs :=
    nameRun_append (alike.stops rfl rfl) (alike.stops rfl rfl)
  have atName_le := nameRun_le startsAsciiName isBracketWordPart cs
  unfold first at found ⊢
  simp only [if_neg skipped, if_neg opens, if_neg slash, if_neg hyphen, atName alike,
    atName alike.symm, List.take_append_of_le_length atName_le] at found ⊢
  split_ifs at found ⊢
  · cases found
    rw [run_alike alike rfl le, List.take_append_of_le_length le, List.take_append_of_le_length le]
  · rw [← found, numberRun_append alike, numberRun_append alike.symm]
  · rw [← found, bracket_append alike, bracket_append alike.symm]
  · exact found
  · exact found
  · have short : (markedName .classSelector .dot isAsciiNamePart (cs ++ ds)).2 ≤ cs.length := by
      rwa [found]
    rw [markedName_alike alike rfl short, found]
  · have short : (markedName .idSelector (.symbol '#') isAsciiNamePart (cs ++ ds)).2 ≤
        cs.length := by rwa [found]
    rw [markedName_alike alike rfl short, found]
  · cases found
    rw [pseudoRun_alike alike le]
  · exact found

/-- White space within a text, or the word that it is, is the same before two texts that are alike,
if as much of it is white space. -/
theorem first_alike_skipped (le : n ≤ cs.length) (skipped : isSkipped c = true)
    (blank : run isSkipped (cs ++ es) = run isSkipped (cs ++ ds))
    (short : run isSkipped (cs ++ ds) ≤ cs.length) (found : first c (cs ++ ds) = (lexeme, n)) :
    first c (cs ++ es) = (lexeme, n) := by
  unfold first at found ⊢
  rw [if_pos skipped] at found ⊢
  dsimp only at found ⊢
  rw [blank]
  cases beyond : isBeyondAscii c with
  | false =>
    simp only [beyond, Bool.false_and, Bool.false_eq_true, if_false] at found ⊢
    exact found
  | true =>
    by_cases word : run isSkipped (cs ++ ds) ≤ run isIdentifierPart (cs ++ ds)
    · simp only [beyond, word, decide_true, Bool.and_self, if_true] at found
      cases found
      rw [run_alike alike rfl le]
      simp only [word, decide_true, Bool.and_self, if_true, List.take_append_of_le_length le]
    · rw [run_alike alike rfl (by omega)]
      simp only [beyond, word, decide_false, Bool.and_false, Bool.false_eq_true,
        if_false] at found ⊢
      exact found

end

end Alike

theorem first_le (c : Char) (cs : List Char) : (first c cs).2 ≤ cs.length := by
  fun_cases first c cs with
  | case1 | case3 => exact run_le isIdentifierPart cs
  | case2 => exact run_le isSkipped cs
  | case4 => exact numberRun_le cs
  | case5 _ _ _ _ _ value n closed => exact (stringBody_le closed).2
  | case7 | case11 => exact run_le _ _
  | case8 _ _ _ _ _ rest n closed => exact Nat.succ_le_succ (commentBody_le closed).2
  | case13 => exact bracket_le cs
  | case15 => exact nameRun_le _ _ _
  | case16 | case17 => exact markedName_le
  | case18 => exact pseudoRun_le cs
  | case6 | case9 | case10 | case12 | case14 | case19 | case20 => exact Nat.zero_le _

theorem first_before_hyphen {lexeme : Lexeme} (closed : ¬IsOpen lexeme) (le : n ≤ cs.length)
    (found : first c (cs ++ '-' :: ds) = (lexeme, n)) (es : List Char) :
    first c (cs ++ '-' :: es) = (lexeme, n) := by
  have alike : EndAlike ('-' :: ds) ('-' :: es) := .inr ⟨rfl, rfl⟩
  cases skipped : isSkipped c with
  | false => exact first_alike alike closed le skipped found
  | true =>
    have blank (fs : List Char) : run isSkipped (cs ++ '-' :: fs) = run isSkipped cs :=
      run_append_of_stops fun d member => by
        cases member
        decide
    refine first_alike_skipped alike le skipped ?_ ?_ found
    · rw [blank, blank]
    · rw [blank]
      exact run_le _ _

theorem isOpen_first (opened : IsOpen (first c cs).1) :
    (c = '"' ∨ c = '\'' ∨ c = Char.ofNat 0x60) ∧ stringBody c cs = none ∨
      c = '/' ∧ ∃ rest, cs = '*' :: rest ∧ commentBody rest = none := by
  revert opened
  fun_cases first c cs with
  | case6 _ _ _ _ quote body => exact fun _ => .inl ⟨by simpa [or_assoc] using quote, body⟩
  | case9 _ _ _ _ slash rest body => exact fun _ => .inr ⟨slash, rest, rfl, body⟩
  | case1 | case3 | case13 | case16 | case17 =>
    simp only [identifier, bracket, markedName]
    repeat' split
    all_goals simp [IsOpen]
  | _ => simp [IsOpen]

/-- What becomes of a lexeme on a line when more lines follow. -/
inductive AtLineEnd (c : Char) (cs ds : List Char) : Prop
  | same (eq : first c (cs ++ ds) = first c cs)
  | blank (all : ∀ x ∈ c :: cs, isSkipped x)
  | left (cause : Unterminated) (here : first c cs = (.unterminated cause, 0))
      (later : ∀ cause', (first c (cs ++ ds)).1 = .unterminated cause' → cause' = cause)

theorem atLineEnd (c : Char) (cs : List Char) (line : EndsLine ds) : AtLineEnd c cs ds := by
  have alike : EndAlike [] ds := .inl ⟨by simp [EndsLine], line⟩
  have found : first c (cs ++ []) = first c cs := by rw [List.append_nil]
  cases skipped : isSkipped c with
  | true =>
    by_cases all : ∀ x ∈ cs, isSkipped x
    · refine .blank fun x member => ?_
      rcases List.mem_cons.1 member with rfl | member
      · exact skipped
      · exact all x member
    · simp only [not_forall, Bool.not_eq_true] at all
      obtain ⟨x, member, stops⟩ := all
      refine .same (first_alike_skipped alike (first_le c cs) skipped ?_ ?_ found)
      · rw [List.append_nil, run_append_of_mem member stops]
      · rw [List.append_nil]
        exact run_le _ _
  | false =>
    by_cases opened : IsOpen (first c cs).1
    · rcases isOpen_first opened with ⟨quote, body⟩ | ⟨rfl, rest, rfl, body⟩
      · refine .left .string (first_openString quote body) fun cause' later => ?_
        cases body' : stringBody c (cs ++ ds) with
        | none =>
          rw [first_openString quote body'] at later
          cases later
          rfl
        | some found =>
          rw [first_string quote body'] at later
          cases later
      · refine .left .comment (first_openComment body) fun cause' later => ?_
        rw [List.cons_append] at later
        cases body' : commentBody (rest ++ ds) with
        | none =>
          rw [first_openComment body'] at later
          cases later
          rfl
        | some k =>
          rw [first_comment body'] at later
          cases later
    · exact .same (first_alike alike opened (first_le c cs) skipped found)

end Lexeme

end TemplateMarkup
