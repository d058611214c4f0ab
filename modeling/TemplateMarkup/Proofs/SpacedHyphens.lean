import TemplateMarkup.Proofs.ReadingStrides

/-! Two hyphens inside a line, and the same hyphens with a blank between them. The line behind two
hyphens is read as a text of its own, so that a lexeme which goes on behind the end of the line is
cut there; behind hyphens that stand apart it is not. That is the only difference. -/
namespace TemplateMarkup

namespace TokenStream
open Lexeme

variable {c : Char} {cs ds es text rest line tail : List Char} {p q r : Progress}

section Arriving

variable {before l : List Char} {outer : List (List Char)}

theorem bodyLength?_blank {depth : Nat} (open' : bodyLength? depth (cs ++ ds) = none) :
    bodyLength? depth (cs ++ ' ' :: ds) = none := by
  induction cs generalizing depth with
  | nil =>
    rw [List.nil_append]
    unfold bodyLength?
    rw [if_neg (by decide), if_neg (by decide)]
    exact Option.map_eq_none_iff.2 open'
  | cons c cs ih =>
    have inner {depth : Nat} (open' : (bodyLength? depth (cs ++ ds)).map (· + 1) = none) :
        (bodyLength? depth (cs ++ ' ' :: ds)).map (· + 1) = none :=
      Option.map_eq_none_iff.2 (ih (Option.map_eq_none_iff.1 open'))
    rw [List.cons_append] at open' ⊢
    unfold bodyLength? at open' ⊢
    split at open'
    · rw [if_pos ‹_›]
      exact inner open'
    · rw [if_neg ‹_›]
      split at open'
      · rw [if_pos ‹_›]
        cases depth with
        | zero => cases open'
        | succ depth => exact inner open'
      · rw [if_neg ‹_›]
        exact inner open'

theorem not_isOpen {lexeme : Lexeme} (closed : lexeme.cause? = none) : ¬IsOpen lexeme := by
  rintro (rfl | rfl) <;> cases closed

/-- A stride that ends before a hyphen is the same whatever follows the hyphen, if a body is left
open there as well. -/
theorem stride_before_hyphen
    (opened : ∀ fs, bodyLength? 0 (fs ++ '-' :: ds) = none → bodyLength? 0 (fs ++ '-' :: es) = none)
    (goes : stride p (text ++ (before ++ '-' :: ds)) = .goes text (before ++ '-' :: ds) q) :
    stride p (text ++ (before ++ '-' :: es)) = .goes text (before ++ '-' :: es) q := by
  obtain ⟨some, -⟩ := text_of_goes goes
  obtain ⟨c, text, rfl⟩ := List.exists_cons_of_ne_nil some
  have way := front p c (text ++ (before ++ '-' :: ds))
  rw [← List.cons_append, goes] at way
  -- What a stride passes is as long as the lexeme, since the hyphen is left.
  have length {n : Nat} (taken : text = (text ++ (before ++ '-' :: ds)).take n) :
      n = text.length := by
    have := congrArg List.length taken
    simp only [List.length_take, List.length_append, List.length_cons] at this
    omega
  generalize taken : Stride.goes (c :: text) (before ++ '-' :: ds) q = s at way
  cases way with
  | fails | splits => cases taken
  | @foreign k brace opens body =>
    obtain ⟨same, -, later⟩ := Stride.goes.inj taken
    have whole := length (List.cons.inj same).2
    have lt : k < text.length := by omega
    have way := Front.foreign brace opens (bodyLength?_within body lt (before ++ '-' :: es))
    rw [List.take_append_of_le_length (Nat.le_of_lt lt)] at later
    rw [whole, List.take_left, List.drop_left, List.take_append_of_le_length (Nat.le_of_lt lt),
      ← later] at way
    exact way.eq
  | @adds lexeme n found closed fresh plain =>
    obtain ⟨same, -, later⟩ := Stride.goes.inj taken
    obtain rfl := length (List.cons.inj same).2
    rw [← List.append_assoc] at found
    have found' := first_before_hyphen (not_isOpen closed) (by simp) found es
    rw [List.append_assoc] at found'
    have plain' : p.body? lexeme (text ++ (before ++ '-' :: es)) = none := by
      unfold Progress.body? at plain ⊢
      split at plain
      · rw [if_pos ‹_›]
        rw [← List.append_assoc] at plain ⊢
        exact opened _ plain
      · rw [if_neg ‹_›]
    have way := Front.adds found' closed fresh plain'
    rw [List.take_left] at later
    rw [List.take_left, List.drop_left, ← later] at way
    exact way.eq

/-- Reading arrives at two hyphens that stand apart as it does at two that do not. -/
theorem Arrives.spaced (arrives : Arrives cs p before ('-' :: '-' :: l) outer r) :
    Arrives (before ++ '-' :: ' ' :: '-' :: l ++ outer.flatten) p before ('-' :: ' ' :: '-' :: l)
      outer r := by
  generalize target : '-' :: '-' :: l = here at arrives
  induction arrives with
  | here =>
    subst target
    simpa using Arrives.here
  | @goes cs text rest before here outer p q r goes later ih =>
    subst target
    have split := (text_of_goes goes).2
    rw [later.split, List.append_assoc, List.cons_append, List.cons_append] at goes split
    rw [split] at goes
    have opened (fs : List Char)
        (open' : bodyLength? 0 (fs ++ '-' :: '-' :: (l ++ outer.flatten)) = none) :
        bodyLength? 0 (fs ++ '-' :: ' ' :: '-' :: (l ++ outer.flatten)) = none := by
      have split (ds : List Char) : fs ++ '-' :: ds = (fs ++ ['-']) ++ ds := by simp
      rw [split] at open' ⊢
      exact bodyLength?_blank open'
    have goes' := stride_before_hyphen opened goes
    have later' := ih rfl
    simp only [List.append_assoc, List.cons_append] at goes' later' ⊢
    exact .goes goes' later'
  | @inside cs line rest before here outer p r splits later ih =>
    subst target
    obtain ⟨-, single, ends, stale⟩ := text_of_splits splits
    rw [later.split] at single
    have single' : '\n' ∉ before ++ '-' :: ' ' :: '-' :: l ++ outer.flatten := by
      simpa using single
    have splits' := stride_dashes single' ends stale
    have later' := Arrives.inside splits' (ih rfl)
    simpa using later'
  | @behind cs line rest before here outer p q r splits middle later ih =>
    subst target
    obtain ⟨-, single, ends, stale⟩ := text_of_splits splits
    have ends' : EndsLine (before ++ '-' :: ' ' :: '-' :: l ++ outer.flatten) := by
      rw [later.split] at ends
      cases before with
      | nil => exact absurd (ends '-' rfl) (by decide)
      | cons d before => exact ends
    have later' := Arrives.behind (stride_dashes single ends' stale) middle (ih rfl)
    simpa using later'

end Arriving

/-- What stands at the front of a text: a lexeme, and whether it opens foreign text that is
closed. -/
def Progress.lexemeAt (p : Progress) (c : Char) (cs : List Char) : Lexeme × Bool :=
  ((first c cs).1, (p.body? (first c cs).1 cs).isSome)

section LineEnd

theorem Progress.body?_of_ne {lexeme : Lexeme} (other : lexeme ≠ .token .leftBrace) :
    p.body? lexeme cs = none := if_neg fun opens => other opens.1

theorem Progress.lexemeAt_of_ne {lexeme : Lexeme} (found : (first c cs).1 = lexeme)
    (other : lexeme ≠ .token .leftBrace) : p.lexemeAt c cs = (lexeme, false) := by
  rw [lexemeAt, found, body?_of_ne other]
  rfl

/-- What reading does with a lexeme of a line if the text ends with the line, beginning with `q`,
and what if it goes on with `tail`, beginning with `p`. -/
inductive MeetsLineEnd (q p : Progress) (c : Char) (cs tail : List Char) : Prop
  | same {text rest : List Char} {q' p' : Progress}
      (short : stride q (c :: cs) = .goes text rest q')
      (long : stride p (c :: (cs ++ tail)) = .goes text (rest ++ tail) p') (like : Like q' p')
      (keeps : p.lexemeAt c (cs ++ tail) = p.lexemeAt c cs)
  | splits {line : List Char} (short : stride q (c :: cs) = .splits line [])
      (long : stride p (c :: (cs ++ tail)) = .splits line tail)
      (keeps : p.lexemeAt c (cs ++ tail) = p.lexemeAt c cs)
  | fails {cause : Unterminated} (short : stride q (c :: cs) = .fails cause)
      (long : stride p (c :: (cs ++ tail)) = .fails cause)
      (keeps : p.lexemeAt c (cs ++ tail) = p.lexemeAt c cs)
  | blank (short : stride q (c :: cs) = .goes (c :: cs) [] (q.pass (c :: cs)))
      (long : stride p (c :: (cs ++ tail)) = .goes (c :: (cs ++ tail.take (run isSkipped tail)))
        (tail.drop (run isSkipped tail)) (p.pass (c :: (cs ++ tail.take (run isSkipped tail)))))
      (keeps : p.lexemeAt c (cs ++ tail) = p.lexemeAt c cs)
  | left {cause : Unterminated} (short : stride q (c :: cs) = .fails cause)
      (cut : p.lexemeAt c (cs ++ tail) ≠ p.lexemeAt c cs)
  | word {kind : TokenKind} (isWord : kind = .identifier ∨ ∃ keyword, kind = .keyword keyword)
      (short : stride q (c :: cs) = .goes (c :: cs) [] (q.push kind (c :: cs)))
      (long : stride p (c :: (cs ++ tail)) = .goes (c :: (cs ++ tail.take (run isSkipped tail)))
        (tail.drop (run isSkipped tail)) (p.pass (c :: (cs ++ tail.take (run isSkipped tail)))))
      (cut : p.lexemeAt c (cs ++ tail) ≠ p.lexemeAt c cs)
  | foreign {k : Nat} (short : stride q (c :: cs) = .goes [c] cs q.opened)
      (long : stride p (c :: (cs ++ tail)) = .goes (c :: (cs ++ tail).take (k + 1))
        ((cs ++ tail).drop (k + 1)) (p.enclosed ((cs ++ tail).take k)))
      (cut : p.lexemeAt c (cs ++ tail) ≠ p.lexemeAt c cs)

theorem meetsLineEnd_of_first (like : Like q p) (single : '\n' ∉ cs) (stale : p.place.fresh = false)
    (eq : first c (cs ++ tail) = first c cs) : MeetsLineEnd q p c cs tail := by
  have le := first_le c cs
  have way := front q c cs
  generalize short : stride q (c :: cs) = s at way
  have keeps {lexeme : Lexeme} {n : Nat} (found : first c cs = (lexeme, n))
      (other : lexeme ≠ .token .leftBrace) : p.lexemeAt c (cs ++ tail) = p.lexemeAt c cs := by
    have here : (first c cs).1 = lexeme := by rw [found]
    rw [Progress.lexemeAt_of_ne here other, Progress.lexemeAt_of_ne (by rw [eq, here]) other]
  cases way with
  | fails found => exact .fails short (Front.fails (eq.trans found)).eq (keeps found (by simp))
  | @splits n found stale' =>
    have long := (Front.splits (eq.trans found) stale).eq
    have whole : n = cs.length := by
      rw [((formed_of_first found).dashes rfl).2.1, restOfLine, run, List.takeWhile_eq_self_iff.2]
      intro x member
      have inLine : x ≠ '\n' := fun same => single (same ▸ member)
      simpa using inLine
    subst whole
    rw [List.take_left, List.drop_left] at long
    rw [List.take_length, List.drop_length] at short
    exact .splits short long (keeps found (by simp))
  | @foreign k brace opens body =>
    have lt := bodyLength?_lt body
    have body' := bodyLength?_append tail body
    have long := (Front.foreign brace ((likeSteps.opensOrigin like).symm.trans opens) body').eq
    rw [List.take_append_of_le_length lt, List.drop_append_of_le_length lt,
      List.take_append_of_le_length (Nat.le_of_lt lt)] at long
    refine .same short long (likeSteps.enclosed like _) ?_
    subst brace
    simp [Progress.lexemeAt, first_brace, Progress.body?, body, body']
  | @adds lexeme n found closed fresh plain =>
    have le : n ≤ cs.length := by rwa [found] at le
    have fresh' (dashes : lexeme = .dashes) : p.place.fresh = true :=
      like.fresh.symm.trans (fresh dashes)
    have here : p.body? lexeme cs = none := (likeSteps.body? like lexeme cs).symm.trans plain
    cases body : p.body? lexeme (cs ++ tail) with
    | none =>
      have long := (Front.adds (eq.trans found) closed fresh' body).eq
      rw [List.take_append_of_le_length le, List.drop_append_of_le_length le] at long
      refine .same short long (likeSteps.add like _ _) ?_
      simp [Progress.lexemeAt, eq, found, here, body]
    | some k =>
      obtain ⟨rfl, opens, body'⟩ := Progress.body?_eq_some body
      obtain ⟨brace, rfl⟩ := (formed_of_first found).brace rfl
      refine .foreign (short.trans (by subst brace; rfl)) (Front.foreign brace opens body').eq ?_
      simp [Progress.lexemeAt, eq, found, here, body]

theorem exists_identifier (word : String) : ∃ kind, identifier word = .token kind ∧
    (kind = .identifier ∨ ∃ keyword, kind = .keyword keyword) := by
  unfold identifier
  split
  · next keyword _ => exact ⟨_, rfl, .inr ⟨keyword, rfl⟩⟩
  · exact ⟨_, rfl, .inl rfl⟩

/-- A line that ends with white space only, and more lines. -/
theorem meetsLineEnd_of_blank (q p : Progress) (all : ∀ x ∈ c :: cs, isSkipped x)
    (ends : EndsLine tail) (more : tail ≠ []) : MeetsLineEnd q p c cs tail := by
  have skipped : isSkipped c = true := all c (.head _)
  have blank : run isSkipped (cs ++ tail) = cs.length + run isSkipped tail :=
    run_append_of_all fun x member => all x (.tail _ member)
  have short : run isSkipped cs = cs.length := by
    rw [run, List.takeWhile_eq_self_iff.2 fun x member => all x (.tail _ member)]
  have word : run isIdentifierPart (cs ++ tail) = run isIdentifierPart cs :=
    run_append_of_stops fun d member => ends d member ▸ rfl
  have word_le := run_le isIdentifierPart cs
  have feed : 0 < run isSkipped tail := by
    obtain ⟨d, tail, rfl⟩ := List.exists_cons_of_ne_nil more
    rw [ends d rfl]
    exact Nat.succ_pos _
  have found : first c (cs ++ tail) = (.blank, cs.length + run isSkipped tail) := by
    have shorter : ¬cs.length + run isSkipped tail ≤ run isIdentifierPart cs := by omega
    unfold first
    rw [if_pos skipped]
    simp only [blank, word, shorter, decide_false, Bool.and_false, Bool.false_eq_true, if_false]
  have long := (Front.adds (p := p) found rfl (by simp) (Progress.body?_of_ne (by simp))).eq
  rw [List.take_length_add_append, List.drop_length_add_append] at long
  have later : p.lexemeAt c (cs ++ tail) = (.blank, false) :=
    Progress.lexemeAt_of_ne (by rw [found]) (by simp)
  by_cases isWord : isBeyondAscii c && decide (cs.length ≤ run isIdentifierPart cs)
  · -- The line ends with byte order marks, and without more lines they are a word.
    obtain ⟨kind, same, isName⟩ := exists_identifier (String.ofList (c :: cs))
    have whole : run isIdentifierPart cs = cs.length := by
      simp only [Bool.and_eq_true, decide_eq_true_eq] at isWord
      omega
    have found' : first c cs = (.token kind, cs.length) := by
      unfold first
      rw [if_pos skipped]
      dsimp only
      rw [short, if_pos isWord, whole, List.take_length, same]
    have other : Lexeme.token kind ≠ .token .leftBrace := by
      rintro ⟨⟩
      simp at isName
    have short := (Front.adds (p := q) found' rfl (by simp) (Progress.body?_of_ne other)).eq
    rw [List.take_length, List.drop_length] at short
    refine .word isName short long ?_
    rw [later, Progress.lexemeAt_of_ne (by rw [found']) other]
    simp
  · have found' : first c cs = (.blank, cs.length) := by
      unfold first
      rw [if_pos skipped]
      dsimp only
      rw [short, if_neg isWord]
    have short := (Front.adds (p := q) found' rfl (by simp) (Progress.body?_of_ne (by simp))).eq
    rw [List.take_length, List.drop_length] at short
    refine .blank short long ?_
    have here : p.lexemeAt c cs = (.blank, false) :=
      Progress.lexemeAt_of_ne (by rw [found']) (by simp)
    rw [later, here]

theorem meetsLineEnd (like : Like q p) (single : '\n' ∉ cs) (stale : p.place.fresh = false)
    (ends : EndsLine tail) : MeetsLineEnd q p c cs tail := by
  by_cases more : tail = []
  · subst more
    exact meetsLineEnd_of_first like single stale (by rw [List.append_nil])
  cases atLineEnd c cs ends with
  | same eq => exact meetsLineEnd_of_first like single stale eq
  | blank all => exact meetsLineEnd_of_blank q p all ends more
  | left cause here later =>
    have short := (Front.fails (p := q) here).eq
    have keeps : p.lexemeAt c cs = (.unterminated cause, false) :=
      Progress.lexemeAt_of_ne (by rw [here]) (by simp)
    by_cases same : (first c (cs ++ tail)).1 = .unterminated cause
    · have found : first c (cs ++ tail) = (.unterminated cause, (first c (cs ++ tail)).2) :=
        Prod.ext same rfl
      refine .fails short (Front.fails found).eq ?_
      rw [keeps, Progress.lexemeAt_of_ne same (by simp)]
    · refine .left short fun keeps' => same ?_
      rw [keeps] at keeps'
      exact congrArg Prod.fst keeps'

end LineEnd

/-- The kinds and texts of what has been read, last first. -/
abbrev Progress.shapes (p : Progress) : List (TokenKind × String) := p.tokens.map Token.shape

section Apart

variable {q' p' : Progress} {a b : TokenKind × String}

theorem suffix_of_read (done : read cs p = .ok p') : p.shapes <:+ p'.shapes :=
  (reads_of_read done).suffix.map _

theorem suffix_of_read_bind (done : (read cs p).bind (read ds) = .ok p') :
    p.shapes <:+ p'.shapes := by
  cases middle : read cs p with
  | error e =>
    rw [middle] at done
    cases done
  | ok m =>
    rw [middle] at done
    exact (suffix_of_read middle).trans (suffix_of_read done)

/-- Lists that go on from one list go on with the same element. -/
theorem eq_of_suffixes {base whole : List (TokenKind × String)} (left : a :: base <:+ whole)
    (right : b :: base <:+ whole) : a = b := by
  have same := List.suffix_of_suffix_length_le left right (Nat.le_refl _)
  have eq := same.eq_of_length rfl
  exact (List.cons.inj eq).1

/-- How reading begins: with a text that makes no token, with a token that is its lexeme, or with a
hyphen, a brace or a generator comment. -/
inductive ReadsFirst (p p' : Progress) (c : Char) (cs : List Char) : Prop
  | passes {lexeme : Lexeme} {n : Nat} (found : first c cs = (lexeme, n))
      (blank : lexeme = .blank ∨ lexeme = .unknown)
      (rest : read (cs.drop n) (p.add (c :: cs.take n) lexeme) = .ok p')
  | takes {kind : TokenKind} {n : Nat} (found : first c cs = (.token kind, n))
      (rest : read (cs.drop n) (p.push kind (c :: cs.take n)) = .ok p')
  | marks {a : TokenKind × String}
      (mark : a.1 = .symbol '-' ∨ a.1 = .leftBrace ∨ a.1 = .comment .generator)
      (held : a :: p.shapes <:+ p'.shapes)

theorem readsFirst (done : read (c :: cs) p = .ok p') : ReadsFirst p p' c cs := by
  have way := front p c cs
  generalize next : stride p (c :: cs) = s at way
  cases way with
  | fails found =>
    rw [read_of_fails next] at done
    cases done
  | splits found stale =>
    rw [read_of_splits next] at done
    exact .marks (.inl rfl) ((List.suffix_cons _ _).trans (suffix_of_read_bind done))
  | foreign brace opens body =>
    rw [read_of_goes next] at done
    have held := ((List.suffix_cons _ _).trans (List.suffix_cons _ _)).trans (suffix_of_read done)
    exact .marks (.inr (.inl rfl)) held
  | @adds lexeme n found closed fresh plain =>
    rw [read_of_goes next] at done
    cases lexeme with
    | blank => exact .passes found (.inl rfl) done
    | unknown => exact .passes found (.inr rfl) done
    | unterminated cause => cases closed
    | dashes => exact .marks (.inr (.inr rfl)) (suffix_of_read done)
    | token kind => exact .takes found done

/-- A word that one reading holds and the other does not is never made up for. -/
theorem read_word_apart (isWord : a.1 = .identifier ∨ ∃ keyword, a.1 = .keyword keyword)
    (fresh : q.place.fresh = p.place.fresh) (ahead : q.shapes = a :: p.shapes)
    (left : read cs q = .ok q') (right : read cs p = .ok p') : q'.shapes ≠ p'.shapes := by
  -- The reading that lacks the word can only catch up by adding it next; then it lacks it again.
  intro same
  induction length : cs.length using Nat.strong_induction_on generalizing cs q p with
  | _ n ih =>
    subst length
    have held : a :: p.shapes <:+ p'.shapes := by
      rw [← same, ← ahead]
      exact suffix_of_read left
    cases cs with
    | nil =>
      unfold read at left right
      cases left
      cases right
      exact absurd (ahead.symm.trans same) (List.cons_ne_self _ _)
    | cons c cs =>
      have shorter (n : Nat) : (cs.drop n).length < (c :: cs).length := by
        rw [List.length_drop, List.length_cons]
        omega
      cases readsFirst right with
      | @passes lexeme n found blank rest =>
        rcases blank with rfl | rfl
        · rw [read_blank found] at left
          refine ih _ (shorter n) (fresh_after_congr fresh _) ?_ left rest rfl
          exact ahead
        · rw [read_unknown found] at left
          refine ih _ (shorter n) (fresh_after_congr fresh _) ?_ left rest rfl
          exact ahead
      | @takes kind n found rest =>
        have here : a = (kind, String.ofList (c :: cs.take n)) :=
          eq_of_suffixes held (suffix_of_read rest)
        subst here
        have other : kind ≠ .leftBrace := by
          rintro rfl
          simp at isWord
        rw [read_lexeme found other] at left
        refine ih _ (shorter n) (fresh_after_congr fresh _) ?_ left rest rfl
        exact congrArg (List.cons _) ahead
      | marks mark next =>
        rw [← eq_of_suffixes held next] at mark
        rcases isWord with word | ⟨keyword, word⟩ <;> simp [word] at mark

/-- The first token that is read is not foreign text, which stands behind the brace that opens
it. -/
theorem read_not_raw (done : read cs q = .ok q') : q'.tokens = q.tokens ∨
    ∃ a : TokenKind × String, a.1 ≠ .rawText ∧ a :: q.shapes <:+ q'.shapes := by
  induction length : cs.length using Nat.strong_induction_on generalizing cs q with
  | _ n ih =>
    subst length
    cases cs with
    | nil =>
      unfold read at done
      cases done
      exact .inl rfl
    | cons c cs =>
      have shorter (n : Nat) : (cs.drop n).length < (c :: cs).length := by
        rw [List.length_drop, List.length_cons]
        omega
      cases readsFirst done with
      | @passes lexeme n found blank rest =>
        rcases blank with rfl | rfl
        · exact ih (q := q.pass _) _ (shorter n) rest rfl
        · exact ih (q := q.skip _) _ (shorter n) rest rfl
      | takes found rest =>
        refine .inr ⟨_, fun raw => (formed_of_first found).raw ?_, suffix_of_read rest⟩
        exact congrArg Lexeme.token raw
      | marks mark held =>
        refine .inr ⟨_, fun raw => ?_, held⟩
        rw [raw] at mark
        simp at mark

/-- Foreign text that is closed behind the line is not read if the text ends with the line. -/
theorem read_foreign_apart (like : Like q p) {body : List Char}
    (left : (read cs q.opened).bind (read tail) = .ok q')
    (right : read ds (p.enclosed body) = .ok p') : q'.shapes ≠ p'.shapes := by
  intro same
  have brace : q.opened.shapes = p.opened.shapes := (likeSteps.push like _ _).tokens
  have held := suffix_of_read right
  have raw : (TokenKind.rawText, String.ofList body) :: q.opened.shapes <:+ q'.shapes := by
    rw [same, brace]
    exact (List.suffix_cons _ _).trans held
  cases middle : read cs q.opened with
  | error e =>
    rw [middle] at left
    cases left
  | ok m =>
    rw [middle] at left
    have left : read tail m = .ok q' := left
    have begun : q'.tokens = q.opened.tokens ∨
        ∃ a : TokenKind × String, a.1 ≠ .rawText ∧ a :: q.opened.shapes <:+ q'.shapes := by
      rcases read_not_raw middle with none | ⟨a, plain, first⟩
      · have later := read_not_raw left
        rwa [Progress.shapes, none] at later
      · exact .inr ⟨a, plain, first.trans (suffix_of_read left)⟩
    rcases begun with none | ⟨a, plain, first⟩
    · have := raw.length_le
      rw [Progress.shapes, Progress.shapes, none, List.length_cons] at this
      omega
    · exact plain (congrArg Prod.fst (eq_of_suffixes first raw))

end Apart

/-- A lexeme that begins on a line, where the progress was `p` at its start, is another one if the
text ends with the line. -/
def Straddles (p : Progress) (line tail : List Char) : Prop :=
  ∃ ahead c cs r, Arrives (line ++ tail) p ahead (c :: (cs ++ tail)) [] r ∧
    r.lexemeAt c (cs ++ tail) ≠ r.lexemeAt c cs

section Lines

/-- A lexeme that straddles and does not stand in front is come to with the next stride. -/
theorem Straddles.later (straddles : Straddles p (c :: cs) tail)
    (keeps : p.lexemeAt c (cs ++ tail) = p.lexemeAt c cs) :
    tail.length < (stride p (c :: (cs ++ tail))).remainder.length ∧
      ∀ text rest q, stride p (c :: (cs ++ tail)) = .goes text rest q →
        ∃ ahead d ds r, Arrives rest q ahead (d :: (ds ++ tail)) [] r ∧
          r.lexemeAt d (ds ++ tail) ≠ r.lexemeAt d ds := by
  obtain ⟨ahead, d, ds, r, arrives, cut⟩ := straddles
  rw [List.cons_append] at arrives
  generalize whole : c :: (cs ++ tail) = text at arrives ⊢
  generalize here : d :: (ds ++ tail) = front at arrives
  generalize none : ([] : List (List Char)) = outer at arrives
  have longer {rest before : List Char} {q : Progress}
      (later : Arrives rest q before front outer r) : tail.length < rest.length := by
    rw [later.split, ← here]
    simp only [List.length_append, List.length_cons]
    omega
  cases arrives with
  | here =>
    subst here
    obtain ⟨rfl, same⟩ := List.cons.inj whole
    obtain rfl := List.append_cancel_right same
    exact absurd keeps cut
  | goes goes later =>
    have lt := longer later
    subst none here
    rw [goes]
    refine ⟨lt, fun text rest q same => ?_⟩
    cases same
    exact ⟨_, d, ds, r, later, cut⟩
  | inside splits later => exact absurd none.symm (by simp)
  | behind splits middle later =>
    rw [splits]
    refine ⟨longer later, fun text rest q same => ?_⟩
    cases same

theorem read_tail (ends : EndsLine tail) (p : Progress) :
    read tail p =
      read (tail.drop (run isSkipped tail)) (p.pass (tail.take (run isSkipped tail))) := by
  cases tail with
  | nil => rfl
  | cons d tail =>
    obtain rfl := ends d rfl
    exact read_blank (first_blank rfl (by decide) tail) p

theorem stale_after {place : Place} (stale : place.fresh = false) (single : '\n' ∉ text) :
    (place.after text).fresh = false := by
  unfold Place.after
  induction text generalizing place with
  | nil => exact stale
  | cons c text ih =>
    have inLine : c ≠ '\n' := fun same => single (same ▸ .head _)
    refine ih ?_ fun member => single (.tail _ member)
    simp [fresh_next, inLine, stale]

theorem stale_of_goes (goes : stride p cs = .goes text rest q) (stale : p.place.fresh = false)
    (single : '\n' ∉ text) : q.place.fresh = false := by
  cases cs with
  | nil => cases goes
  | cons c cs =>
    have way := front p c cs
    rw [goes] at way
    cases way with
    | @foreign k brace opens body =>
      have inner : '\n' ∉ cs.take k := by
        have part : cs.take k <+: cs.take (k + 1) := List.take_prefix_take_left (Nat.le_succ k)
        exact fun member => single (.tail _ (part.subset member))
      exact stale_after (stale_after (stale_after stale (by decide)) inner) (by decide)
    | @adds lexeme n found closed fresh plain =>
      cases lexeme with
      | unterminated cause => exact stale
      | _ => exact stale_after stale single

theorem straddles_of_goes {p' : Progress}
    (long : stride p (c :: (cs ++ tail)) = .goes text (rest ++ tail) p')
    (keeps : p.lexemeAt c (cs ++ tail) = p.lexemeAt c cs) :
    Straddles p (c :: cs) tail ↔ Straddles p' rest tail := by
  refine ⟨fun straddles => (straddles.later keeps).2 _ _ _ long, fun straddles => ?_⟩
  · obtain ⟨ahead, d, ds, r, arrives, cut⟩ := straddles
    exact ⟨_, d, ds, r, .goes long arrives, cut⟩

theorem bind_read_nil (ends : Except LexError Progress) : ends.bind (read []) = ends := by
  cases ends with
  | error e => rfl
  | ok q =>
    change read [] q = _
    unfold read
    rfl

/-- What is read of a line and of what follows it is the same in one text as in two, unless a lexeme
straddles. -/
theorem read_line (like : Like q p) (stale : p.place.fresh = false) (single : '\n' ∉ line)
    (ends : EndsLine tail) :
    (¬Straddles p line tail → Ends Like ((read line q).bind (read tail)) (read (line ++ tail) p)) ∧
      (Straddles p line tail → ∀ q' p', (read line q).bind (read tail) = .ok q' →
        read (line ++ tail) p = .ok p' → q'.shapes ≠ p'.shapes) := by
  -- Both readings stride alike up to the lexeme that meets the end of the line.
  induction length : line.length using Nat.strong_induction_on generalizing line q p with
  | _ n ih =>
    subst length
    have done (q : Progress) : (read [] q).bind (read tail) = read tail q := by
      rw [show read [] q = .ok q from bind_read_nil (.ok q)]
      rfl
    cases line with
    | nil =>
      refine ⟨fun _ => ?_, fun straddles => ?_⟩
      · rw [done]
        exact likeSteps.read like tail
      · obtain ⟨ahead, c, cs, r, arrives, -⟩ := straddles
        have := congrArg List.length arrives.split
        simp only [List.length_append, List.length_cons, List.length_nil] at this
        omega
    | cons c cs =>
      have single' : '\n' ∉ cs := fun member => single (.tail _ member)
      have here (cut : p.lexemeAt c (cs ++ tail) ≠ p.lexemeAt c cs) : Straddles p (c :: cs) tail :=
        ⟨[], c, cs, p, .here, cut⟩
      rw [List.cons_append]
      cases meetsLineEnd (c := c) like single' stale ends with
      | @same text rest q' p' short long like' keeps =>
        obtain ⟨some, split⟩ := text_of_goes short
        rw [split] at single
        rw [read_of_goes short, read_of_goes long, straddles_of_goes long keeps]
        have stale' := stale_of_goes short (like.fresh.trans stale)
          fun member => single (List.mem_append_left _ member)
        refine ih _ ?_ like' (like'.fresh.symm.trans stale')
          (fun member => single (List.mem_append_right _ member)) rfl
        have := List.length_pos_iff.2 some
        rw [split, List.length_append]
        omega
      | splits short long keeps =>
        refine ⟨fun _ => ?_, fun straddles => ?_⟩
        · rw [read_of_splits short, read_of_splits long, bind_read_nil]
          exact (likeSteps.read (likeSteps.hyphens like) _).bind fun like => likeSteps.read like tail
        · have lt := (straddles.later keeps).1
          rw [long] at lt
          exact absurd lt (Nat.lt_irrefl _)
      | fails short long keeps =>
        refine ⟨fun _ => ?_, fun straddles => ?_⟩
        · rw [read_of_fails short, read_of_fails long]
          exact .error like _
        · have lt := (straddles.later keeps).1
          rw [long] at lt
          exact absurd lt (Nat.not_lt_zero _)
      | blank short long keeps =>
        refine ⟨fun _ => ?_, fun straddles => ?_⟩
        · rw [read_of_goes short, read_of_goes long, done, read_tail ends, Progress.pass_pass]
          exact likeSteps.read (likeSteps.add like _ .blank) _
        · have lt := (straddles.later keeps).1
          rw [long, Stride.remainder, List.length_drop] at lt
          omega
      | left short cut =>
        refine ⟨fun none => absurd (here cut) none, fun _ q' p' left _ => ?_⟩
        rw [read_of_fails short] at left
        cases left
      | @word kind isWord short long cut =>
        refine ⟨fun none => absurd (here cut) none, fun _ q' p' left right => ?_⟩
        rw [read_of_goes short, done] at left
        rw [read_of_goes long, ← List.cons_append, ← Progress.pass_pass, ← read_tail ends] at right
        have ahead : (q.push kind (c :: cs)).shapes =
            (kind, String.ofList (c :: cs)) :: (p.pass (c :: cs)).shapes :=
          congrArg (List.cons _) like.tokens
        exact read_word_apart isWord (fresh_after_congr like.fresh _) ahead left right
      | foreign short long cut =>
        refine ⟨fun none => absurd (here cut) none, fun _ q' p' left right => ?_⟩
        rw [read_of_goes short] at left
        rw [read_of_goes long] at right
        exact read_foreign_apart like left right

end Lines

section Hyphens

variable {before behind : List Char} {outer : List (List Char)}

/-- What has been read when a hyphen and a blank stand here. -/
def Progress.apart (p : Progress) : Progress := (p.push (.symbol '-') ['-']).pass [' ']

theorem read_hyphen (stale : p.place.fresh = false) (single : '\n' ∉ line) :
    read ('-' :: line) p = read line (p.push (.symbol '-') ['-']) := by
  induction line generalizing p with
  | nil => exact read_lexeme (first_hyphen (by simp)) (by simp) p
  | cons c line ih =>
    by_cases double : c = '-'
    · subst double
      have single' : '\n' ∉ line := fun member => single (.tail _ member)
      have splits : stride p ('-' :: '-' :: (line ++ [])) = .splits line [] :=
        stride_dashes single' (by simp [EndsLine]) stale
      rw [List.append_nil] at splits
      rw [ih (stale_after stale (by decide)) single', read_of_splits splits, bind_read_nil]
      rfl
    · exact read_lexeme (first_hyphen (by simpa using double)) (by simp) p

theorem read_apart (behind : List Char) (p : Progress) :
    read ('-' :: ' ' :: '-' :: behind) p = read ('-' :: behind) p.apart := by
  rw [read_lexeme (first_hyphen (by simp)) (by simp) p]
  exact read_blank (first_blank rfl (by decide) ('-' :: behind)) _

theorem bind_readEach_nil (ends : Except LexError Progress) : ends.bind (readEach []) = ends := by
  cases ends <;> rfl

theorem Straddles.tail_ne_nil (straddles : Straddles p line tail) : tail ≠ [] := by
  rintro rfl
  obtain ⟨_, c, cs, r, -, cut⟩ := straddles
  exact cut (by rw [List.append_nil])

/-- Only the rest of a line is read as a text of its own. -/
theorem Arrives.single {here : List Char} (arrives : Arrives cs p before here outer r)
    (inner : outer ≠ []) : '\n' ∉ here := by
  induction arrives with
  | here => exact absurd rfl inner
  | goes _ _ ih => exact ih inner
  | inside splits later _ =>
    have single := (text_of_splits splits).2.1
    rw [later.split] at single
    exact fun member => single (List.mem_append_left _ (List.mem_append_right _ member))
  | behind _ _ _ ih => exact ih inner

/-- Two results of reading a source with the same kinds and texts of tokens, or two failures. -/
def SameTokens : Except LexError TokenStream → Except LexError TokenStream → Prop
  | .ok stream, .ok stream' => stream.tokens.map Token.shape = stream'.tokens.map Token.shape
  | .error _, .error _ => True
  | _, _ => False

theorem sameTokens_ofSource {source source' : String} :
    SameTokens (ofSource source) (ofSource source') ↔
      (∃ q p, read source.toList {} = .ok q ∧ read source'.toList {} = .ok p ∧
        q.shapes = p.shapes) ∨
      (∃ e, ofSource source = .error e) ∧ ∃ e, ofSource source' = .error e := by
  unfold ofSource
  cases read source.toList {} with
  | error e => cases read source'.toList {} <;> simp [SameTokens, Except.map]
  | ok q =>
    cases read source'.toList {} with
    | error e => simp [SameTokens, Except.map]
    | ok p => simp [SameTokens, Except.map, Progress.push, Token.shape]

theorem sameTokens_of_likeEnds {source source' : String}
    (ends : Ends Like (read source.toList {}) (read source'.toList {})) :
    SameTokens (ofSource source) (ofSource source') := by
  unfold ofSource
  generalize read source.toList {} = left, read source'.toList {} = right at ends
  cases ends with
  | ok like =>
    have shapes := like.tokens
    simpa [SameTokens, Except.map, Progress.push, Token.shape] using shapes
  | error e e' => trivial

/-- Two hyphens and the line behind them, as a hyphen and the line that begins with the other. -/
theorem read_doubled (stale : p.place.fresh = false) (single : '\n' ∉ line) (ends : EndsLine tail) :
    read ('-' :: '-' :: (line ++ tail)) p =
      (read ('-' :: line) (p.push (.symbol '-') ['-'])).bind (read tail) := by
  rw [read_of_splits (stride_dashes single ends stale),
    read_hyphen (stale_after stale (by decide)) single]
  rfl

theorem stale_apart (stale : p.place.fresh = false) : p.apart.place.fresh = false :=
  stale_after (stale_after stale (by decide)) (by decide)

theorem like_apart (stale : p.place.fresh = false) : Like (p.push (.symbol '-') ['-']) p.apart :=
  ⟨(stale_after stale (by decide)).trans (stale_apart stale).symm, rfl⟩

/-- Two hyphens inside a line are read as two hyphens that stand apart, or fail to be read like
them, if and only if each lexeme that begins behind them on the line is the same when the text ends
with the line, or both sources fail anyway. -/
theorem ofSource_apart_iff {source : String}
    (arrives : Arrives source.toList {} before ('-' :: '-' :: behind) outer p)
    (stale : p.place.fresh = false) :
    source.toList = before ++ '-' :: '-' :: behind ++ outer.flatten ∧
      (SameTokens (ofSource source)
          (ofSource (String.ofList (before ++ '-' :: ' ' :: '-' :: behind ++ outer.flatten))) ↔
        ¬Straddles p.apart ('-' :: behind.takeWhile (· != '\n')) (behind.dropWhile (· != '\n')) ∨
        (∃ e, ofSource source = .error e) ∧
          ∃ e, ofSource (String.ofList (before ++ '-' :: ' ' :: '-' :: behind ++ outer.flatten)) =
            .error e) := by
  refine ⟨arrives.split, ?_⟩
  have single : '\n' ∉ behind.takeWhile (· != '\n') :=
    fun member => absurd (List.mem_takeWhile_imp member) (by decide)
  have ends : EndsLine (behind.dropWhile (· != '\n')) := by
    intro d member
    have stops := List.head?_dropWhile_not (· != '\n') behind
    rw [member] at stops
    simpa using stops
  have doubled := read_doubled stale single ends
  rw [List.takeWhile_append_dropWhile] at doubled
  have left := arrives.read
  have right := arrives.spaced.read
  rw [doubled] at left
  rw [← String.toList_ofList (l := before ++ _ ++ _), read_apart] at right
  have single' : '\n' ∉ '-' :: behind.takeWhile (· != '\n') := by simpa using single
  have line := read_line (like_apart stale) (stale_apart stale) single' ends
  rw [List.cons_append, List.takeWhile_append_dropWhile] at line
  constructor
  · intro same
    rcases sameTokens_ofSource.1 same with ⟨q, p', left', right', shapes⟩ | fail
    · refine .inl fun straddles => ?_
      have outermost : outer = [] := by
        by_contra inner
        have whole := arrives.single inner
        refine straddles.tail_ne_nil (List.dropWhile_eq_nil_iff.2 fun x member => ?_)
        have inLine : x ≠ '\n' := fun same => whole (same ▸ .tail _ (.tail _ member))
        simpa using inLine
      subst outermost
      rw [left, bind_readEach_nil] at left'
      rw [right, bind_readEach_nil] at right'
      exact line.2 straddles q p' left' right' shapes
    · exact .inr fail
  · rintro (none | fail)
    · refine sameTokens_of_likeEnds ?_
      rw [left, right]
      exact (line.1 none).bind fun like => likeSteps.readEach like outer
    · exact sameTokens_ofSource.2 (.inr fail)

/-- A string that goes on behind the line is cut by two hyphens in front of it. -/
theorem ofSource_apart_iff_string : ∃ p : Progress,
    Arrives "a -- \"x\ny\"".toList {} "a ".toList ('-' :: '-' :: " \"x\ny\"".toList) [] p ∧
      p.place.fresh = false ∧
      ¬SameTokens (ofSource "a -- \"x\ny\"") (ofSource "a - - \"x\ny\"") := by
  have arrives : Arrives "a -- \"x\ny\"".toList {} "a ".toList
      ('-' :: '-' :: " \"x\ny\"".toList) []
      ((({} : Progress).push .identifier ['a']).pass [' ']) :=
    @Arrives.goes _ ['a'] _ _ _ _ _ _ _ rfl (@Arrives.goes _ [' '] _ _ _ _ _ _ _ rfl .here)
  refine ⟨_, arrives, rfl, fun same => ?_⟩
  rcases (ofSource_apart_iff arrives rfl).2.1 same with none | ⟨-, e, fail⟩
  · refine none ⟨['-', ' '], '"', ['x'], _,
      @Arrives.goes _ ['-'] _ _ _ _ _ _ _ rfl (@Arrives.goes _ [' '] _ _ _ _ _ _ _ rfl .here), ?_⟩
    decide
  · have reads : (ofSource "a - - \"x\ny\"").toOption.isSome = true := by decide +kernel
    rw [show ofSource "a - - \"x\ny\"" = .error e from fail] at reads
    cases reads

end Hyphens

end TokenStream

end TemplateMarkup
