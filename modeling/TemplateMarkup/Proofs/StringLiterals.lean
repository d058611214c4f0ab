import TemplateMarkup.Proofs.ReadingStrides

/-! String literals. A text that is written between quotes is read back, and a quote that nothing
closes is where reading fails. -/
namespace TemplateMarkup

namespace Lexeme

variable {quote c : Char} {cs : List Char}

/-- A character between quotes: a backslash stands before a backslash and before the quote. -/
def escapedChar (quote c : Char) : List Char := if c = quote ∨ c = '\\' then ['\\', c] else [c]

def literal (quote : Char) (text : List Char) : List Char :=
  quote :: (text.flatMap (escapedChar quote) ++ [quote])

/-- The characters that are left when each backslash takes the character behind it. -/
def unescaped : List Char → List Char
  | [] => []
  | '\\' :: _ :: cs => unescaped cs
  | c :: cs => c :: unescaped cs

theorem unescaped_cons (plain : c ≠ '\\') (cs : List Char) :
    unescaped (c :: cs) = c :: unescaped cs := unescaped.eq_3 _ _ (by simp [plain])

variable (isQuote : quote = '"' ∨ quote = '\'' ∨ quote = Char.ofNat 0x60)

include isQuote

theorem quote_plain : quote ≠ '\\' ∧ unescape quote = quote := by
  rcases isQuote with rfl | rfl | rfl <;> decide

/-- The value of an escaped text is the text. -/
theorem stringBody_escaped (text behind : List Char) :
    stringBody quote (text.flatMap (escapedChar quote) ++ quote :: behind) =
      some (text, (text.flatMap (escapedChar quote)).length + 1) := by
  obtain ⟨plain, same⟩ := quote_plain isQuote
  induction text with
  | nil => simp [stringBody_cons plain]
  | cons c text ih =>
    rw [List.flatMap_cons, List.append_assoc]
    by_cases marked : c = quote ∨ c = '\\'
    · have same : unescape c = c := by rcases marked with rfl | rfl <;> [exact same; rfl]
      rw [escapedChar, if_pos marked]
      simp only [List.cons_append, List.nil_append, stringBody, ih, same, Option.map_some,
        List.length_cons]
    · rw [not_or] at marked
      simp [escapedChar, marked, stringBody_cons marked.2, ih]

/-- A string stays open where no quote is left to close it. -/
theorem stringBody_eq_none_iff : stringBody quote cs = none ↔ quote ∉ unescaped cs := by
  have plain := (quote_plain isQuote).1
  fun_induction stringBody quote cs with
  | case1 => simp [unescaped]
  | case2 => simp [unescaped, plain]
  | case3 c cs ih => simp [unescaped, ih]
  | case4 cs => simp [unescaped_cons plain]
  | case5 c cs alone escape other ih =>
    simp [unescaped_cons (plain_of_unescaped alone escape), ih, Ne.symm other]

end Lexeme

/-- A place does not come before another. -/
def Place.Reaches (a b : Place) : Prop := a.line < b.line ∨ a.line = b.line ∧ a.column ≤ b.column

theorem Place.Reaches.next {a b : Place} (reaches : a.Reaches b) (c : Char) :
    a.Reaches (b.next c) ∧ ¬(b.next c).Reaches a := by
  unfold Reaches Place.next at *
  split <;> dsimp only <;> omega

theorem Place.Reaches.after {a b : Place} (reaches : a.Reaches b) (text : List Char) :
    a.Reaches (b.after text) := by
  unfold Place.after
  induction text generalizing b with
  | nil => exact reaches
  | cons c text ih => exact ih (reaches.next c).1

namespace TokenStream
open Lexeme

variable {quote : Char}

theorem reachesSteps (a : Place) : Lockstep fun q p => q = p ∧ a.Reaches p.place where
  fresh := by rintro q _ ⟨rfl, -⟩; rfl
  opensOrigin := by rintro q _ ⟨rfl, -⟩; rfl
  pass := by rintro q _ ⟨rfl, reaches⟩ text; exact ⟨rfl, reaches.after text⟩
  skip := by rintro q _ ⟨rfl, reaches⟩ text; exact ⟨rfl, reaches.after text⟩
  push := by rintro q _ ⟨rfl, reaches⟩ kind text; exact ⟨rfl, reaches.after text⟩

theorem Ends.exists_fail {R : Progress → Progress → Prop} {a : Except LexError Progress}
    {e : LexError} (ends : Ends R a (.error e)) : ∃ q p cause, R q p ∧ e = p.fail cause := by
  cases ends with
  | error related cause => exact ⟨_, _, cause, related, rfl⟩

/-- What fails behind a text that has been passed does not fail in front of it. -/
theorem ne_fail_of_behind {p : Progress} {kind : TokenKind} {c : Char} {text rest : List Char}
    {outer : List (List Char)} {e : LexError} (cause : Unterminated)
    (failed : (read rest (p.push kind (c :: text))).bind (readEach outer) = .error e) :
    e ≠ p.fail cause := by
  have here : p.place.Reaches p.place := .inr ⟨rfl, Nat.le_refl _⟩
  have there : (p.place.next c).Reaches (p.place.next c) := .inr ⟨rfl, Nat.le_refl _⟩
  have reaches : (p.place.next c).Reaches (p.push kind (c :: text)).place := there.after text
  have step := reachesSteps (p.place.next c)
  have ends := (step.read ⟨rfl, reaches⟩ rest).bind fun related => step.readEach related outer
  rw [failed] at ends
  obtain ⟨last, _, cause', ⟨rfl, beyond⟩, rfl⟩ := ends.exists_fail
  intro same
  have line : last.place.line = p.place.line := congrArg LexError.line same
  have column : last.place.column = p.place.column := congrArg LexError.column same
  rw [Place.Reaches, line, column] at beyond
  exact (here.next c).2 beyond

/-- A text between quotes, with a backslash before each backslash and each such quote in it, is read
as one string of this value; and where reading arrives at a quote, it fails there if and only if no
quote is left in the text behind it when each backslash takes the character behind it. -/
theorem ofSource_literal (isQuote : quote = '"' ∨ quote = '\'' ∨ quote = Char.ofNat 0x60) :
    (∀ text : String, let source := literal quote text.toList
      ofSource (String.ofList source) = .ok
        { tokens :=
          [{ kind := .string text, text := String.ofList source
             span := { start := 0, stop := SourceText.byteLength source, line := 1, column := 1 } },
            { kind := .eof, text := "", span := (({} : Place).after source).spanOf [] }]
          skipped := [] }) ∧
    ∀ (source : String) (before behind : List Char) (outer : List (List Char)) (p : Progress),
      Arrives source.toList {} before (quote :: behind) outer p →
        (ofSource source = .error (p.fail .string) ↔ quote ∉ unescaped behind) := by
  constructor
  · intro text source
    have found := first_string isQuote (stringBody_escaped isQuote text.toList [])
    have reads : read source {} = .ok (({} : Progress).push (.string text) source) := by
      rw [show source = literal quote text.toList from rfl, literal, read_lexeme found (by simp),
        List.drop_of_length_le (by simp), List.take_of_length_le (by simp), read]
      simp
    rw [ofSource, String.toList_ofList, reads]
    simp [Except.map, Progress.push, Place.spanOf, Place.after_offset]
  · intro source before behind outer p arrives
    rw [← stringBody_eq_none_iff isQuote, ofSource, arrives.read]
    cases body : stringBody quote behind with
    | none =>
      rw [read_unterminated (first_openString isQuote body)]
      simp [Except.map, Except.bind]
    | some found =>
      refine iff_of_false (fun failed => ?_) (by simp)
      rw [read_lexeme (first_string isQuote body) (by simp)] at failed
      cases whole : (read _ (p.push _ _)).bind (readEach outer) with
      | ok =>
        rw [whole] at failed
        cases failed
      | error e =>
        rw [whole] at failed
        exact ne_fail_of_behind .string whole (Except.error.inj failed)

theorem ofSource_literal_apostrophe :
    (∃ stream, ofSource "'it\\'s \\\\'" = .ok stream ∧
      stream.tokens.map Token.kind = [.string "it's \\", .eof]) ∧
    ∃ p, Arrives "a 'b\\'".toList {} "a ".toList "'b\\'".toList [] p ∧
      ofSource "a 'b\\'" = .error (p.fail .string) := by
  obtain ⟨read, fails⟩ := @ofSource_literal '\'' (.inr (.inl rfl))
  have arrives : Arrives "a 'b\\'".toList {} "a ".toList "'b\\'".toList []
      ((({} : Progress).push .identifier ['a']).pass [' ']) :=
    @Arrives.goes _ ['a'] _ _ _ _ _ _ _ rfl (@Arrives.goes _ [' '] _ _ _ _ _ _ _ rfl .here)
  exact ⟨⟨_, read "it's \\", rfl⟩, _, arrives, (fails _ _ _ _ _ arrives).2 (by decide)⟩

end TokenStream

end TemplateMarkup
