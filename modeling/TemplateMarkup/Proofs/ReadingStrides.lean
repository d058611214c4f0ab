import TemplateMarkup.Proofs.LexemeEnds

/-! Reading as a walk of strides. A stride is what reading does at the lexeme in front: it passes
the lexeme and goes on behind it, or it reads the rest of a line first, or it fails. Two readings of
one text go in lockstep if a relation between their progresses is kept by every stride. -/
namespace TemplateMarkup

/-- Why a lexeme is not one. -/
def Lexeme.cause? : Lexeme → Option Unterminated
  | .unterminated cause => some cause
  | _ => none

/-- A token without its place. -/
def Token.shape (token : Token) : TokenKind × String := (token.kind, token.text)

namespace TokenStream
open Lexeme

variable {c : Char} {cs text rest line : List Char} {p q r : Progress} {lexeme : Lexeme}

/-- What has been read with a lexeme that stands for itself. -/
def Progress.add (p : Progress) (text : List Char) : Lexeme → Progress
  | .blank => p.pass text
  | .unknown => p.skip text
  | .token kind => p.push kind text
  | .dashes => p.push (.comment .generator) text
  | .unterminated _ => p

theorem Progress.place_add (closed : lexeme.cause? = none) :
    (p.add text lexeme).place = p.place.after text := by
  cases lexeme with
  | unterminated cause => cases closed
  | _ => rfl

/-- The length of the foreign text that a lexeme opens here. -/
def Progress.body? (p : Progress) (lexeme : Lexeme) (cs : List Char) : Option Nat :=
  if lexeme = .token .leftBrace ∧ p.opensOrigin = true then bodyLength? 0 cs else none

inductive Stride
  | ends
  | fails (cause : Unterminated)
  /-- A text is passed, and reading goes on behind it. -/
  | goes (text rest : List Char) (later : Progress)
  /-- Two hyphens are passed, and the line behind them is read as a text of its own. -/
  | splits (line rest : List Char)

/-- What is left when a stride is done, the line behind two hyphens with it. -/
def Stride.remainder : Stride → List Char
  | .ends | .fails _ => []
  | .goes _ rest _ | .splits _ rest => rest

/-- What reading does in front of a text. -/
def stride (p : Progress) : List Char → Stride
  | [] => .ends
  | c :: cs =>
    let lexeme := (first c cs).1
    let n := (first c cs).2
    match lexeme.cause? with
    | some cause => .fails cause
    | none =>
      if lexeme = .dashes ∧ p.place.fresh = false then .splits (cs.take n).tail (cs.drop n)
      else
        match p.body? lexeme cs with
        | some k => .goes (c :: cs.take (k + 1)) (cs.drop (k + 1)) (p.enclosed (cs.take k))
        | none => .goes (c :: cs.take n) (cs.drop n) (p.add (c :: cs.take n) lexeme)

/-- The ways to stride. -/
inductive Front (p : Progress) (c : Char) (cs : List Char) : Stride → Prop
  | fails {cause : Unterminated} {n : Nat} (found : first c cs = (.unterminated cause, n)) :
      Front p c cs (.fails cause)
  | splits {n : Nat} (found : first c cs = (.dashes, n)) (stale : p.place.fresh = false) :
      Front p c cs (.splits (cs.take n).tail (cs.drop n))
  | foreign {k : Nat} (brace : c = '\x7b') (opens : p.opensOrigin = true)
      (body : bodyLength? 0 cs = some k) :
      Front p c cs (.goes (c :: cs.take (k + 1)) (cs.drop (k + 1)) (p.enclosed (cs.take k)))
  | adds {lexeme : Lexeme} {n : Nat} (found : first c cs = (lexeme, n))
      (closed : lexeme.cause? = none) (fresh : lexeme = .dashes → p.place.fresh = true)
      (plain : p.body? lexeme cs = none) :
      Front p c cs (.goes (c :: cs.take n) (cs.drop n) (p.add (c :: cs.take n) lexeme))

theorem Progress.body?_eq_some {k : Nat} (body : p.body? lexeme cs = some k) :
    lexeme = .token .leftBrace ∧ p.opensOrigin = true ∧ bodyLength? 0 cs = some k := by
  unfold body? at body
  split at body
  · next opens => exact ⟨opens.1, opens.2, body⟩
  · cases body

theorem Progress.body?_eq_none (body : p.body? (.token .leftBrace) cs = none)
    (opens : p.opensOrigin = true) : bodyLength? 0 cs = none := by
  rwa [body?, if_pos ⟨rfl, opens⟩] at body

theorem front (p : Progress) (c : Char) (cs : List Char) : Front p c cs (stride p (c :: cs)) := by
  obtain ⟨lexeme, n, found⟩ : ∃ lexeme n, first c cs = (lexeme, n) := ⟨_, _, rfl⟩
  simp only [stride, found]
  split
  · next cause given =>
    cases lexeme with
    | unterminated cause' =>
      cases given
      exact .fails found
    | _ => cases given
  · next closed =>
    split
    · next dashes =>
      obtain ⟨rfl, stale⟩ := dashes
      exact .splits found stale
    · next other =>
      split
      · next k body =>
        obtain ⟨rfl, opens, body⟩ := Progress.body?_eq_some body
        exact .foreign ((formed_of_first found).brace rfl).1 opens body
      · next plain =>
        exact .adds found closed (fun dashes => by simpa [dashes] using other) plain

theorem Front.eq {s : Stride} (front : Front p c cs s) : stride p (c :: cs) = s := by
  cases front with
  | fails found => simp only [stride, found, cause?]
  | splits found stale => simp [stride, found, stale, cause?]
  | foreign brace opens body =>
    subst brace
    simp [stride, first_brace, cause?, Progress.body?, opens, body]
  | @adds lexeme n found closed fresh plain =>
    have other : ¬(lexeme = .dashes ∧ p.place.fresh = false) := by
      rintro ⟨dashes, stale⟩
      rw [fresh dashes] at stale
      cases stale
    simp only [stride, found, closed, if_neg other, plain]

section Reading

theorem read_of_fails {cause : Unterminated} (fails : stride p cs = .fails cause) :
    read cs p = .error (p.fail cause) := by
  cases cs with
  | nil => cases fails
  | cons c cs =>
    have way := front p c cs
    rw [fails] at way
    cases way with
    | fails found => exact read_unterminated found p

theorem read_of_splits (splits : stride p cs = .splits line rest) :
    read cs p = (read line p.hyphens).bind (read rest) := by
  cases cs with
  | nil => cases splits
  | cons c cs =>
    have way := front p c cs
    rw [splits] at way
    cases way with
    | splits found stale => exact read_dashes found stale

theorem read_of_goes (goes : stride p cs = .goes text rest q) : read cs p = read rest q := by
  cases cs with
  | nil => cases goes
  | cons c cs =>
    have way := front p c cs
    rw [goes] at way
    cases way with
    | foreign brace opens body =>
      subst brace
      exact read_foreign opens body
    | @adds lexeme n found closed fresh plain =>
      cases lexeme with
      | blank => exact read_blank found p
      | unknown => exact read_unknown found p
      | unterminated cause => cases closed
      | dashes => exact read_dashes_fresh found (fresh rfl)
      | token kind =>
        by_cases brace : kind = .leftBrace
        · subst brace
          obtain ⟨rfl, rfl⟩ := (formed_of_first found).brace rfl
          exact read_brace (Progress.body?_eq_none plain)
        · exact read_lexeme found brace p

/-- What a stride passes is in front of what is left. -/
theorem text_of_goes (goes : stride p cs = .goes text rest q) : text ≠ [] ∧ cs = text ++ rest := by
  cases cs with
  | nil => cases goes
  | cons c cs =>
    have way := front p c cs
    rw [goes] at way
    cases way with
    | foreign => exact ⟨by simp, by simp⟩
    | adds => exact ⟨by simp, by simp⟩

theorem text_of_splits (splits : stride p cs = .splits line rest) :
    cs = '-' :: '-' :: (line ++ rest) ∧ '\n' ∉ line ∧ EndsLine rest ∧ p.place.fresh = false := by
  cases cs with
  | nil => cases splits
  | cons c cs =>
    have way := front p c cs
    rw [splits] at way
    cases way with
    | splits found stale =>
      obtain ⟨rfl, rfl, line, same⟩ := (formed_of_first found).dashes rfl
      have whole := List.take_append_drop (restOfLine cs) cs
      have taken : cs.takeWhile (· != '\n') = cs.take (restOfLine cs) :=
        List.prefix_iff_eq_take.1 (List.takeWhile_prefix _)
      refine ⟨?_, fun member => ?_, fun d next => ?_, stale⟩
      · rw [same] at whole ⊢
        exact congrArg (List.cons '-') whole.symm
      · rw [← taken] at member
        exact absurd (List.mem_takeWhile_imp (List.mem_of_mem_tail member)) (by decide)
      · simpa using head?_drop_run next

theorem stride_dashes (single : '\n' ∉ line) (ends : EndsLine rest)
    (stale : p.place.fresh = false) :
    stride p ('-' :: '-' :: (line ++ rest)) = .splits line rest := by
  have length : restOfLine ('-' :: line ++ rest) = line.length + 1 := by
    have none : run (· != '\n') rest = 0 :=
      run_eq_zero_iff.2 fun d member => by simp [ends d member]
    unfold restOfLine
    rw [run_append_of_all, none]
    · rfl
    · intro x member
      have inLine : x ≠ '\n' := by
        rintro rfl
        rcases List.mem_cons.1 member with same | member
        · exact absurd same (by decide)
        · exact single member
      simpa using inLine
  have way := Front.splits (first_dashes (line ++ rest)) stale
  rw [← List.cons_append, length] at way
  simpa using way.eq

end Reading

/-- A relation between two progresses that is kept where both take the same. -/
structure Kept (R : Progress → Progress → Prop) : Prop where
  pass {q p : Progress} (related : R q p) (text : List Char) : R (q.pass text) (p.pass text)
  skip {q p : Progress} (related : R q p) (text : List Char) : R (q.skip text) (p.skip text)
  push {q p : Progress} (related : R q p) (kind : TokenKind) (text : List Char) :
    R (q.push kind text) (p.push kind text)

/-- One that is kept where both read one text. -/
structure Lockstep (R : Progress → Progress → Prop) : Prop extends Kept R where
  fresh {q p : Progress} (related : R q p) : q.place.fresh = p.place.fresh
  opensOrigin {q p : Progress} (related : R q p) : q.opensOrigin = p.opensOrigin

/-- Two strides over one text. -/
inductive Stride.Paired (R : Progress → Progress → Prop) : Stride → Stride → Prop
  | ends : Stride.Paired R .ends .ends
  | fails (cause : Unterminated) : Stride.Paired R (.fails cause) (.fails cause)
  | goes {q p : Progress} (text rest : List Char) (related : R q p) :
      Stride.Paired R (.goes text rest q) (.goes text rest p)
  | splits (line rest : List Char) : Stride.Paired R (.splits line rest) (.splits line rest)

/-- Two readings that come to related progresses, or fail there for one cause. -/
inductive Ends (R : Progress → Progress → Prop) :
    Except LexError Progress → Except LexError Progress → Prop
  | ok {q p : Progress} (related : R q p) : Ends R (.ok q) (.ok p)
  | error {q p : Progress} (related : R q p) (cause : Unterminated) :
      Ends R (.error (q.fail cause)) (.error (p.fail cause))

variable {R : Progress → Progress → Prop}

theorem Ends.imp {S : Progress → Progress → Prop} {a b : Except LexError Progress}
    (ends : Ends R a b) (weaker : ∀ {q p}, R q p → S q p) : Ends S a b := by
  cases ends with
  | ok related => exact .ok (weaker related)
  | error related cause => exact .error (weaker related) cause

theorem Ends.bind {a b : Except LexError Progress} (ends : Ends R a b)
    {f g : Progress → Except LexError Progress} (behind : ∀ {q p}, R q p → Ends R (f q) (g p)) :
    Ends R (a.bind f) (b.bind g) := by
  cases ends with
  | ok related => exact behind related
  | error related cause => exact .error related cause

section Related

variable {R : Progress → Progress → Prop} (related : R q p)

include related

theorem Kept.add (kept : Kept R) (text : List Char) (lexeme : Lexeme) :
    R (q.add text lexeme) (p.add text lexeme) := by
  cases lexeme with
  | blank => exact kept.pass related text
  | unknown => exact kept.skip related text
  | token kind => exact kept.push related kind text
  | dashes => exact kept.push related _ text
  | unterminated => exact related

theorem Kept.enclosed (kept : Kept R) (text : List Char) : R (q.enclosed text) (p.enclosed text) :=
  kept.push (kept.push (kept.push related _ _) _ _) _ _

theorem Kept.hyphens (kept : Kept R) : R q.hyphens p.hyphens :=
  kept.push (kept.push related _ _) _ _

namespace Lockstep

variable (step : Lockstep R)

include step

theorem body? (lexeme : Lexeme) (cs : List Char) : q.body? lexeme cs = p.body? lexeme cs := by
  unfold Progress.body?
  rw [step.opensOrigin related]

theorem stride (cs : List Char) :
    Stride.Paired R (TokenStream.stride q cs) (TokenStream.stride p cs) := by
  cases cs with
  | nil => exact .ends
  | cons c cs =>
    have way := front p c cs
    generalize TokenStream.stride p (c :: cs) = taken at way
    cases way with
    | fails found =>
      rw [(Front.fails found).eq]
      exact .fails _
    | splits found stale =>
      rw [(Front.splits found ((step.fresh related).trans stale)).eq]
      exact .splits _ _
    | foreign brace opens body =>
      rw [(Front.foreign brace ((step.opensOrigin related).trans opens) body).eq]
      exact .goes _ _ (step.enclosed related _)
    | adds found closed fresh plain =>
      rw [(Front.adds found closed (fun dashes => (step.fresh related).trans (fresh dashes))
        ((step.body? related _ _).trans plain)).eq]
      exact .goes _ _ (step.add related _ _)

theorem read (cs : List Char) : Ends R (TokenStream.read cs q) (TokenStream.read cs p) := by
  induction length : cs.length using Nat.strong_induction_on generalizing cs q p with
  | _ n ih =>
    subst length
    have strides := step.stride related cs
    generalize left : TokenStream.stride q cs = s at strides
    generalize right : TokenStream.stride p cs = t at strides
    cases strides with
    | ends =>
      cases cs with
      | nil =>
        unfold TokenStream.read
        exact .ok related
      | cons c cs =>
        have way := front q c cs
        rw [left] at way
        cases way
    | fails cause =>
      rw [read_of_fails left, read_of_fails right]
      exact .error related cause
    | goes text rest related =>
      obtain ⟨some, rfl⟩ := text_of_goes left
      rw [read_of_goes left, read_of_goes right]
      refine ih _ ?_ related rest rfl
      have := List.length_pos_iff.2 some
      rw [List.length_append]
      omega
    | splits line rest =>
      obtain ⟨rfl, -⟩ := text_of_splits left
      rw [read_of_splits left, read_of_splits right]
      have shorter : line.length < ('-' :: '-' :: (line ++ rest)).length ∧
          rest.length < ('-' :: '-' :: (line ++ rest)).length := by
        simp only [List.length_cons, List.length_append]
        omega
      exact (ih _ shorter.1 (step.hyphens related) line rfl).bind fun related =>
        ih _ shorter.2 related rest rfl

end Lockstep

end Related

/-- Two progresses that hold the same kinds and texts of tokens, both or neither at the start of a
line. -/
structure Like (q p : Progress) : Prop where
  fresh : q.place.fresh = p.place.fresh
  tokens : q.tokens.map Token.shape = p.tokens.map Token.shape

theorem fresh_after_congr {a b : Place} (same : a.fresh = b.fresh) (text : List Char) :
    (a.after text).fresh = (b.after text).fresh := by
  unfold Place.after
  induction text generalizing a b with
  | nil => exact same
  | cons c text ih => exact ih (by rw [fresh_next, fresh_next, same])

theorem likeSteps : Lockstep Like where
  fresh like := like.fresh
  opensOrigin {q p} like := by
    have kinds : (q.tokens.take 3).map Token.kind = (p.tokens.take 3).map Token.kind := by
      have shapes := congrArg (fun shapes => (shapes.map Prod.fst).take 3) like.tokens
      simp only [List.map_map, ← List.map_take] at shapes
      exact shapes
    unfold Progress.opensOrigin
    rw [kinds]
  pass like text := ⟨fresh_after_congr like.fresh text, like.tokens⟩
  skip like text := ⟨fresh_after_congr like.fresh text, like.tokens⟩
  push like kind text :=
    ⟨fresh_after_congr like.fresh text, congrArg (List.cons (kind, String.ofList text)) like.tokens⟩

/-- Reads texts one after the other. -/
def readEach : List (List Char) → Progress → Except LexError Progress
  | [], p => .ok p
  | text :: texts, p => (read text p).bind (readEach texts)

theorem Lockstep.readEach (step : Lockstep R) (related : R q p) (texts : List (List Char)) :
    Ends R (readEach texts q) (readEach texts p) := by
  induction texts generalizing q p with
  | nil => exact .ok related
  | cons text texts ih => exact (step.read related text).bind ih

/-- `Arrives cs p before here outer r`: reading `cs` from the progress `p` arrives at `here`, where
a lexeme begins, having read `before` and holding `r`. The texts `outer` are read when `here` is
done, a line behind two hyphens being a text of its own. -/
inductive Arrives : List Char → Progress → List Char → List Char → List (List Char) →
    Progress → Prop
  | here {cs : List Char} {p : Progress} : Arrives cs p [] cs [] p
  | goes {cs text rest before here : List Char} {outer : List (List Char)} {p q r : Progress}
      (goes : stride p cs = .goes text rest q) (later : Arrives rest q before here outer r) :
      Arrives cs p (text ++ before) here outer r
  | inside {cs line rest before here : List Char} {outer : List (List Char)} {p r : Progress}
      (splits : stride p cs = .splits line rest)
      (later : Arrives line p.hyphens before here outer r) :
      Arrives cs p ('-' :: '-' :: before) here (outer ++ [rest]) r
  | behind {cs line rest before here : List Char} {outer : List (List Char)} {p q r : Progress}
      (splits : stride p cs = .splits line rest) (read : read line p.hyphens = .ok q)
      (later : Arrives rest q before here outer r) :
      Arrives cs p ('-' :: '-' :: (line ++ before)) here outer r

section Arrives

variable {before here : List Char} {outer : List (List Char)}

theorem Arrives.split (arrives : Arrives cs p before here outer r) :
    cs = before ++ here ++ outer.flatten := by
  induction arrives with
  | here => simp
  | goes goes _ ih => rw [(text_of_goes goes).2, ih, List.append_assoc, List.append_assoc,
      List.append_assoc]
  | inside splits _ ih | behind splits _ _ ih => simp [(text_of_splits splits).1, ih]

theorem readEach_singleton (text : List Char) : readEach [text] = read text := by
  funext p
  rw [readEach]
  cases read text p <;> rfl

theorem readEach_append (texts texts' : List (List Char)) (p : Progress) :
    readEach (texts ++ texts') p = (readEach texts p).bind (readEach texts') := by
  induction texts generalizing p with
  | nil => rfl
  | cons text texts ih =>
    rw [List.cons_append, readEach, readEach]
    cases TokenStream.read text p with
    | error e => rfl
    | ok q => exact ih q

theorem Arrives.read (arrives : Arrives cs p before here outer r) :
    read cs p = (read here r).bind (readEach outer) := by
  induction arrives with
  | @here cs p => cases TokenStream.read cs p <;> rfl
  | goes goes _ ih => rw [read_of_goes goes, ih]
  | @inside _ _ rest _ here outer _ r splits _ ih =>
    rw [read_of_splits splits, ih, ← readEach_singleton rest]
    cases TokenStream.read here r with
    | error e => rfl
    | ok q => exact (readEach_append outer [rest] q).symm
  | behind splits middle _ ih =>
    rw [read_of_splits splits, middle, ← ih]
    rfl

end Arrives

end TokenStream

end TemplateMarkup
