import Mathlib.Data.Option.Basic
import TemplateMarkup.Parsing.Values
import TemplateMarkup.Proofs.ParseSteps

/-! Parses that do not tell the two marks of assignment apart. An input is compared with the one
in which every equals sign has become a colon; where no two marks follow one another, a parse gives
the same on both. -/
namespace TemplateMarkup

/-- A kind with both marks of assignment made one. -/
def TokenKind.plain : TokenKind → TokenKind
  | .equals => .colon
  | kind => kind

theorem TokenKind.of_plain {α : Type} (g : TokenKind → α) (swap : g .equals = g .colon)
    (kind : TokenKind) : g kind.plain = g kind := by
  cases kind <;> first | rfl | exact swap.symm

def Token.plain (token : Token) : Token := { token with kind := token.kind.plain }

namespace Token

variable (token : Token)

theorem of_plain {α : Type} (g : Token → α)
    (swap : ∀ text span, g ⟨.equals, text, span⟩ = g ⟨.colon, text, span⟩) :
    g token.plain = g token :=
  TokenKind.of_plain (fun kind => g ⟨kind, token.text, token.span⟩) (swap token.text token.span)
    token.kind

@[simp] theorem kind_plain : token.plain.kind = token.kind.plain := rfl

@[simp] theorem text_plain : token.plain.text = token.text := rfl

@[simp] theorem span_plain : token.plain.span = token.span := rfl

@[simp] theorem isName_plain : token.plain.isName = token.isName :=
  TokenKind.of_plain TokenKind.isName rfl token.kind

@[simp] theorem isAssign_plain : token.plain.isAssign = token.isAssign :=
  TokenKind.of_plain TokenKind.isAssign rfl token.kind

end Token

namespace ParseInput

/-- The input with both marks made one. -/
def plain (input : ParseInput) : ParseInput :=
  { input with
    tokens := input.tokens.map Token.plain
    nonempty := by simpa using input.nonempty }

/-- No two marks follow one another. -/
def Spaced (input : ParseInput) : Prop :=
  ∀ index, (input.token index).isAssign → (input.token (index + 1)).isAssign = false

variable (input : ParseInput)

@[simp] theorem size_plain : input.plain.tokens.size = input.tokens.size := by
  simp [plain]

@[simp] theorem maxDepth_plain : input.plain.maxDepth = input.maxDepth := rfl

@[simp] theorem token_plain (index : Nat) :
    input.plain.token index = (input.token index).plain := by
  simp [token, plain]

@[simp] theorem getElem?_plain (index : Nat) :
    input.plain.tokens[index]? = input.tokens[index]?.map Token.plain := by
  simp [plain]

@[simp] theorem adjacent_plain (index : Nat) :
    input.plain.adjacent index = input.adjacent index := by
  unfold adjacent
  rw [getElem?_plain]
  cases input.tokens[index]? with
  | none => rfl
  | some token =>
    cases index with
    | zero => rfl
    | succ before =>
      simp only [getElem?_plain, Option.map_some]
      cases input.tokens[before]? <;> rfl

/-- The kinds that a search goes by are those of the input. -/
theorem kind_plain {index : Nat} (inside : index < input.tokens.size)
    (inside' : index < input.plain.tokens.size) :
    input.plain.tokens[index].kind = input.tokens[index].kind.plain := by
  simp [plain, Token.plain]

@[simp] theorem closingBrace?_plain (depth index : Nat) :
    input.plain.closingBrace? depth index = input.closingBrace? depth index := by
  induction left : input.tokens.size - index using Nat.strongRecOn generalizing depth index with
  | ind left ih =>
    unfold closingBrace?
    by_cases inside : index < input.tokens.size
    · have next (depth : Nat) := ih _ (by omega) depth (index + 1) rfl
      have inside' : index < input.plain.tokens.size := by rwa [size_plain]
      rw [dif_pos inside, dif_pos inside', kind_plain input inside inside']
      cases input.tokens[index].kind <;> simp only [TokenKind.plain, next]
    · rw [dif_neg inside, dif_neg (by rwa [size_plain])]

@[simp] theorem closingParen?_plain (depth index : Nat) :
    input.plain.closingParen? depth index = input.closingParen? depth index := by
  induction left : input.tokens.size - index using Nat.strongRecOn generalizing depth index with
  | ind left ih =>
    unfold closingParen?
    by_cases inside : index < input.tokens.size
    · have next (depth : Nat) := ih _ (by omega) depth (index + 1) rfl
      have inside' : index < input.plain.tokens.size := by rwa [size_plain]
      rw [dif_pos inside, dif_pos inside', kind_plain input inside inside']
      cases input.tokens[index].kind <;> simp only [TokenKind.plain, next]
    · rw [dif_neg inside, dif_neg (by rwa [size_plain])]

@[simp] theorem braceAhead_plain (index : Nat) :
    input.plain.braceAhead index = input.braceAhead index := by
  induction left : input.tokens.size - index using Nat.strongRecOn generalizing index with
  | ind left ih =>
    unfold braceAhead
    by_cases inside : index < input.tokens.size
    · have next := ih _ (by omega) (index + 1) rfl
      have inside' : index < input.plain.tokens.size := by rwa [size_plain]
      rw [dif_pos inside, dif_pos inside', kind_plain input inside inside']
      cases input.tokens[index].kind <;> simp only [TokenKind.plain, next]
    · rw [dif_neg inside, dif_neg (by rwa [size_plain])]

end ParseInput

namespace Parse

/-- A parse that does not tell the two marks apart where they do not follow one another. -/
class Blind {α : Type} (x : Parse α) : Prop where
  same : ∀ input s, input.Spaced → x input.plain s = x input s

/-- A kind that is neither of the marks. -/
class Unmarked (kind : TokenKind) : Prop where
  isAssign : kind.isAssign = false

instance (word : Keyword) : Unmarked (.keyword word) := ⟨rfl⟩
instance (word : AtWord) : Unmarked (.atWord word) := ⟨rfl⟩
instance : Unmarked .identifier := ⟨rfl⟩
instance : Unmarked .classSelector := ⟨rfl⟩
instance : Unmarked .leftBrace := ⟨rfl⟩
instance : Unmarked .rightBrace := ⟨rfl⟩
instance : Unmarked .leftBracket := ⟨rfl⟩
instance : Unmarked .rightBracket := ⟨rfl⟩
instance : Unmarked .leftParen := ⟨rfl⟩
instance : Unmarked .rightParen := ⟨rfl⟩
instance : Unmarked .semicolon := ⟨rfl⟩
instance : Unmarked .comma := ⟨rfl⟩
instance : Unmarked .eof := ⟨rfl⟩

@[simp] theorem plain_eq_iff (kind other : TokenKind) [unmarked : Unmarked other] :
    kind.plain = other ↔ kind = other := by
  have differs (mark : TokenKind) (isAssign : mark.isAssign = true) : mark ≠ other := by
    rintro rfl
    rw [unmarked.isAssign] at isAssign
    cases isAssign
  refine iff_of_eq (TokenKind.of_plain (· = other) ?_ kind)
  rw [eq_false (differs .equals rfl), eq_false (differs .colon rfl)]

theorem plain_beq (kind other : TokenKind) [Unmarked other] :
    (kind.plain == other) = (kind == other) := by
  rw [Bool.eq_iff_iff, beq_iff_eq, beq_iff_eq, plain_eq_iff]

variable {α β : Type}

instance (a : α) : Blind (pure a) := ⟨fun _ _ _ => rfl⟩

instance blind_bind (x : Parse α) (f : α → Parse β) [first : Blind x] [rest : ∀ a, Blind (f a)] :
    Blind (x >>= f) where
  same input s spaced := by
    rw [bind_apply, bind_apply, first.same input s spaced]
    cases x input s with
    | error e s' => rfl
    | ok a s' => exact (rest a).same input s' spaced

instance blind_map (f : α → β) (x : Parse α) [Blind x] : Blind (f <$> x) :=
  blind_bind x fun a => pure (f a)

instance blind_ite (c : Prop) [Decidable c] (x y : Parse α) [hx : Blind x] [hy : Blind y] :
    Blind (if c then x else y) := by
  split
  · exact hx
  · exact hy

instance : Blind (get : Parse ParseState) := ⟨fun _ _ _ => rfl⟩

instance (f : ParseState → ParseState) : Blind (modify f : Parse Unit) := ⟨fun _ _ _ => rfl⟩

instance : Blind cursor := ⟨fun _ _ _ => rfl⟩

instance (index : Nat) : Blind (moveTo index) := ⟨fun _ _ _ => rfl⟩

theorem Blind.andThen {x : Parse α} {f : α → Parse β} [Blind x] (rest : ∀ a, Blind (f a)) :
    Blind (x >>= f) := inferInstance

theorem Blind.bind {x : Parse α} {f : α → Parse β} (_ : Blind x) (rest : ∀ a, Blind (f a)) :
    Blind (x >>= f) := inferInstance

theorem Blind.ite {c : Prop} [Decidable c] {x y : Parse α} (left : Blind x) (right : Blind y) :
    Blind (if c then x else y) := inferInstance

/-- What follows a token that is looked at must be the same for both marks. -/
theorem Blind.peekAt {ahead : Nat} {f : Token → Parse β} (each : ∀ t, Blind (f t))
    (swap : ∀ text span, f ⟨.equals, text, span⟩ = f ⟨.colon, text, span⟩) :
    Blind (peekAt ahead >>= f) where
  same input s spaced := by
    change f (input.plain.token (s.cursor + ahead)) input.plain s =
      f (input.token (s.cursor + ahead)) input s
    rw [ParseInput.token_plain, Token.of_plain _ f swap]
    exact (each _).same input s spaced

theorem Blind.peek {f : Token → Parse β} (each : ∀ t, Blind (f t))
    (swap : ∀ text span, f ⟨.equals, text, span⟩ = f ⟨.colon, text, span⟩) :
    Blind (peek >>= f) := .peekAt each swap

theorem Blind.peekKind {f : TokenKind → Parse β} (each : ∀ kind, Blind (f kind))
    (swap : f .equals = f .colon) : Blind (peekKind >>= f) :=
  .peekAt (f := fun t => f t.kind) (fun t => each t.kind) fun _ _ => swap

theorem Blind.advance {f : Token → Parse β} (each : ∀ t, Blind (f t))
    (swap : ∀ text span, f ⟨.equals, text, span⟩ = f ⟨.colon, text, span⟩) :
    Blind (advance >>= f) where
  same input s spaced := by
    rw [bind_apply, bind_apply, advance_apply, advance_apply, ParseInput.token_plain,
      ParseInput.size_plain]
    dsimp only
    rw [Token.of_plain _ f swap]
    exact (each _).same input _ spaced

theorem Blind.read {f : ParseInput → Parse β} (each : ∀ input, Blind (f input))
    (same : ∀ input, f input.plain = f input) : Blind (read >>= f) where
  same input s spaced := by
    change f input.plain input.plain s = f input input s
    rw [same]
    exact (each input).same input s spaced

instance (kind : TokenKind) [Unmarked kind] : Blind (check kind) where
  same input s _ := by
    change EStateM.Result.ok ((input.plain.token s.cursor).kind == kind) s =
      .ok ((input.token s.cursor).kind == kind) s
    rw [ParseInput.token_plain]
    exact congrArg (EStateM.Result.ok · s) (plain_beq _ _)

instance (word : Keyword) : Blind (checkKeyword word) :=
  inferInstanceAs (Blind (check (.keyword word)))

instance (kind : TokenKind) [Unmarked kind] : Blind (nextIs kind) :=
  .peekAt (fun _ => inferInstance) fun text span => by
    have same := (plain_beq .equals kind).symm
    dsimp only
    rw [same]
    rfl

instance : Blind atEnd := inferInstanceAs (Blind (check .eof))

/-- A token that is only passed over. -/
instance blind_skip (x : Parse β) [Blind x] : Blind (advance >>= fun _ => x) :=
  .advance (fun _ => inferInstance) fun _ _ => rfl

instance (kind : TokenKind) [Unmarked kind] : Blind (eat kind) := by
  unfold eat
  infer_instance

instance (problem : ParseProblem) (span : Span) : Blind (fail problem span : Parse α) :=
  ⟨fun _ _ _ => rfl⟩

instance (what : String) : Blind (unexpected what : Parse α) :=
  .peek (fun _ => inferInstance) fun _ _ => rfl

/-- A token that is taken because it is not a mark. -/
theorem advance_unmarked {input : ParseInput} {s : ParseState}
    (unmarked : (input.token s.cursor).isAssign = false) :
    advance input.plain s = advance input s := by
  have same : (input.token s.cursor).plain = input.token s.cursor := by
    rcases h : input.token s.cursor with ⟨kind, text, span⟩
    rw [h] at unmarked
    cases kind <;> first | rfl | cases unmarked
  rw [advance_apply, advance_apply, ParseInput.token_plain, ParseInput.size_plain, same]

instance (kind : TokenKind) (what : String) [unmarked : Unmarked kind] :
    Blind (expect kind what) where
  same input s spaced := by
    unfold expect
    rw [bind_apply, bind_apply, Blind.same (x := check kind) input s spaced]
    change (if (input.token s.cursor).kind == kind then _ else _ : Parse Token) input.plain s =
      (if (input.token s.cursor).kind == kind then _ else _ : Parse Token) input s
    split
    · next found =>
      refine advance_unmarked ?_
      rw [Token.isAssign, eq_of_beq found]
      exact unmarked.isAssign
    · exact Blind.same (x := unexpected what) input s spaced

instance (what : String) : Blind (expectName what) where
  same input s spaced := by
    unfold expectName
    rw [bind_apply, bind_apply, peek_apply, peek_apply, ParseInput.token_plain]
    have name : (input.token s.cursor).plain.isName = (input.token s.cursor).isName :=
      TokenKind.of_plain TokenKind.isName rfl _
    dsimp only
    rw [name]
    split
    · next isName =>
      refine advance_unmarked ?_
      unfold Token.isName at isName
      unfold Token.isAssign
      generalize (input.token s.cursor).kind = kind at isName
      cases kind <;> first | rfl | cases isName
    · exact Blind.same (x := unexpected what) input s spaced

instance (cause : ParseWarningCause) (span : Span) : Blind (warn cause span) :=
  ⟨fun _ _ _ => rfl⟩

instance : Blind adjacentHere where
  same input s _ := by
    change EStateM.Result.ok (input.plain.adjacent s.cursor) s = .ok (input.adjacent s.cursor) s
    rw [ParseInput.adjacent_plain]

instance : Blind (tooDeep : Parse α) :=
  .read (fun _ => .peek (fun _ => inferInstance) fun _ _ => rfl) fun _ => rfl

instance : Blind currentScope := ⟨fun _ _ _ => rfl⟩

instance (f : SymbolTable → SymbolTable) : Blind (modifySymbols f) := ⟨fun _ _ _ => rfl⟩

instance (f : SymbolTable → α × SymbolTable) : Blind (withSymbols f) := ⟨fun _ _ _ => rfl⟩

instance (f : Forest → Forest) : Blind (modifyForest f) := ⟨fun _ _ _ => rfl⟩

instance (parent : Option NodeId) (node : Node) : Blind (addNode parent node) :=
  ⟨fun _ _ _ => rfl⟩

instance blind_loop (step : α → Parse (Option α)) [each : ∀ a, Blind (step a)] (a : α) :
    Blind (loop step a) where
  same input s spaced := by
    fun_induction loop step a input s
    case case1 acc s e s' run | case2 acc s s' run =>
      rw [loop, (each acc).same input s spaced, run]
    case case3 acc s acc' s' run more ih =>
      rw [loop, (each acc).same input s spaced, run, ParseInput.size_plain]
      dsimp only
      rw [if_pos more, ih]
    case case4 acc s acc' s' run stop =>
      rw [loop, (each acc).same input s spaced, run, ParseInput.size_plain]
      dsimp only
      rw [if_neg stop]

instance (step : Parse Bool) [Blind step] (done : Unit) : Blind (repeated step done) := by
  unfold repeated
  infer_instance

instance (step : Parse Bool) [Blind step] : Blind (repeatStep step) := by
  unfold repeatStep
  infer_instance

instance (stop : Parse Bool) [Blind stop] : Blind (skipUntil stop) := by
  unfold skipUntil skipStep
  infer_instance

instance (item : Parse Unit) [Blind item] : Blind (bodyStep item) := by
  unfold bodyStep
  infer_instance

instance (block : Parse α) [blind : Blind block] : Blind (deeper block) where
  same input s spaced := by
    unfold deeper
    rw [ParseInput.maxDepth_plain, blind.same input _ spaced,
      Blind.same (x := tooDeep) input s spaced]

theorem Blind.loop {step : α → Parse (Option α)} (each : ∀ a, Blind (step a)) {a : α} :
    Blind (loop step a) := inferInstance

theorem Blind.deeper {block : Parse α} (_ : Blind block) : Blind (deeper block) := inferInstance

instance (start : Nat) : Blind (matchingBrace start) := by
  refine .read (fun input => ?_) fun input => ?_
  · split <;> infer_instance
  · rw [ParseInput.closingBrace?_plain, ParseInput.getElem?_plain]
    cases input.closingBrace? 0 start with
    | some close => rfl
    | none => cases input.tokens[start]? <;> rfl

theorem Blind.tokenAt {index : Nat} {f : Token → Parse β} (each : ∀ t, Blind (f t))
    (swap : ∀ text span, f ⟨.equals, text, span⟩ = f ⟨.colon, text, span⟩) :
    Blind (tokenAt index >>= f) where
  same input s spaced := by
    unfold Parse.tokenAt
    rw [bind_apply, bind_apply, bind_apply, bind_apply, read_apply, read_apply]
    dsimp only
    rw [ParseInput.getElem?_plain, ParseInput.token_plain]
    cases input.tokens[index]? with
    | none =>
      change f (input.token index).plain input.plain { s with inRange := false } = _
      rw [Token.of_plain _ f swap]
      exact (each _).same input _ spaced
    | some token =>
      change f token.plain input.plain s = _
      rw [Token.of_plain _ f swap]
      exact (each _).same input s spaced

instance (start stop : Nat) : Blind (slice start stop) := by
  refine .read (fun input => ?_) fun input => rfl
  split <;> infer_instance

instance (first last : Nat) : Blind (between first last) :=
  .tokenAt (fun _ => .tokenAt (fun _ => inferInstance) fun _ _ => rfl) fun _ _ => rfl

instance (first last : Nat) : Blind (spanning first last) :=
  .tokenAt (fun _ => .tokenAt (fun _ => inferInstance) fun _ _ => rfl) fun _ _ => rfl

instance (first last : Nat) : Blind (upTo first last) :=
  .tokenAt (fun _ => .tokenAt (fun _ => inferInstance) fun _ _ => rfl) fun _ _ => rfl

section Values

instance (path : String) : Blind (pathStep path) := by
  refine .andThen fun _ => .andThen fun _ => ?_
  split
  · exact .advance (fun _ => inferInstance) fun _ _ => rfl
  · infer_instance

instance : Blind namespacePath := by
  refine .andThen fun first => ?_
  infer_instance

instance : Blind elementIndex := by
  refine .andThen fun _ => .peek (fun token => ?_) fun _ _ => rfl
  split <;> infer_instance

theorem varRefShape?_plain (input : ParseInput) (index : Nat) :
    varRefShape? input.plain index = varRefShape? input index := by
  simp [varRefShape?, Option.bind_map]

instance (index close : Nat) : Blind (overrideValue index close) := by
  refine .tokenAt (fun token => ?_) fun _ _ => rfl
  split <;> infer_instance

instance (index : Nat) : Blind (varRefAt index) := by
  refine .read (fun input => ?_) fun input => by rw [varRefShape?_plain]
  cases varRefShape? input index with
  | none => infer_instance
  | some shape =>
    have rest (override : Option String) : Blind (do
        let ref : VarRef :=
          { group := (← tokenAt index).text
            name := (← tokenAt (index + 2)).text
            override
            scope := ← currentScope
            raw := ← spanning index shape.close }
        return some (ref, shape.close + 1)) := by
      refine .tokenAt (fun _ => ?_) fun _ _ => rfl
      exact .tokenAt (fun _ => inferInstance) fun _ _ => rfl
    dsimp only
    split <;> exact .andThen rest

instance (draft : ValueDraft) : Blind (valueStep draft) := by
  refine .peekKind (fun kind => ?_) rfl
  split
  · infer_instance
  · refine .andThen fun here => .andThen fun found => ?_
    split
    · split <;> infer_instance
    · infer_instance

instance : Blind value := by
  refine .andThen fun start => .andThen fun draft => .andThen fun stop => ?_
  split <;> split <;> infer_instance

instance (lineEnds : Bool) : Blind (literal lineEnds) := by
  refine .peek (fun first => .peekAt (fun next => ?_) fun _ _ => rfl) fun _ _ => rfl
  split
  · infer_instance
  · have stop (start : Nat) : Blind (literalStop lineEnds start first.span.line) :=
      .peek (fun _ => inferInstance) fun _ _ => rfl
    infer_instance

instance : Blind propertyName := by
  refine .andThen fun start => .peek (fun token => ?_) fun _ _ => rfl
  have stop : Blind nameStop :=
    .andThen fun _ => .peek (fun _ => inferInstance) fun _ _ => rfl
  infer_instance

instance : Blind assignedValue := by
  unfold assignedValue
  exact .peek (fun _ => inferInstance) fun _ _ => rfl

instance : Blind property := by
  unfold property
  infer_instance

end Values

section Names

/-- Two marks that follow one another are not there to be read. -/
instance (name : String) : Blind (nameStep name) := by
  refine ⟨fun input s spaced => ?_⟩
  have stops (i : ParseInput)
      (apart : ¬((i.token s.cursor).kind = .colon ∧ (i.token (s.cursor + 1)).kind = .colon)) :
      nameStep name i s = .ok none s := by
    change (if (_ && _ && (i.token (s.cursor + 2)).isName) = true then _ else pure none :
      Parse (Option String)) i s = _
    rw [if_neg]
    · rfl
    · simp only [Bool.and_eq_true, beq_iff_eq]
      exact fun both => apart both.1
  have isAssign (t : Token) (colon : t.kind = .colon) : t.isAssign := by
    rw [Token.isAssign, colon]
    rfl
  have apart (first : (input.token s.cursor).isAssign)
      (second : (input.token (s.cursor + 1)).isAssign) : False := by
    rw [spaced s.cursor first] at second
    cases second
  rw [stops input.plain, stops input]
  · exact fun both => apart (isAssign _ both.1) (isAssign _ both.2)
  · rw [ParseInput.token_plain, ParseInput.token_plain]
    intro both
    have first := isAssign _ both.1
    have second := isAssign _ both.2
    rw [Token.isAssign_plain] at first second
    exact apart first second

instance : Blind definitionName := by
  refine .andThen fun path => ?_
  infer_instance

end Names

end Parse

end TemplateMarkup
