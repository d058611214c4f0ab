import TemplateMarkup.Parsing.Cursor

/-! What the primitive parses give on a state. -/
namespace TemplateMarkup

namespace SymbolTable

variable (table : SymbolTable)

theorem registerOrigin_eq (type : OriginType) (name : QualifiedName) (content : String) :
    (table.registerOrigin type name content).2 =
      { table with origins := (table.registerOrigin type name content).2.origins } := by
  unfold registerOrigin
  split <;> rfl

theorem registerConfiguration_eq (name : String) (config : Config) :
    (table.registerConfiguration name config).2 = { table with
      configurations := (table.registerConfiguration name config).2.configurations } := by
  unfold registerConfiguration
  split <;> rfl

end SymbolTable

namespace Parse

variable {α β : Type} (input : ParseInput) (s : ParseState)

theorem bind_apply (x : Parse α) (f : α → Parse β) :
    (x >>= f) input s = match x input s with
      | .ok v s' => f v input s'
      | .error e s' => .error e s' := by
  change EStateM.bind (x input) (fun v => f v input) s = _
  unfold EStateM.bind
  cases x input s <;> rfl

variable {input s} in
theorem bind_ok {x : Parse α} {f : α → Parse β} {a : α} {s' : ParseState}
    (run : x input s = .ok a s') : (x >>= f) input s = f a input s' := by
  rw [bind_apply, run]

variable {input s} in
theorem bind_eq_ok {x : Parse α} {f : α → Parse β} {v : β} {s' : ParseState}
    (h : (x >>= f) input s = .ok v s') :
    ∃ a middle, x input s = .ok a middle ∧ f a input middle = .ok v s' := by
  rw [bind_apply] at h
  cases run : x input s with
  | ok a middle =>
    rw [run] at h
    exact ⟨a, middle, rfl, h⟩
  | error e middle =>
    rw [run] at h
    cases h

theorem ite_apply (c : Prop) [Decidable c] (x y : Parse α) :
    (if c then x else y) input s = if c then x input s else y input s := by
  split <;> rfl

@[simp] theorem pure_apply (v : α) : (pure v : Parse α) input s = .ok v s := rfl

@[simp] theorem read_apply : (read : Parse ParseInput) input s = .ok input s := rfl

@[simp] theorem cursor_apply : cursor input s = .ok s.cursor s := rfl

@[simp] theorem peek_apply : peek input s = .ok (input.token s.cursor) s := rfl

theorem peek_bind (f : Token → Parse α) :
    (peek >>= f) input s = f (input.token s.cursor) input s := rfl

@[simp] theorem peekKind_apply : peekKind input s = .ok (input.token s.cursor).kind s := rfl

@[simp] theorem currentScope_apply :
    currentScope input s = .ok s.document.symbols.currentScope s := rfl

theorem advance_apply :
    advance input s = .ok (input.token s.cursor)
      (if s.cursor < input.tokens.size - 1 then { s with cursor := s.cursor + 1 } else s) := rfl

/-- A block one level deeper meets the limit, or runs as it does alone. -/
theorem deeper_cases (block : Parse α) :
    input.maxDepth ≤ s.depth ∧ deeper block input s = tooDeep input s ∨
    s.depth < input.maxDepth ∧
      ((∃ a s', block input { s with depth := s.depth + 1 } = .ok a s' ∧
        deeper block input s = .ok a { s' with depth := s'.depth - 1 }) ∨
      ∃ e s', block input { s with depth := s.depth + 1 } = .error e s' ∧
        deeper block input s = .error e { s' with depth := s'.depth - 1 }) := by
  unfold deeper
  by_cases full : input.maxDepth ≤ s.depth
  · exact .inl ⟨full, if_pos full⟩
  · rw [if_neg full]
    refine .inr ⟨Nat.lt_of_not_le full, ?_⟩
    cases run : block input { s with depth := s.depth + 1 } with
    | ok a s' => exact .inl ⟨a, s', rfl, rfl⟩
    | error e s' => exact .inr ⟨e, s', rfl, rfl⟩

theorem unexpected_apply (what : String) :
    ∃ e, (unexpected what : Parse α) input s = .error e s := by
  unfold unexpected
  rw [bind_apply, peek_apply]
  dsimp only
  split <;> exact ⟨_, rfl⟩

end Parse

namespace ParseInput

variable {input : ParseInput} {index : Nat}

theorem getElem?_eq_token (h : index < input.tokens.size) :
    input.tokens[index]? = some (input.token index) := by
  rw [Array.getElem?_eq_getElem h]
  unfold token
  congr
  omega

theorem token_mem (h : index < input.tokens.size) : input.token index ∈ input.tokens :=
  Array.mem_of_getElem? (getElem?_eq_token h)

theorem token_eq_getElem {input : ParseInput} {tokens : List Token}
    (same : input.tokens.toList = tokens) {i : Nat} (h : i < input.tokens.size) :
    ∃ inside : i < tokens.length, input.token i = tokens[i] := by
  subst same
  refine ⟨by simpa using h, ?_⟩
  simp only [token, Nat.min_eq_left (show i ≤ input.tokens.size - 1 by omega),
    Array.getElem_toList]

theorem token_of_size_le (h : input.tokens.size ≤ index) :
    input.token index = input.token (input.tokens.size - 1) := by
  have same : min index (input.tokens.size - 1) =
      min (input.tokens.size - 1) (input.tokens.size - 1) := by omega
  simp only [token, same]

theorem getElem_eq_token {i : Nat} (inside : i < input.tokens.size) :
    input.tokens[i] = input.token i := by
  have found := getElem?_eq_token inside
  rw [Array.getElem?_eq_getElem inside] at found
  exact Option.some.inj found

theorem closingBrace?_spec {depth i close : Nat}
    (found : input.closingBrace? depth i = some close) :
    i ≤ close ∧ close < input.tokens.size ∧ (input.token close).kind = .rightBrace := by
  induction left : input.tokens.size - i using Nat.strongRecOn generalizing depth i with
  | _ left ih =>
  rw [closingBrace?] at found
  split at found
  · next inside =>
    rw [getElem_eq_token inside] at found
    split at found
    · obtain ⟨le, rest⟩ := ih _ (by omega) found rfl
      exact ⟨by omega, rest⟩
    · next brace =>
      split at found
      · cases found
        exact ⟨Nat.le_refl _, inside, brace⟩
      · obtain ⟨le, rest⟩ := ih _ (by omega) found rfl
        exact ⟨by omega, rest⟩
    · obtain ⟨le, rest⟩ := ih _ (by omega) found rfl
      exact ⟨by omega, rest⟩
  · cases found

end ParseInput

theorem Parse.tokenAt_apply {input : ParseInput} {index : Nat} (s : ParseState)
    (h : index < input.tokens.size) : Parse.tokenAt index input s = .ok (input.token index) s := by
  unfold Parse.tokenAt
  rw [Parse.bind_apply, Parse.read_apply]
  dsimp only
  rw [ParseInput.getElem?_eq_token h]
  rfl

theorem Parse.matchingBrace_eq_ok {input : ParseInput} {s s' : ParseState} {i close : Nat}
    (run : Parse.matchingBrace i input s = .ok close s') :
    input.closingBrace? 0 i = some close ∧ s' = s := by
  unfold Parse.matchingBrace at run
  rw [Parse.bind_apply, Parse.read_apply] at run
  cases found : input.closingBrace? 0 i with
  | none =>
    simp only [found] at run
    cases run
  | some close =>
    simp only [found] at run
    cases run
    exact ⟨rfl, rfl⟩

end TemplateMarkup
