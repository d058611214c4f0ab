import TemplateMarkup.Parsing.Documents
import TemplateMarkup.Proofs.ParseSteps

/-! Parses that read tokens and leave the document as it is. -/
namespace TemplateMarkup.Parse

/-- The state that is left behind, by a success or by a failure. -/
def stateOf {α : Type} : EStateM.Result ParseError ParseState α → ParseState
  | .ok _ s => s
  | .error _ s => s

/-- A parse that leaves the document as it is, also where it fails. -/
class Quiet {α : Type} (x : Parse α) : Prop where
  document : ∀ input s, (stateOf (x input s)).document = s.document

variable {α β : Type}

/-- A parse that only looks up tokens and source, which are there or not. -/
class Looks (x : Parse α) : Prop where
  looks : ∀ input s, ∃ a inRange, x input s = .ok a { s with inRange }

/-- A parse that changes nothing and does not fail. -/
class Still (x : Parse α) : Prop where
  still : ∀ input s, ∃ a, x input s = .ok a s

instance (a : α) : Still (pure a) := ⟨fun _ _ => ⟨a, rfl⟩⟩
instance : Still (read : Parse ParseInput) := ⟨fun _ _ => ⟨_, rfl⟩⟩
instance : Still (get : Parse ParseState) := ⟨fun _ _ => ⟨_, rfl⟩⟩
instance : Still cursor := ⟨fun _ _ => ⟨_, rfl⟩⟩
instance (ahead : Nat) : Still (peekAt ahead) := ⟨fun _ _ => ⟨_, rfl⟩⟩
instance : Still peek := ⟨fun _ _ => ⟨_, rfl⟩⟩
instance : Still peekKind := ⟨fun _ _ => ⟨_, rfl⟩⟩
instance (kind : TokenKind) : Still (check kind) := ⟨fun _ _ => ⟨_, rfl⟩⟩
instance (word : Keyword) : Still (checkKeyword word) := ⟨fun _ _ => ⟨_, rfl⟩⟩
instance (kind : TokenKind) : Still (nextIs kind) := ⟨fun _ _ => ⟨_, rfl⟩⟩
instance : Still atEnd := ⟨fun _ _ => ⟨_, rfl⟩⟩
instance : Still adjacentHere := ⟨fun _ _ => ⟨_, rfl⟩⟩
instance : Still currentScope := ⟨fun _ _ => ⟨_, rfl⟩⟩
instance (lineEnds : Bool) (start line : Nat) : Still (literalStop lineEnds start line) :=
  ⟨fun _ _ => ⟨_, rfl⟩⟩
instance : Still nameStop := ⟨fun _ _ => ⟨_, rfl⟩⟩
instance : Still atRuleStop := ⟨fun _ _ => ⟨_, rfl⟩⟩
instance (word : Keyword) : Still (clauseStop word) := ⟨fun _ _ => ⟨_, rfl⟩⟩

instance (priority := low) looks_of_still (x : Parse α) [still : Still x] : Looks x :=
  ⟨fun input s => (still.still input s).imp fun _ run => ⟨s.inRange, run⟩⟩

instance looks_bind (x : Parse α) (f : α → Parse β) [first : Looks x] [rest : ∀ a, Looks (f a)] :
    Looks (x >>= f) where
  looks input s := by
    obtain ⟨a, there, run⟩ := first.looks input s
    rw [bind_apply, run]
    exact (rest a).looks input { s with inRange := there }

instance looks_ite (c : Prop) [Decidable c] (x y : Parse α) [hx : Looks x] [hy : Looks y] :
    Looks (if c then x else y) := by
  split
  · exact hx
  · exact hy

theorem Looks.andThen {x : Parse α} {f : α → Parse β} [Looks x] (rest : ∀ a, Looks (f a)) :
    Looks (x >>= f) := inferInstance

instance (index : Nat) : Looks (tokenAt index) where
  looks input s := by
    unfold tokenAt
    rw [bind_ok (read_apply ..)]
    cases input.tokens[index]? <;> exact ⟨_, _, rfl⟩

instance (start stop : Nat) : Looks (slice start stop) where
  looks input s := by
    unfold slice
    rw [bind_ok (read_apply ..)]
    cases SourceText.slice? input.source start stop <;> exact ⟨_, _, rfl⟩

instance (first last : Nat) : Looks (between first last) := by
  unfold between
  infer_instance

instance (first last : Nat) : Looks (spanning first last) := by
  unfold spanning
  infer_instance

instance (first last : Nat) : Looks (upTo first last) := by
  unfold upTo
  infer_instance

instance (index close : Nat) : Looks (overrideValue index close) := by
  refine .andThen fun token => ?_
  split <;> infer_instance

instance (index : Nat) : Looks (varRefAt index) := by
  refine .andThen fun input => ?_
  split
  · infer_instance
  · simp only [map_eq_pure_bind]
    split <;> infer_instance

instance (priority := low) quiet_of_looks (x : Parse α) [looks : Looks x] : Quiet x where
  document input s := by
    obtain ⟨a, there, run⟩ := looks.looks input s
    rw [run, stateOf]

instance quiet_bind (x : Parse α) (f : α → Parse β) [first : Quiet x] [rest : ∀ a, Quiet (f a)] :
    Quiet (x >>= f) where
  document input s := by
    have same := first.document input s
    rw [bind_apply]
    revert same
    cases x input s with
    | error e s' =>
      exact id
    | ok a s' =>
      intro same
      exact ((rest a).document input s').trans same

instance quiet_map (f : α → β) (x : Parse α) [Quiet x] : Quiet (f <$> x) :=
  quiet_bind x fun a => pure (f a)

instance quiet_ite (c : Prop) [Decidable c] (x y : Parse α) [hx : Quiet x] [hy : Quiet y] :
    Quiet (if c then x else y) := by
  split
  · exact hx
  · exact hy

instance (index : Nat) : Quiet (moveTo index) := ⟨fun _ _ => rfl⟩

instance : Quiet advance where
  document input s := by
    rw [advance_apply]
    dsimp only [stateOf]
    split <;> rfl

instance (kind : TokenKind) : Quiet (eat kind) := by
  unfold eat
  infer_instance

instance (problem : ParseProblem) (span : Span) : Quiet (fail problem span : Parse α) :=
  ⟨fun _ _ => rfl⟩

instance (what : String) : Quiet (unexpected what : Parse α) := by
  unfold unexpected
  infer_instance

instance (kind : TokenKind) (what : String) : Quiet (expect kind what) := by
  unfold expect
  infer_instance

instance (what : String) : Quiet (expectName what) := by
  unfold expectName
  infer_instance

instance (cause : ParseWarningCause) (span : Span) : Quiet (warn cause span) :=
  ⟨fun _ _ => rfl⟩

instance : Quiet (tooDeep : Parse α) := ⟨fun _ _ => rfl⟩

instance quiet_loop (step : α → Parse (Option α)) [each : ∀ a, Quiet (step a)] (a : α) :
    Quiet (loop step a) where
  document input s := by
    fun_induction loop step a input s
    case case1 acc s _ s' run | case2 acc s s' run | case4 acc s _ s' run _ =>
      have same := (each acc).document input s
      rw [run] at same
      exact same
    case case3 acc s acc' s' run more ih =>
      have same := (each acc).document input s
      rw [run] at same
      exact ih.trans same

instance (step : Parse Bool) [Quiet step] (done : Unit) : Quiet (repeated step done) := by
  unfold repeated
  infer_instance

instance (step : Parse Bool) [Quiet step] : Quiet (repeatStep step) := by
  unfold repeatStep
  infer_instance

instance (stop : Parse Bool) [Quiet stop] : Quiet (skipUntil stop) := by
  unfold skipUntil skipStep
  infer_instance

/-- A parse that goes on after a quiet one, by a case distinction. -/
theorem Quiet.andThen {x : Parse α} {f : α → Parse β} [Quiet x] (rest : ∀ a, Quiet (f a)) :
    Quiet (x >>= f) := inferInstance

theorem Quiet.bind {x : Parse α} {f : α → Parse β} (_ : Quiet x) (rest : ∀ a, Quiet (f a)) :
    Quiet (x >>= f) := inferInstance

theorem Quiet.loop {step : α → Parse (Option α)} (each : ∀ a, Quiet (step a)) {a : α} :
    Quiet (loop step a) := inferInstance

instance (start : Nat) : Quiet (matchingBrace start) := by
  refine .andThen fun input => ?_
  split <;> infer_instance

section Values

instance (path : String) : Quiet (pathStep path) := by
  unfold pathStep
  infer_instance

instance (name : String) : Quiet (nameStep name) := by
  unfold nameStep
  infer_instance

instance : Quiet namespacePath := by
  refine .andThen fun first => ?_
  infer_instance

instance : Quiet definitionName := by
  refine .andThen fun path => ?_
  infer_instance

instance : Quiet elementIndex := by
  refine .andThen fun _ => .andThen fun token => ?_
  split <;> infer_instance

instance (draft : ValueDraft) : Quiet (valueStep draft) := by
  refine .andThen fun kind => ?_
  split
  · infer_instance
  · refine .andThen fun here => .andThen fun found => ?_
    split
    · split <;> infer_instance
    · infer_instance

instance : Quiet value := by
  refine .andThen fun start => .andThen fun draft => .andThen fun stop => ?_
  split <;> split <;> infer_instance

instance (lineEnds : Bool) : Quiet (literal lineEnds) := by
  refine .andThen fun first => .andThen fun next => ?_
  split <;> infer_instance

instance : Quiet propertyName := by
  refine .andThen fun start => .andThen fun token => ?_
  split <;> infer_instance

instance : Quiet assignedValue := by
  unfold assignedValue
  infer_instance

instance : Quiet property := by
  unfold property
  infer_instance

end Values

section Statements

instance : Quiet definitionType := by
  refine .andThen fun token => ?_
  split
  · split <;> infer_instance
  · infer_instance

instance : Quiet definitionKind? := by
  refine .andThen fun kind => ?_
  split <;> infer_instance

instance : Quiet target := by
  unfold target
  infer_instance

instance : Quiet insertPosition := by
  refine .andThen fun kind => ?_
  split <;> infer_instance

instance : Quiet selectorPart := by
  refine .andThen fun token => ?_
  split <;> infer_instance

instance (start : Nat) (selector : Selector) : Quiet (selectorStep start selector) := by
  unfold selectorStep
  infer_instance

instance : Quiet selector := by
  refine .andThen fun start => .andThen fun selector => ?_
  infer_instance

instance : Looks ruleAhead := by
  unfold ruleAhead
  infer_instance

instance : Quiet atRule := by
  refine .andThen fun start => .andThen fun _ => .andThen fun kind => ?_
  split <;> infer_instance

instance (index close : Nat) : Looks (bracedAt index close) := by
  unfold bracedAt
  infer_instance

instance (index close : Nat) : Looks (originRefAt index close) := by
  refine .andThen fun input => ?_
  split <;> infer_instance

instance (index : Nat) : Looks (isMethod index) := by
  unfold isMethod
  infer_instance

instance (index close : Nat) : Looks (scriptPartAt index close) := by
  refine .andThen fun token => ?_
  split
  case h_3 =>
    refine .andThen fun found => ?_
    split <;> infer_instance
  all_goals infer_instance

instance : Quiet (modify stall : Parse Unit) := ⟨fun _ _ => rfl⟩

instance : Quiet (outOfLevels : Parse α) := by
  unfold outOfLevels
  infer_instance

instance (close index : Nat) (draft : ScriptDraft) : Quiet (scriptParts close index draft) := by
  fun_induction scriptParts close index draft
  case case1 index draft inside ih more =>
    refine .andThen fun found => ?_
    split
    · exact ih
    · next part next =>
      refine .andThen fun _ => .andThen fun code => .andThen fun last => ?_
      dsimp only
      split
      · next later => exact more part next code last later
      · infer_instance
  case case2 => infer_instance

instance : Quiet scriptBlock := by
  refine .andThen fun _ => .andThen fun start => .andThen fun _ => .andThen fun close =>
    .andThen fun first => ?_
  infer_instance

instance : Quiet constraintTarget := by
  refine .andThen fun token => .andThen fun kind => .andThen fun next => ?_
  split
  · refine .andThen fun _ => ?_
    split <;> infer_instance
  · split <;> infer_instance

instance : Quiet textBlock := by
  refine .andThen fun keyword => .andThen fun start => .andThen fun close =>
    .andThen fun first => ?_
  split <;> infer_instance

instance (definition : Definition) (token : Token) : Quiet (requireCustom definition token) := by
  unfold requireCustom
  infer_instance

instance (draft : ConstraintDraft) : Quiet (constraintStep draft) := by
  unfold constraintStep
  infer_instance

instance (names : List String) : Quiet (moreValueless names) := by
  unfold moreValueless valuelessStep
  infer_instance

instance : Quiet importPath := by
  refine .andThen fun kind => ?_
  split <;> infer_instance

instance : Quiet configEntry := by
  unfold configEntry
  infer_instance

instance (group : String) (config : Config) : Quiet (configGroup group config) := by
  refine .andThen fun _ => .andThen fun _ => .bind (.loop fun config => ?_) fun config => ?_
  · refine .andThen fun _ => .andThen fun _ => ?_
    split
    · infer_instance
    · refine .andThen fun _ => ?_
      split
      · infer_instance
      · exact .andThen fun _ => inferInstance
  · infer_instance

instance (config : Config) : Quiet (configStep config) := by
  refine .andThen fun token => ?_
  split
  iterate 5 infer_instance
  refine .andThen fun entry => ?_
  obtain ⟨key, value⟩ := entry
  dsimp only
  split <;> infer_instance

instance : Quiet configName? := by
  unfold configName?
  infer_instance

instance (name : Option String) : Quiet (originContent? name) := by
  unfold originContent?
  infer_instance

instance : Quiet ignoredBlock := by
  refine .andThen fun token => .andThen fun _ => .andThen fun braced => ?_
  dsimp only
  infer_instance

end Statements

section Tokens

variable {input : ParseInput} {s : ParseState}

/-- The state with one more token taken. -/
def advanced (input : ParseInput) (s : ParseState) : ParseState := stateOf (advance input s)

theorem advance_eq (input : ParseInput) (s : ParseState) :
    advance input s = .ok (input.token s.cursor) (advanced input s) := rfl

theorem advance_bind (f : Token → Parse α) (input : ParseInput) (s : ParseState) :
    (advance >>= f) input s = f (input.token s.cursor) input (advanced input s) := rfl

@[simp] theorem document_advanced : (advanced input s).document = s.document :=
  Quiet.document input s

/-- The last token is not passed, and asking behind it gives it again. -/
theorem token_advanced (ahead : Nat) :
    input.token ((advanced input s).cursor + ahead) = input.token (s.cursor + ahead + 1) := by
  simp only [advanced, advance_apply, stateOf]
  split
  · dsimp only
    rw [Nat.add_right_comm]
  · have last : input.tokens.size ≤ s.cursor + ahead + 1 := by omega
    rw [ParseInput.token_of_size_le last]
    by_cases behind : input.tokens.size ≤ s.cursor + ahead
    · rw [ParseInput.token_of_size_le behind]
    · congr
      omega

theorem withSymbols_apply (f : SymbolTable → α × SymbolTable) :
    withSymbols f input s = .ok (f s.document.symbols).1
      { s with document := { s.document with symbols := (f s.document.symbols).2 } } := rfl

theorem nextIs_apply (kind : TokenKind) :
    nextIs kind input s = .ok ((input.token (s.cursor + 1)).kind == kind) s := rfl

theorem check_apply (kind : TokenKind) :
    check kind input s = .ok ((input.token s.cursor).kind == kind) s := rfl

theorem eat_taken {kind : TokenKind} (here : (input.token s.cursor).kind = kind) :
    eat kind input s = .ok true (advanced input s) := by
  unfold eat
  rw [bind_ok (check_apply ..)]
  rw [if_pos (beq_iff_eq.2 here)]
  rfl

theorem eat_left {kind : TokenKind} (other : (input.token s.cursor).kind ≠ kind) :
    eat kind input s = .ok false s := by
  unfold eat
  rw [bind_ok (check_apply ..)]
  rw [if_neg (by simpa using other)]
  rfl

theorem eat_apply (kind : TokenKind) (input : ParseInput) (s : ParseState) :
    ∃ eaten s', eat kind input s = .ok eaten s' := by
  by_cases here : (input.token s.cursor).kind = kind
  · exact ⟨_, _, eat_taken here⟩
  · exact ⟨_, _, eat_left here⟩

theorem bodyStep_apply (item : Parse Unit) : bodyStep item input s =
    if (input.token s.cursor).kind = .rightBrace ∨ (input.token s.cursor).kind = .eof
    then .ok false s
    else match item input s with
      | .ok _ s' => .ok true s'
      | .error e s' => .error e s' := by
  unfold bodyStep
  rw [bind_ok (check_apply ..)]
  rw [bind_apply, atEnd, check_apply]
  dsimp only
  rw [ite_apply]
  simp only [Bool.or_eq_true, beq_iff_eq]
  split
  · rfl
  · rw [bind_apply]
    cases item input s <;> rfl

theorem repeatStep_eq {step : Parse Bool} : repeatStep step input s =
    match step input s with
    | .error e s' => .error e s'
    | .ok false s' => .ok () s'
    | .ok true s' =>
      if s.cursor < s'.cursor ∧ s.cursor < input.tokens.size then repeatStep step input s'
      else .ok () (stall s') := by
  unfold repeatStep
  rw [loop, repeated, bind_apply]
  rcases step input s with ⟨_ | _, s'⟩ | ⟨e, s'⟩ <;> rfl

theorem expectName_apply (what : String) (name : (input.token s.cursor).isName) :
    expectName what input s = .ok (input.token s.cursor) (advanced input s) := by
  unfold expectName
  rw [peek_bind]
  rw [if_pos name, advance_eq]

end Tokens

/-- What each item keeps of the document, all items together keep. -/
theorem items_keep {Q : Document → Prop} {input : ParseInput}
    (each : ∀ s, Q s.document →
      Q (stateOf (item input.maxDepth Forest.root input s)).document)
    {errors : List ParseError} {s : ParseState} (start : Q s.document) :
    Q (items errors input s).2.document := by
  fun_induction items errors input s with
  | case1 => exact start
  | case2 errors s _ errors' s' next _ ih =>
    have after := each s start
    cases run : item input.maxDepth Forest.root input s <;> rw [run] at after next <;>
      cases next <;> exact ih after
  | case3 errors s _ errors' s' next _ =>
    have after := each s start
    cases run : item input.maxDepth Forest.root input s <;> rw [run] at after next <;>
      cases next <;> exact after

end TemplateMarkup.Parse
