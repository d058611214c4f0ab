import TemplateMarkup.Proofs.PlainParses
import TemplateMarkup.Proofs.ProductionMoves

/-! Parsing makes progress. What keeps the recursions of the parser finite, that a loop stops
where a step takes no token, is shown never to be what stops them: every loop is left by its own
step, and the items of a document only by the end of the source. -/
namespace TemplateMarkup

namespace ParseInput

/-- The last token is the end of the source, which may be new. -/
theorem exists_closed (length : Nat) (tokens : List Token) : ∃ front last,
    closed length tokens = front ++ [last] ∧ last.kind = .eof ∧ (front ++ [last] = tokens ∨
      front = tokens ∧ last.span.start = length ∧ last.span.stop = length) := by
  rcases List.eq_nil_or_concat' tokens with rfl | ⟨front, last, rfl⟩
  · exact ⟨[], _, rfl, rfl, .inr ⟨rfl, rfl, rfl⟩⟩
  · by_cases eof : last.kind = .eof
    · exact ⟨front, last, closed_append_eof length front eof, eof, .inl rfl⟩
    · exact ⟨front ++ [last], endToken length last.span.line last.span.column,
        by simp [closed, eof], rfl, .inr ⟨rfl, rfl, rfl⟩⟩

theorem ended_ofTokens (source : String) (tokens : List Token) (options : ParseOptions) :
    (ofTokens source tokens options).Ended := by
  obtain ⟨front, last, whole, eof, -⟩ := exists_closed (SourceText.byteLength source.toList)
    (tokens.filter fun token => !token.kind.isPlainComment)
  have size := congrArg List.length whole
  have inside : (ofTokens source tokens options).tokens.size - 1 <
      (ofTokens source tokens options).tokens.size :=
    Nat.sub_lt (ofTokens source tokens options).nonempty Nat.one_pos
  have tokens : (ofTokens source tokens options).tokens.toList = front ++ [last] := whole
  obtain ⟨_, atLast⟩ := token_eq_getElem tokens inside
  rw [Ended, atLast]
  simp only [List.length_append, List.length_singleton] at size
  simpa [ofTokens, size] using eof

end ParseInput

namespace Parse

variable {α : Type} {F : Frame} {input : ParseInput} {s s' : ParseState}

section Loops

/-- A loop that nothing but its step ends: each step before the last takes a token, and none
leaves the tokens. -/
inductive Loops (step : α → Parse (Option α)) (input : ParseInput) :
    α → ParseState → EStateM.Result ParseError ParseState α → Prop
  | ends {a s s'} (run : step a input s = .ok none s') (inside : s'.cursor < input.tokens.size) :
      Loops step input a s (.ok a s')
  | fails {a s e s'} (run : step a input s = .error e s')
      (inside : s'.cursor < input.tokens.size) : Loops step input a s (.error e s')
  | goesOn {a s a' s' result} (run : step a input s = .ok (some a') s')
      (forward : s.cursor < s'.cursor) (inside : s'.cursor < input.tokens.size)
      (rest : Loops step input a' s' result) : Loops step input a s result

/-- A step that takes a token wherever it is to be followed by another, so that a loop of it
needs no bound. -/
structure Progresses (step : α → Parse (Option α)) : Prop where
  forward : ∀ input s a a' s', input.Ended → s.cursor < input.tokens.size →
    step a input s = .ok (some a') s' → s.cursor < s'.cursor ∧ s'.cursor < input.tokens.size
  loops : ∀ input s a, input.Ended → s.cursor < input.tokens.size →
    Loops step input a s (loop step a input s)

theorem progresses_of_forward {step : α → Parse (Option α)}
    (within : ∀ input s a, input.Ended → s.cursor < input.tokens.size →
      (stateOf (step a input s)).cursor < input.tokens.size)
    (forward : ∀ input s a a' s', input.Ended → s.cursor < input.tokens.size →
      step a input s = .ok (some a') s' → s.cursor < s'.cursor) : Progresses step where
  forward input s a a' s' ended inside run := by
    have lt := within input s a ended inside
    rw [run] at lt
    exact ⟨forward input s a a' s' ended inside run, lt⟩
  loops input s a ended inside := by
    have lt {s : ParseState} {a : α} {result : EStateM.Result ParseError ParseState (Option α)}
        (inside : s.cursor < input.tokens.size) (run : step a input s = result) :
        (stateOf result).cursor < input.tokens.size := run ▸ within input s a ended inside
    fun_induction loop step a input s
    case case1 run => exact .fails run (lt inside run)
    case case2 run => exact .ends run (lt inside run)
    case case3 run more ih => exact .goesOn run more.1 (lt inside run) (ih (lt inside run))
    case case4 acc s acc' s' run stuck =>
      exact absurd ⟨forward input s acc acc' s' ended inside run, inside⟩ stuck

theorem progresses_of_steps (F : Frame) {step : α → Parse (Option α)}
    [steps : ∀ a, Steps F (step a)] : Progresses step :=
  progresses_of_forward
    (fun input s a ended inside => ((steps a).moves.reaches input s ended inside).lt)
    fun input s a => (steps a).forward input s

theorem progresses_valueStep : Progresses valueStep := by
  refine progresses_of_forward (fun input s draft ended inside => ?_)
    fun input s draft draft' s' ended inside run => ?_
  · obtain ⟨next, s', run, steps⟩ := valueStep_steps draft ended inside
    rw [run]
    exact steps.lt
  · obtain ⟨next, t, run', steps⟩ := valueStep_steps draft ended inside
    cases run'.symm.trans run
    exact steps.forward rfl

/-- The loops of the parser, each by its step. A script is looked through by the index of a
token. -/
structure LoopsProgress (levels : Nat) : Prop where
  element : ∀ id, Progresses (repeated (bodyStep (elementItem (nested levels) id)))
  scope : ∀ id, Progresses (repeated (bodyStep (item levels id)))
  propertyDefinition : ∀ type, Progresses
    (definitionStep (propertyUsage type) insertedProperties propertyOrComment)
  elementDefinition : Progresses (definitionStep (nested levels).usage
    (insertedElements (nested levels)) (definedElement (nested levels)))
  propertyUsage : Progresses (usageStep insertedProperties filledProperty)
  elementUsage : Progresses
    (usageStep (insertedElements (nested levels)) fun _ => unexpected "'delete' or 'insert'")
  insertedProperties : Progresses insertedPropertyStep
  insertedElements : Progresses (insertedElementStep (nested levels))
  style : Progresses (styleStep (some styleRule))
  rule : Progresses (styleStep none)
  selector : ∀ start, Progresses (selectorStep start)
  configuration : Progresses configStep
  configurationGroup : ∀ group, Progresses (configGroupStep group)
  deletions : Progresses deleteStep
  constraint : Progresses constraintStep
  valueless : Progresses valuelessStep
  namespacePath : Progresses pathStep
  definitionName : Progresses nameStep
  value : Progresses valueStep
  literal : ∀ lineEnds start line,
    Progresses (repeated (skipStep (literalStop lineEnds start line)))
  propertyName : Progresses (repeated (skipStep nameStop))
  atRule : Progresses (repeated (skipStep atRuleStop))
  importing : ∀ word, Progresses (repeated (skipStep (clauseStop word)))
  script : ∀ input s close index part next s', input.Ended → close < input.tokens.size →
    index < close → scriptPartAt index close input s = .ok (some (part, next)) s' → index < next

theorem loopsProgress (levels : Nat) : LoopsProgress levels where
  element id := progresses_of_steps ⟨levels, some id, levels⟩
  scope id := progresses_of_steps ⟨levels, some id, levels⟩
  propertyDefinition _ := progresses_of_steps ⟨levels, none, levels⟩
  elementDefinition := progresses_of_steps ⟨levels, none, levels⟩
  propertyUsage := progresses_of_steps ⟨levels, none, levels⟩
  elementUsage := progresses_of_steps ⟨levels, none, levels⟩
  insertedProperties := progresses_of_steps ⟨levels, none, levels⟩
  insertedElements := progresses_of_steps ⟨levels, none, levels⟩
  style := progresses_of_steps ⟨levels, none, levels⟩
  rule := progresses_of_steps ⟨levels, none, levels⟩
  selector _ := progresses_of_steps ⟨levels, none, levels⟩
  configuration := progresses_of_steps ⟨levels, none, levels⟩
  configurationGroup _ := progresses_of_steps ⟨levels, none, levels⟩
  deletions := progresses_of_steps ⟨levels, none, levels⟩
  constraint := progresses_of_steps ⟨levels, none, levels⟩
  valueless := progresses_of_steps ⟨levels, none, levels⟩
  namespacePath := progresses_of_steps ⟨levels, none, levels⟩
  definitionName := progresses_of_steps ⟨levels, none, levels⟩
  value := progresses_valueStep
  literal _ _ _ := progresses_of_steps ⟨levels, none, levels⟩
  propertyName := progresses_of_steps ⟨levels, none, levels⟩
  atRule := progresses_of_steps ⟨levels, none, levels⟩
  importing _ := progresses_of_steps ⟨levels, none, levels⟩
  script _ _ _ _ _ _ _ ended inside lt run := scriptPartAt_forward ended inside lt run

end Loops

section Recovery

/-- Recovery goes on from where an item failed, and past a token unless it is the last. -/
theorem resume_bounds (input : ParseInput) (depth : Int) (index : Nat)
    (inside : index < input.tokens.size) :
    index ≤ resume input depth index ∧ resume input depth index < input.tokens.size ∧
      (index + 1 < input.tokens.size → (input.token index).kind ≠ .eof →
        index < resume input depth index) := by
  fun_induction resume input depth index <;> grind

theorem recovery_bounds {start stop : Nat} (ended : input.Ended)
    (token : (input.token start).kind ≠ .eof) (le : start ≤ stop)
    (lt : stop < input.tokens.size) :
    start < recovery input start stop ∧ recovery input start stop < input.tokens.size := by
  have bounds := resume_bounds input (braceBalance (input.tokens.toList.extract start stop)) stop lt
  unfold recovery
  dsimp only
  split
  · next done =>
    simp only [Bool.and_eq_true, decide_eq_true_eq] at done
    omega
  · rcases Nat.lt_or_eq_of_le le with before | rfl
    · omega
    · exact ⟨bounds.2.2 (ended.lt token) token, bounds.2.1⟩

end Recovery

/-- Item after item, with the errors of those that fail, up to the end of the source. No block is
open before an item. One that is read has taken a token; behind one that fails, parsing goes on
beyond its first token. -/
inductive Runs (input : ParseInput) : ParseState → List ParseError → ParseState → Prop
  | stop {s : ParseState} (outside : s.depth = 0) (last : (input.token s.cursor).kind = .eof) :
      Runs input s [] s
  | read {s t s' : ParseState} {errors : List ParseError} (outside : s.depth = 0)
      (run : item input.maxDepth Forest.root input s = .ok () t)
      (forward : s.cursor < t.cursor) (inside : t.cursor < input.tokens.size)
      (rest : Runs input t errors s') : Runs input s errors s'
  | skip {s t s' : ParseState} {e : ParseError} {errors : List ParseError} (outside : s.depth = 0)
      (run : item input.maxDepth Forest.root input s = .error e t)
      (le : s.cursor ≤ t.cursor) (inside : t.cursor < input.tokens.size)
      (forward : s.cursor < recovery input s.cursor t.cursor)
      (recovered : recovery input s.cursor t.cursor < input.tokens.size)
      (rest : Runs input { t with cursor := recovery input s.cursor t.cursor } errors s') :
      Runs input s (e :: errors) s'

/-- A whole run keeps to what its items keep to. -/
theorem Runs.reaches {errors : List ParseError} (runs : Runs input s errors s')
    (ended : input.Ended) (inside : s.cursor < input.tokens.size) :
    Reaches ⟨input.maxDepth, some Forest.root, input.maxDepth⟩ input s s' := by
  have moves : Moves ⟨input.maxDepth, some Forest.root, input.maxDepth⟩
      (item input.maxDepth Forest.root) := inferInstance
  induction runs with
  | stop _ last => exact .of_same (Nat.le_refl _) inside (fun _ => rfl) rfl rfl rfl
  | read _ run forward lt rest ih => exact (moves.run ended inside run).trans (ih lt)
  | @skip s t s' e errors _ run le lt forward recovered rest ih =>
    have reaches := moves.reaches input s ended inside
    rw [run] at reaches
    refine Reaches.trans ?_ (ih recovered)
    exact ⟨Nat.le_of_lt forward, recovered, reaches.inRange, reaches.depth, reaches.stalled,
      reaches.sprouts⟩

/-- What one item comes to. -/
theorem item_bounds (ended : input.Ended) (token : (input.token s.cursor).kind ≠ .eof) :
    (∀ t, item input.maxDepth Forest.root input s = .ok () t →
      t.depth = s.depth ∧ s.cursor < t.cursor ∧ t.cursor < input.tokens.size) ∧
    ∀ e t, item input.maxDepth Forest.root input s = .error e t → t.depth = s.depth ∧
      s.cursor ≤ t.cursor ∧ t.cursor < input.tokens.size ∧
      s.cursor < recovery input s.cursor t.cursor ∧
      recovery input s.cursor t.cursor < input.tokens.size := by
  have eats : Eats ⟨input.maxDepth, some Forest.root, input.maxDepth⟩
      (item input.maxDepth Forest.root) := inferInstance
  have reaches := eats.moves.reaches input s ended (Nat.lt_of_succ_lt (ended.lt token))
  refine ⟨fun t run => ?_, fun e t run => ?_⟩ <;> rw [run] at reaches
  · exact ⟨reaches.depth, eats.lt ended token run, reaches.lt⟩
  · exact ⟨reaches.depth, reaches.le, reaches.lt,
      recovery_bounds ended token reaches.le reaches.lt⟩

theorem items_runs (ended : input.Ended) (errors : List ParseError) (outside : s.depth = 0) :
    ∃ told, Runs input s told (items errors input s).2 ∧
      (items errors input s).1.reverse = errors.reverse ++ told := by
  fun_induction items errors input s with
  | case1 errors s last => exact ⟨[], .stop outside (by simpa using last), by simp⟩
  | case2 errors s more errors' s' next going ih =>
    obtain ⟨read, skipped⟩ := item_bounds ended (by simpa using more)
    cases run : item input.maxDepth Forest.root input s with
    | ok done t =>
      rw [run] at next
      cases next
      obtain ⟨depth, forward, inside⟩ := read _ run
      obtain ⟨told, runs, same⟩ := ih (depth.trans outside)
      exact ⟨told, .read outside run forward inside runs, same⟩
    | error e t =>
      rw [run] at next
      cases next
      obtain ⟨depth, le, lt, forward, recovered⟩ := skipped _ _ run
      obtain ⟨told, runs, same⟩ := ih (depth.trans outside)
      exact ⟨_ :: told, .skip outside run le lt forward recovered runs, by simp [same]⟩
  | case3 errors s more errors' s' next stuck =>
    have token : (input.token s.cursor).kind ≠ .eof := by simpa using more
    obtain ⟨read, skipped⟩ := item_bounds ended token
    refine absurd ⟨?_, Nat.lt_of_succ_lt (ended.lt token)⟩ stuck
    cases run : item input.maxDepth Forest.root input s <;> rw [run] at next <;> cases next
    · exact (read _ run).2.1
    · exact (skipped _ _ run).2.2.2.1

end Parse

namespace ParseResult

/-- What a parse leaves is what the last of its items leaves. -/
theorem exists_runs (source : String) (tokens : List Token) (symbols : SymbolTable)
    (options : ParseOptions) :
    let result := ofTokens source tokens symbols options
    ∃ s, Parse.Runs (ParseInput.ofTokens source tokens options) { document := { symbols } }
        result.errors s ∧ result.document.forest = s.document.forest ∧
      result.inRange = s.inRange ∧ result.stalled = s.stalled := by
  obtain ⟨told, runs, same⟩ := Parse.items_runs (s := { document := { symbols } })
    (ParseInput.ended_ofTokens source tokens options) [] rfl
  have errors : (ofTokens source tokens symbols options).errors = told := same
  rw [← errors] at runs
  exact ⟨_, runs, rfl, rfl, rfl⟩

/-- Parsing makes progress and ends, whatever the tokens are, and nothing cuts it short. The items
of a document are read one after the other up to the end of the source, and every step of a loop
that is to be followed by another has taken a token. -/
theorem ofTokens_progresses (source : String) (tokens : List Token) (symbols : SymbolTable)
    (options : ParseOptions) :
    let input := ParseInput.ofTokens source tokens options
    let result := ofTokens source tokens symbols options
    result.stalled = false ∧
    (∃ s, Parse.Runs input { document := { symbols } } result.errors s ∧
      result.document.forest = s.document.forest) ∧
    ∀ levels, Parse.LoopsProgress levels := by
  obtain ⟨s, runs, forest, -, stalled⟩ := exists_runs source tokens symbols options
  have reaches := runs.reaches (ParseInput.ended_ofTokens source tokens options)
    (ParseInput.ofTokens source tokens options).nonempty
  exact ⟨stalled.trans (reaches.stalled (Nat.le_add_left _ _)), ⟨s, runs, forest⟩,
    Parse.loopsProgress⟩

end ParseResult

end TemplateMarkup
