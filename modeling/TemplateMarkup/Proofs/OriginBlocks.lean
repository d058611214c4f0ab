import TemplateMarkup.Proofs.QuietParses

/-! What an origin block leaves in the document. -/
namespace TemplateMarkup.Parse

variable {input : ParseInput} {s s' : ParseState} {id : NodeId} {e : ParseError}

/-- The state behind the word, the type and the name of an origin block. -/
def headEnd (input : ParseInput) (s : ParseState) : ParseState :=
  let t := advanced input (advanced input s)
  if (input.token t.cursor).isName then advanced input t else t

/-- The name of an origin block. -/
def headName (input : ParseInput) (s : ParseState) : Option String :=
  if (input.token (s.cursor + 2)).isName then some (input.token (s.cursor + 2)).text else none

@[simp] theorem document_headEnd : (headEnd input s).document = s.document := by
  unfold headEnd
  dsimp only
  split <;> simp

/-- What follows the head of an origin block: its body, and its record. -/
def originRest (type : OriginType) (name : Option String) (span : Span) : Parse NodeId := do
  let content ← originContent? name
  let _ ← eat .semicolon
  let scope ← currentScope
  match name, content with
  | some name, some content =>
    if !(← withSymbols (·.registerOrigin type ⟨scope, name⟩ content)) then
      warn (.duplicateOrigin type name) span
  | _, _ => pure ()
  addNode none { kind := .origin { type, name, content }, scope, span }

theorem originBlock_eq {word : AtWord} (type : (input.token (s.cursor + 1)).kind = .atWord word) :
    originBlock input s = originRest (.ofAtWord word) (headName input s)
      (input.token s.cursor).span input (headEnd input s) := by
  have first : input.token (advanced input s).cursor = input.token (s.cursor + 1) :=
    token_advanced 0
  have second : input.token (advanced input (advanced input s)).cursor =
      input.token (s.cursor + 2) := (token_advanced 0).trans (token_advanced 1)
  unfold originBlock headEnd headName
  rw [advance_bind]
  rw [peek_bind]
  rw [first, type]
  dsimp only
  rw [advance_bind]
  rw [peek_bind]
  rw [second]
  split
  · rw [advance_bind]
    rw [bind_apply, pure_apply, second]
    rfl
  · rw [bind_apply, pure_apply]
    rfl

theorem originBlock_untyped (untyped : ∀ word, (input.token (s.cursor + 1)).kind ≠ .atWord word) :
    ∃ e, originBlock input s = .error e (advanced input s) := by
  have first : input.token (advanced input s).cursor = input.token (s.cursor + 1) :=
    token_advanced 0
  unfold originBlock
  rw [advance_bind]
  rw [peek_bind]
  rw [first]
  generalize (input.token (s.cursor + 1)).kind = kind at untyped
  cases kind with
  | atWord word => exact absurd rfl (untyped word)
  | _ => exact unexpected_apply input (advanced input s) _

/-- An origin block as a node. -/
def originNode (s : ParseState) (block : OriginBlock) (span : Span) : Node :=
  { kind := .origin block, scope := s.document.symbols.currentScope, span }

/-- An origin block has been recorded: as a node outside the tree and, if it has a name and a body,
under its name. -/
structure Records (s : ParseState) (block : OriginBlock) (span : Span) (id : NodeId)
    (s' : ParseState) : Prop where
  id : id = ⟨s.document.forest.slots.size⟩
  forest : s'.document.forest = (s.document.forest.insertDetached (originNode s block span)).2
  symbols : s'.document.symbols = s.document.symbols ∨ ∃ name content,
    block.name = some name ∧ block.content = some content ∧ s'.document.symbols =
      (s.document.symbols.registerOrigin block.type
        ⟨s.document.symbols.currentScope, name⟩ content).2

theorem addNode_none_apply (node : Node) : addNode none node input s =
    .ok ⟨s.document.forest.slots.size⟩ { s with document :=
      { s.document with forest := (s.document.forest.insertDetached node).2 } } := rfl

theorem originRest_cases (type : OriginType) (name : Option String) (span : Span) :
    (∃ e s', originRest type name span input s = .error e s' ∧ s'.document = s.document) ∨
      ∃ content t id s', originContent? name input s = .ok content t ∧
        originRest type name span input s = .ok id s' ∧
        Records s ⟨type, name, content⟩ span id s' := by
  have same := (inferInstance : Quiet (originContent? name)).document input s
  unfold originRest
  rw [bind_apply]
  cases run : originContent? name input s with
  | error e t =>
    rw [run] at same
    exact .inl ⟨e, t, rfl, same⟩
  | ok content t =>
    rw [run] at same
    obtain ⟨eaten, u, ate⟩ := eat_apply .semicolon input t
    have same' := (inferInstance : Quiet (eat .semicolon)).document input t
    rw [ate] at same'
    have here : u.document = s.document := same'.trans same
    have unnamed (block : OriginBlock) :
        ∃ id s', addNode none (originNode u block span) input u = .ok id s' ∧
          Records s block span id s' := by
      refine ⟨_, _, addNode_none_apply _, ?_, ?_, .inl ?_⟩
      · rw [here]
      · simp only [originNode, here]
      · simp only [here]
    dsimp only
    rw [bind_ok ate]
    rw [bind_ok (currentScope_apply ..)]
    refine .inr ⟨content, t, ?_⟩
    cases name with
    | none =>
      obtain ⟨id, s', added, records⟩ := unnamed ⟨type, none, content⟩
      exact ⟨id, s', rfl, added, records⟩
    | some name =>
      cases content with
      | none =>
        obtain ⟨id, s', added, records⟩ := unnamed ⟨type, some name, none⟩
        exact ⟨id, s', rfl, added, records⟩
      | some content =>
        dsimp only
        rw [bind_ok (withSymbols_apply ..)]
        rw [ite_apply]
        split
        all_goals
          refine ⟨_, _, rfl, rfl, ?_, ?_, .inr ⟨name, content, rfl, rfl, ?_⟩⟩
          · simp only [here]
          · simp only [originNode, here]
            rfl
          · simp only [here]

/-- An origin block fails and leaves the document as it is, or it is recorded with its body. -/
theorem originBlock_cases (input : ParseInput) (s : ParseState) :
    (∃ e s', originBlock input s = .error e s' ∧ s'.document = s.document) ∨
      ∃ word content t id s', (input.token (s.cursor + 1)).kind = .atWord word ∧
        originContent? (headName input s) input (headEnd input s) = .ok content t ∧
        originBlock input s = .ok id s' ∧ Records (headEnd input s)
          ⟨.ofAtWord word, headName input s, content⟩ (input.token s.cursor).span id s' := by
  by_cases typed : ∃ word, (input.token (s.cursor + 1)).kind = .atWord word
  · obtain ⟨word, type⟩ := typed
    rw [originBlock_eq type]
    rcases originRest_cases (.ofAtWord word) (headName input s) (input.token s.cursor).span with
      ⟨e, s', failed, same⟩ | ⟨content, t, id, s', body, run, records⟩
    · exact .inl ⟨e, s', failed, same.trans document_headEnd⟩
    · exact .inr ⟨word, content, t, id, s', type, body, run, records⟩
  · obtain ⟨e, failed⟩ := originBlock_untyped fun word type => typed ⟨word, type⟩
    exact .inl ⟨e, _, failed, document_advanced⟩

end TemplateMarkup.Parse
