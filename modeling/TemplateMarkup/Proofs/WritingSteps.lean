import TemplateMarkup.Proofs.WrittenTrees

/-! Writing without fuel. What is done for a node before the nodes inside it are written is one
step, and writing ends where these steps can be put together to a whole. -/
namespace TemplateMarkup.Write

/-- A node that is to be written. -/
structure Visit where
  around : Surroundings
  id : NodeId
  state : WriteState

/-- What the nodes inside a node are written for. -/
inductive Role
  | element (final : Node)
  | expansion (label : String)
  | scope

def Role.wrap : Role → String → String
  | .element final, text => Markup.openTag final ++ text ++ Markup.closeTag final
  | .expansion _, text => text
  | .scope, text => text

/-- What writing a node comes to, apart from the nodes inside it. -/
inductive Step
  | done (text : String) (after : WriteState)
  /-- The tag of an element that holds nothing. -/
  | single (final : Node) (after : WriteState)
  | within (role : Role) (inside : Surroundings) (ids : List NodeId) (before : WriteState)

/-- The rest of a step, where `child` writes a node inside. -/
def Step.run (child : Surroundings → NodeId → Write String) : Step → String × WriteState
  | .done text after => (text, after)
  | .single final after => (Markup.openTag final, after)
  | .within role inside ids before =>
    let run := ids.mapM (child inside) before
    (role.wrap (String.join run.1), run.2)

def elementStep (around : Surroundings) (id : NodeId) (node : Node) (s : WriteState) : Step :=
  if node.isVoid && (childNodes id s).1.any Node.isContent then
    .done "" (fail (.voidElementChildren node.name node.span) s).2
  else
    let prepared := (prepareElement id node s).2
    let final := (prepared.document.forest.get? id).getD node
    if node.isVoid then .single final prepared
    else
      .within (.element final) (insideElement around node (childNodes id s).1)
        (s.document.forest.children id) prepared

def usageStep (around : Surroundings) (id : NodeId) (span : Span) (usage : Usage)
    (s : WriteState) : Step :=
  let label := labelOf s.document.symbols usage
  match around.expanding.findIdx? (· = label) with
  | some start =>
    .done "" (report span (.cyclicInheritance (around.expanding.drop start ++ [label])) s).2
  | none =>
    match instantiate span usage s with
    | (none, s') => .done "" s'
    | (some content, s') =>
      .within (.expansion label) { around with expanding := around.expanding ++ [label] }
        content.elements (modifyForest (·.splice id content.elements) s').2

/-- The step for a node that nothing forbids. Where nothing is written inside a node, it does not
matter what writes it. -/
def allowedStep (around : Surroundings) (id : NodeId) (node : Node) (s : WriteState) : Step :=
  let alone := allowedNode (fun _ _ => pure "") around id node s
  match node.kind with
  | .element =>
    if around.depth ≥ maxElementDepth then .done alone.1 alone.2 else elementStep around id node s
  | .usage usage =>
    if usage.type == .element then usageStep around id node.span usage s
    else .done alone.1 alone.2
  | .scope =>
    .within .scope { around with scope := .wholeDocument, ban := none }
      (s.document.forest.children id) s
  | _ => .done alone.1 alone.2

def Visit.step (v : Visit) : Step :=
  match v.state.document.forest.get? v.id with
  | none => .done "" v.state
  | some n =>
    match violation? v.state.document.symbols v.around.ban n with
    | some (ban, target) => .done "" (fail (.constraintViolation ban.tag target n.span) v.state).2
    | none => allowedStep v.around v.id n v.state

section Equations

variable (child : Surroundings → NodeId → Write String) (around : Surroundings) (id : NodeId)
  (s : WriteState)

theorem element_eq_run (node : Node) :
    element child around id node s = (elementStep around id node s).run child := by
  rw [element_apply, elementStep]
  split
  · rfl
  · dsimp only
    split <;> rfl

theorem expandUsage_eq_run (span : Span) (usage : Usage) :
    expandUsage child around id span usage s = (usageStep around id span usage s).run child := by
  rw [expandUsage_apply, usageStep]
  dsimp only
  cases around.expanding.findIdx? (· = labelOf s.document.symbols usage) with
  | some start => rfl
  | none => rcases instantiate span usage s with ⟨_ | content, s'⟩ <;> rfl

theorem allowedNode_eq_run (node : Node) :
    allowedNode child around id node s = (allowedStep around id node s).run child := by
  unfold allowedStep allowedNode
  cases node.kind with
  | element =>
    dsimp only
    split
    · rfl
    · exact element_eq_run child around id s node
  | usage usage =>
    dsimp only
    split
    · exact expandUsage_eq_run child around id s node.span usage
    · rfl
  | scope => rfl
  | style | script => cases around.scope <;> rfl
  | _ => rfl

/-- Writing a node is its step, with one less to go down inside it. -/
theorem node_eq_run (fuel : Nat) :
    node (fuel + 1) around id s = (Visit.step ⟨around, id, s⟩).run (node fuel) := by
  rw [node_apply, Visit.step]
  dsimp only
  cases s.document.forest.get? id with
  | none => rfl
  | some n =>
    dsimp only
    cases violation? s.document.symbols around.ban n with
    | some found => rfl
    | none => exact allowedNode_eq_run _ around id s n

end Equations

/-- Writing nodes one after the other ends, with these texts and this state. -/
inductive Ends : Surroundings → List NodeId → WriteState → List String → WriteState → Prop
  | nil {around : Surroundings} {s : WriteState} : Ends around [] s [] s
  | done {around : Surroundings} {id : NodeId} {ids : List NodeId} {s s' s'' : WriteState}
      {text : String} {texts : List String} (step : Visit.step ⟨around, id, s⟩ = .done text s')
      (rest : Ends around ids s' texts s'') : Ends around (id :: ids) s (text :: texts) s''
  | single {around : Surroundings} {id : NodeId} {ids : List NodeId} {s s' s'' : WriteState}
      {final : Node} {texts : List String}
      (step : Visit.step ⟨around, id, s⟩ = .single final s')
      (rest : Ends around ids s' texts s'') :
      Ends around (id :: ids) s (Markup.openTag final :: texts) s''
  | within {around inside : Surroundings} {id : NodeId} {below ids : List NodeId}
      {s before s' s'' : WriteState} {role : Role} {inner texts : List String}
      (step : Visit.step ⟨around, id, s⟩ = .within role inside below before)
      (below : Ends inside below before inner s') (rest : Ends around ids s' texts s'') :
      Ends around (id :: ids) s (role.wrap (String.join inner) :: texts) s''

variable {around : Surroundings} {ids : List NodeId} {s s' s'' : WriteState}
  {texts texts' : List String}

theorem Ends.unique (ends : Ends around ids s texts s') (ends' : Ends around ids s texts' s'') :
    texts = texts' ∧ s' = s'' := by
  induction ends generalizing texts' s'' with
  | nil =>
    cases ends'
    exact ⟨rfl, rfl⟩
  | done step _ ih =>
    cases ends' with
    | done step' rest =>
      cases step.symm.trans step'
      obtain ⟨rfl, rfl⟩ := ih rest
      exact ⟨rfl, rfl⟩
    | single step' _ => cases step.symm.trans step'
    | within step' _ _ => cases step.symm.trans step'
  | single step _ ih =>
    cases ends' with
    | done step' _ => cases step.symm.trans step'
    | single step' rest =>
      cases step.symm.trans step'
      obtain ⟨rfl, rfl⟩ := ih rest
      exact ⟨rfl, rfl⟩
    | within step' _ _ => cases step.symm.trans step'
  | within step _ _ ihBelow ih =>
    cases ends' with
    | done step' _ => cases step.symm.trans step'
    | single step' _ => cases step.symm.trans step'
    | within step' below rest =>
      cases step.symm.trans step'
      obtain ⟨rfl, rfl⟩ := ihBelow below
      obtain ⟨rfl, rfl⟩ := ih rest
      exact ⟨rfl, rfl⟩

end TemplateMarkup.Write
