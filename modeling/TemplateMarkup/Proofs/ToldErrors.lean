import TemplateMarkup.Proofs.UnfoldedUsages

/-! Errors that are told of while a document is written. They are only ever added, and nothing that
is written later depends on them. -/
namespace TemplateMarkup

/-- Whether an error tells that something could not be worked out. -/
def WriteError.isResolve : WriteError → Bool
  | .resolve _ _ => true
  | _ => false

/-- Whether an error tells that a node is left out: the node may not stand where it stands, or it is
a usage of an element that cannot be expanded because of a cycle. -/
def WriteError.leavesOut (node : Node) : WriteError → Bool
  | .voidElementChildren _ _ => true
  | .constraintViolation _ _ _ => true
  | .nestingTooDeep _ _ _ => true
  | .resolve (.cyclicInheritance _) _ => node.usage?.any (·.type == .element)
  | .resolve (.undefinedReference _ _) _ => false

namespace Write

variable {α β : Type} {original : Document} {R : Usage → Usage → Prop} {s : WriteState}
  {told more : List WriteError}

/-- A part of writing adds these errors, whatever was told of before. -/
def Adds (x : Write α) (s : WriteState) (told : List WriteError) : Prop :=
  ∀ errors, x { s with errors } = ((x s).1, { (x s).2 with errors := errors ++ told })

theorem Adds.errors {x : Write α} (adds : Adds x s told) :
    (x s).2.errors = s.errors ++ told :=
  congrArg (fun run : α × WriteState => run.2.errors) (adds s.errors)

theorem Adds.bind {x : Write α} {f : α → Write β} (first : Adds x s told)
    (second : Adds (f (x s).1) (x s).2 more) : Adds (x >>= f) s (told ++ more) := by
  intro errors
  rw [bind_apply, bind_apply, first, second, List.append_assoc]

theorem adds_nothing {x : Write α} (even : ∀ errors, x { s with errors } =
    ((x s).1, { (x s).2 with errors })) : Adds x s [] := by
  intro errors
  rw [even, List.append_nil]

theorem adds_fail (error : WriteError) (s : WriteState) : Adds (fail error) s [error] :=
  fun _ => rfl

/-- All errors that are told of are of things that could not be worked out. -/
def Logs (x : Write α) : Prop := ∀ s, ∃ told, Adds x s told ∧ ∀ e ∈ told, e.isResolve

theorem logs_nothing {x : Write α} (even : ∀ s errors, x { s with errors } =
    ((x s).1, { (x s).2 with errors })) : Logs x :=
  fun s => ⟨[], adds_nothing (even s), by simp⟩

theorem Logs.bind {x : Write α} {f : α → Write β} (first : Logs x) (rest : ∀ a, Logs (f a)) :
    Logs (x >>= f) := by
  intro s
  obtain ⟨told, adds, resolve⟩ := first s
  obtain ⟨more, adds', resolve'⟩ := rest (x s).1 (x s).2
  exact ⟨told ++ more, adds.bind adds', List.forall_mem_append.2 ⟨resolve, resolve'⟩⟩

theorem logs_pure (a : α) : Logs (pure a) := logs_nothing fun _ _ => rfl

theorem logs_report (span : Span) (error : ResolveError) : Logs (report span error) := by
  intro s
  cases error with
  | undefinedReference type name => exact ⟨[], adds_nothing fun _ => rfl, by simp⟩
  | cyclicInheritance names =>
    exact ⟨_, adds_fail (.resolve (.cyclicInheritance names) span) s, by simp [WriteError.isResolve]⟩

theorem logs_resolving (span : Span) (action : Resolve α) : Logs (resolving span action) := by
  refine logs_nothing fun s errors => ?_
  simp only [resolving, modifyGet, MonadStateOf.modifyGet, StateT.modifyGet]
  cases action { document := s.document } <;> rfl

theorem logs_instantiate (span : Span) (usage : Usage) : Logs (instantiate span usage) := by
  refine (logs_resolving span _).bind fun result => ?_
  cases result with
  | ok content => exact logs_pure _
  | error e => exact (logs_report span e).bind fun _ => logs_pure none

theorem Gathers.logs {x x' : Write α} (gathers : Gathers R x x') : Logs x := by
  induction gathers with
  | pure a => exact logs_pure a
  | bind _ _ first rest => exact first.bind rest
  | warn _ _ _ _ | addRule | addScript | addFragment | origin? => exact logs_nothing fun _ _ => rfl
  | renderValue span _ value =>
    unfold Write.renderValue
    split
    · refine (logs_resolving span _).bind fun result => ?_
      cases result with
      | ok text => exact logs_pure text
      | error e => exact (logs_report span e).bind fun _ => logs_pure _
    · exact logs_pure _
  | renderVar span _ ref =>
    refine (logs_resolving span _).bind fun result => ?_
    cases result with
    | ok text => exact logs_pure _
    | error e => exact (logs_report span e).bind fun _ => logs_pure _
  | @propertiesFor span _ usage _ _ =>
    exact (logs_instantiate span usage).bind fun content => logs_pure (content.map Content.properties)

theorem Collects.logs {x : Write α} (collects : Collects original x) : Logs x := by
  obtain ⟨x', gathers⟩ := collects
  exact gathers.logs

/-- Work with a tally adds errors to it. -/
theorem Adds.run {x : Write α} {t : Tally} (adds : Adds x (t.state original) told)
    (errors : List WriteError) :
    Tally.run original x { t with errors } =
      ((Tally.run original x t).1, { (Tally.run original x t).2 with errors := errors ++ told }) := by
  have run := adds errors
  have state : ({ t with errors } : Tally).state original = { t.state original with errors } := rfl
  unfold Tally.run
  rw [state, run]
  rfl

section Trees

variable {around : Surroundings} {node : Node} {tree : NodeTree} {t t' : Tally} {text : String}

theorem logs_localStyles (span : Span) (context : Option String) (blocks : List StyleBlock) :
    Logs (localStyles span context blocks) := by
  have gathers : Gathers (fun _ _ => True) (localStyles span context blocks)
      (localStyles span context (blocks.map (.mapUsages id))) :=
    gathers_localStyles (fun _ => rfl) (fun _ _ _ _ => trivial) context
  exact gathers.logs

theorem logs_scripts (span : Span) (owner : Option String) (scope : String)
    (blocks : List ScriptBlock) : Logs (blocks.forM (script span owner scope)) := by
  have collects : Collects {} (blocks.forM (script span owner scope)) :=
    collects_scripts span owner scope blocks
  exact collects.logs

/-- Preparing an element tells of errors in its blocks. -/
theorem Preparation.adds (original : Document) (node : Node) (children : List Node) (t : Tally) :
    ∃ told, (∀ e ∈ told, e.isResolve) ∧ ∀ errors,
      Preparation.of original node children { t with errors } =
        { Preparation.of original node children t with
          after := { (Preparation.of original node children t).after with
            errors := errors ++ told } } := by
  unfold Preparation.of
  split
  · dsimp only
    generalize ElementNames.Assignment.of original.symbols.config node children t.counts =
      assignment
    obtain ⟨told, adds, resolve⟩ := logs_localStyles node.span
      (ElementNames.contextSelector assignment.node .style)
      ((children.map assignment.rename).filterMap Node.styleBlock?)
      (Tally.state original { t with counts := assignment.counts })
    have styled := adds.run
    generalize Tally.run original _ { t with counts := assignment.counts } = run at styled ⊢
    obtain ⟨more, adds', resolve'⟩ := logs_scripts node.span
      (ElementNames.contextSelector assignment.node .script) node.scope
      ((children.map assignment.rename).filterMap Node.scriptBlock?) (run.2.state original)
    refine ⟨told ++ more, List.forall_mem_append.2 ⟨resolve, resolve'⟩, fun errors => ?_⟩
    rw [styled, adds'.run, List.append_assoc]
  · exact ⟨[], by simp, fun errors => by rw [List.append_nil]⟩

/-- The tally with which a step ends, or goes on inside. -/
def TreeStep.tally : TreeStep → Tally
  | .done _ after => after
  | .within _ _ _ before => before

def TreeStep.withErrors (errors : List WriteError) : TreeStep → TreeStep
  | .done text after => .done text { after with errors }
  | .within role inside trees before => .within role inside trees { before with errors }

/-- A step adds these errors, whatever was told of before. -/
def TreeStep.Adds (step : Tally → TreeStep) (t : Tally) (told : List WriteError) : Prop :=
  ∀ errors, step { t with errors } = (step t).withErrors (errors ++ told)

theorem TreeStep.Adds.errors {step : Tally → TreeStep} (adds : TreeStep.Adds step t told) :
    (step t).tally.errors = t.errors ++ told := by
  have same := congrArg (fun step => step.tally.errors) (adds t.errors)
  cases result : step t <;> simp_all [tally, withErrors]

theorem Adds.step {x : Write String} (adds : Adds x (t.state original) told) :
    TreeStep.Adds (fun t => .done (t.run original x).1 (t.run original x).2) t told := by
  intro errors
  dsimp only
  rw [adds.run]
  rfl

theorem adds_failing (error : WriteError) :
    TreeStep.Adds (fun t => .done "" (t.run original (fail error)).2) t [error] := fun _ => rfl

theorem elementTreeStep_adds (original : Document) (around : Surroundings) (node : Node)
    (branches : List NodeTree) (t : Tally) :
    ∃ told, TreeStep.Adds (elementTreeStep original around node branches) t told := by
  obtain ⟨told, -, preparation⟩ := Preparation.adds original node (branches.map NodeTree.node) t
  unfold elementTreeStep
  dsimp only
  split
  · exact ⟨_, adds_failing _⟩
  · refine ⟨told, fun errors => ?_⟩
    dsimp only
    rw [preparation]
    split <;> rfl

theorem usageTreeStep_adds (original : Document) (around : Surroundings) (span : Span)
    (usage : Usage) (t : Tally) :
    ∃ told, TreeStep.Adds (usageTreeStep original around span usage) t told := by
  unfold usageTreeStep
  dsimp only
  split
  · exact ⟨_, adds_failing _⟩
  · obtain ⟨told, adds, -⟩ := logs_instantiate span usage (t.state original)
    refine ⟨told, fun errors => ?_⟩
    have run := adds errors
    have state : ({ t with errors } : Tally).state original = { t.state original with errors } := rfl
    dsimp only
    rw [state, run]
    rcases instantiate span usage (t.state original) with ⟨_ | content, s⟩ <;> rfl

theorem logs_allowedNode (alone : goesOn around node = false) (other : node.isElement = false) :
    Logs (allowedNode (fun _ _ => pure "") around Forest.root node) := by
  have gathers : Gathers (fun _ _ => True)
      (allowedNode (fun _ _ => pure "") around Forest.root node)
      (allowedNode (fun _ _ => pure "") around Forest.root
        { node.mapUsages (fun usage => usage) with span := {} }) :=
    gathers_allowedNode (fun _ => rfl) (fun _ _ => trivial) alone other {} Forest.root
  exact gathers.logs

theorem allowedNode_deep (kind : node.kind = .element) (alone : goesOn around node = false)
    (child : Surroundings → NodeId → Write String) (id : NodeId) :
    allowedNode child around id node =
      (fail (.nestingTooDeep node.name maxElementDepth node.span) >>= fun _ => pure "") := by
  have deep : around.depth ≥ maxElementDepth := by simpa [goesOn, kind] using alone
  unfold allowedNode
  rw [kind]
  dsimp only
  rw [if_pos deep]

/-- A step adds errors, and what it comes to does not depend on those that there were. -/
theorem treeStep_adds (original : Document) (around : Surroundings) (tree : NodeTree) (t : Tally) :
    ∃ told, TreeStep.Adds (treeStep original around tree) t told := by
  unfold treeStep
  cases violation? original.symbols around.ban tree.node with
  | some found => exact ⟨_, adds_failing _⟩
  | none =>
    dsimp only
    cases alone : goesOn around tree.node with
    | true =>
      simp only [if_true]
      cases tree.node.kind with
      | element => exact elementTreeStep_adds original around tree.node tree.branches t
      | usage usage => exact usageTreeStep_adds original around tree.node.span usage t
      | _ => exact ⟨[], fun errors => by rw [List.append_nil]; rfl⟩
    | false =>
      simp only [Bool.false_eq_true, if_false]
      cases element : tree.node.isElement with
      | true =>
        rw [allowedNode_deep (kind_of_isElement element) alone]
        exact ⟨_, adds_failing _⟩
      | false =>
        obtain ⟨told, adds, -⟩ := logs_allowedNode alone element (t.state original)
        exact ⟨told, adds.step⟩

/-- Writing trees adds errors, and what it comes to does not depend on those that there were. -/
theorem Renders.adds {trees : List NodeTree} (renders : Renders original around trees t text t') :
    ∃ told, t'.errors = t.errors ++ told ∧ ∀ errors,
      Renders original around trees { t with errors } text
        { t' with errors := errors ++ told } := by
  induction renders with
  | nil => exact ⟨[], by simp, fun errors => by rw [List.append_nil]; exact .nil⟩
  | @done around tree trees t t' t'' text rest step kept later ih =>
    obtain ⟨told, adds⟩ := treeStep_adds original around tree t
    obtain ⟨more, errors', again⟩ := ih
    have first := adds.errors
    rw [step, TreeStep.tally] at first
    refine ⟨told ++ more, by rw [errors', first, List.append_assoc], fun errors => ?_⟩
    have turned := adds errors
    rw [step] at turned
    rw [← List.append_assoc]
    exact .done turned (List.prefix_append _ _) (again _)
  | @within around inside tree branches trees t before t' t'' role inner rest step kept below later
      ihBelow ih =>
    obtain ⟨told, adds⟩ := treeStep_adds original around tree t
    obtain ⟨within, errors', againBelow⟩ := ihBelow
    obtain ⟨more, errors'', again⟩ := ih
    have first := adds.errors
    rw [step, TreeStep.tally] at first
    refine ⟨told ++ within ++ more, ?_, fun errors => ?_⟩
    · rw [errors'', errors', first, List.append_assoc, List.append_assoc, List.append_assoc]
    · have turned := adds errors
      rw [step] at turned
      rw [← List.append_assoc, ← List.append_assoc]
      exact .within turned (List.prefix_append _ _) (againBelow _) (again _)

section Refusals

variable {branches : List NodeTree} {span : Span} {usage : Usage} {e : WriteError}

/-- Elements, usages and foreign text are all that can be forbidden. -/
theorem isLoose_of_violation? {symbols : SymbolTable} {ban : Option Ban}
    {found : Ban × ConstraintTarget} (forbidden : violation? symbols ban node = some found) :
    node.isLoose := by
  obtain ⟨ban, -, inside⟩ := Option.bind_eq_some_iff.1 forbidden
  obtain ⟨target, here, -⟩ := Option.bind_eq_some_iff.1 inside
  have forbids := List.find?_some here
  unfold Write.forbids at forbids
  unfold Node.isLoose
  split at forbids <;> simp_all

/-- What could not be worked out leaves a node out if that is a usage of an element. -/
theorem usage_of_leavesOut (resolve : e.isResolve) (leaves : e.leavesOut node) :
    ∃ usage, node.kind = .usage usage ∧ usage.type = .element := by
  cases e with
  | resolve error span =>
    cases error with
    | undefinedReference type name => cases leaves
    | cyclicInheritance names =>
      unfold WriteError.leavesOut at leaves
      cases found : node.usage? with
      | none => simp [found] at leaves
      | some usage =>
        rw [found] at leaves
        exact ⟨usage, Node.kind_of_usage? found, by simpa using leaves⟩
  | _ => cases resolve

theorem told_eq {more : List WriteError} (adds : t'.errors = t.errors ++ told)
    (same : t'.errors = t.errors ++ more) : told = more :=
  List.append_cancel_left (adds.symm.trans same)

/-- One error is told of, and it is the one that was failed with. -/
theorem eq_of_mem_told {e' : WriteError} (adds : t'.errors = t.errors ++ told)
    (same : t'.errors = t.errors ++ [e']) (member : e ∈ told) : e = e' := by
  rw [told_eq adds same] at member
  exact List.mem_singleton.1 member

theorem elementTreeStep_refuses (kind : node.kind = .element)
    (adds : (elementTreeStep original around node branches t).tally.errors = t.errors ++ told)
    (member : e ∈ told) (leaves : e.leavesOut node) :
    elementTreeStep original around node branches t =
      .done "" { t with errors := t.errors ++ [e] } := by
  obtain ⟨more, resolve, prepared⟩ := Preparation.adds original node (branches.map NodeTree.node) t
  have after := congrArg (fun preparation => preparation.after.errors) (prepared t.errors)
  -- preparing the element tells of nothing that leaves it out
  have absurd : (Preparation.of original node (branches.map NodeTree.node) t).after.errors ≠
      t.errors ++ told := by
    intro same
    cases told_eq same after
    obtain ⟨usage, isUsage, -⟩ := usage_of_leavesOut (resolve e member) leaves
    rw [kind] at isUsage
    cases isUsage
  unfold elementTreeStep at adds ⊢
  dsimp only at adds ⊢
  split at adds
  · next void =>
    rw [if_pos void]
    rw [eq_of_mem_told adds rfl member]
    rfl
  · split at adds
    · exact (absurd adds).elim
    · exact (absurd adds).elim

variable (keyed : original.symbols.Keyed) (start : Ready original original)

include keyed start

/-- A usage that leaves nothing but an error is refused. -/
theorem usageTreeStep_refuses (brought : usage.Brought original)
    (adds : (usageTreeStep original around span usage t).tally.errors = t.errors ++ told)
    (member : e ∈ told) :
    usageTreeStep original around span usage t =
      .done "" { t with errors := t.errors ++ [e] } := by
  by_cases apart : labelOf original.symbols usage ∈ around.expanding
  · unfold usageTreeStep at adds ⊢
    dsimp only at adds ⊢
    cases position : around.expanding.findIdx? (· = labelOf original.symbols usage) with
    | none => exact absurd apart (findIdx?_label.1 position)
    | some first =>
      rw [position] at adds
      rw [eq_of_mem_told adds rfl member]
      rfl
  · have supplied : Supplied original span usage (t.state original)
        (instantiate span usage (t.state original)) :=
      instantiate_supplied keyed brought (start.counted t.counts)
    cases run : instantiate span usage (t.state original) with
    | mk content s =>
      rw [run] at supplied
      cases content with
      | some content =>
        obtain ⟨view, grants, -⟩ := Supplies.granted supplied
        rw [usageTreeStep_granted keyed start brought grants apart] at adds
        cases told_eq adds (List.append_nil _).symm
        cases member
      | none =>
        obtain ⟨-, error, denied, -⟩ := supplied
        rw [usageTreeStep_denied keyed start brought denied apart] at adds ⊢
        cases error with
        | undefinedReference type name =>
          cases told_eq adds (List.append_nil _).symm
          cases member
        | cyclicInheritance names =>
          rw [eq_of_mem_told adds rfl member]
          rfl

/-- A step that tells of an error which leaves a node out does nothing else. -/
theorem treeStep_refuses (brought : tree.node.Brought original)
    (adds : (treeStep original around tree t).tally.errors = t.errors ++ told)
    (member : e ∈ told) (leaves : e.leavesOut tree.node) :
    tree.node.isLoose ∧
      treeStep original around tree t = .done "" { t with errors := t.errors ++ [e] } := by
  unfold treeStep at adds ⊢
  cases forbidden : violation? original.symbols around.ban tree.node with
  | some found =>
    rw [forbidden] at adds
    rw [eq_of_mem_told adds rfl member]
    exact ⟨isLoose_of_violation? forbidden, rfl⟩
  | none =>
    rw [forbidden] at adds
    dsimp only at adds ⊢
    cases alone : goesOn around tree.node with
    | true =>
      rw [alone, if_pos rfl] at adds
      rw [if_pos rfl]
      cases kind : tree.node.kind with
      | element =>
        rw [kind] at adds
        exact ⟨by simp [Node.isLoose, kind], elementTreeStep_refuses kind adds member leaves⟩
      | usage usage =>
        rw [kind] at adds
        have used : usage.Brought original := brought.usages usage (by simp [Node.usages, kind])
        exact ⟨by simp [Node.isLoose, kind], usageTreeStep_refuses keyed start used adds member⟩
      | _ =>
        rw [kind] at adds
        cases told_eq adds (List.append_nil _).symm
        cases member
    | false =>
      rw [alone, if_neg Bool.false_ne_true] at adds
      rw [if_neg Bool.false_ne_true]
      cases element : tree.node.isElement with
      | true =>
        have kind := kind_of_isElement element
        rw [allowedNode_deep kind alone] at adds ⊢
        rw [eq_of_mem_told adds rfl member]
        exact ⟨by simp [Node.isLoose, kind], rfl⟩
      | false =>
        obtain ⟨more, adds', resolve⟩ := logs_allowedNode alone element (t.state original)
        cases told_eq adds adds'.errors
        obtain ⟨usage, kind, type⟩ := usage_of_leavesOut (resolve e member) leaves
        simp [goesOn, kind, type] at alone

end Refusals

end Trees

end Write

end TemplateMarkup
