import TemplateMarkup.Proofs.TreeWriting

/-! Usages that have given way before writing begins. Where nothing goes wrong, trees are written as
they are when some usages in them have been replaced by what they receive. -/
namespace TemplateMarkup

theorem Node.isBlock_of_isLoose {node : Node} (loose : node.isLoose) : node.isBlock = false := by
  unfold Node.isLoose at loose
  unfold Node.isBlock Node.styleBlock? Node.scriptBlock?
  cases kind : node.kind <;> simp_all

theorem Node.isLoose_mapNames (names : NameSlot → String → String) (node : Node) :
    (node.mapNames names).isLoose = node.isLoose := by
  unfold mapNames isLoose
  cases kind : node.kind <;> simp [kind]

theorem Node.styleBlock?_of_isLoose {node : Node} (loose : node.isLoose) :
    node.styleBlock? = none := by
  have plain := node.isBlock_of_isLoose loose
  simp_all [Node.isBlock]

theorem Node.scriptBlock?_of_isLoose {node : Node} (loose : node.isLoose) :
    node.scriptBlock? = none := by
  have plain := node.isBlock_of_isLoose loose
  simp_all [Node.isBlock]

/-- The nodes inside an element that tell something about it. -/
def Node.fixtures (nodes : List Node) : List Node := nodes.filter (!·.isLoose)

theorem Node.flatMap_fixtures {α : Type} {f : Node → List α} (nodes : List Node)
    (nothing : ∀ node, node.isLoose → f node = []) :
    (Node.fixtures nodes).flatMap f = nodes.flatMap f := by
  induction nodes with
  | nil => rfl
  | cons node nodes ih =>
    rw [List.flatMap_cons, ← ih, fixtures, List.filter_cons]
    cases loose : node.isLoose with
    | true => rw [nothing node loose]; rfl
    | false => rfl

theorem Node.filterMap_fixtures {α : Type} {f : Node → Option α} (nodes : List Node)
    (nothing : ∀ node, node.isLoose → f node = none) :
    (Node.fixtures nodes).filterMap f = nodes.filterMap f := by
  rw [List.filterMap_eq_flatMap_toList, List.filterMap_eq_flatMap_toList]
  exact flatMap_fixtures nodes fun node loose => by rw [nothing node loose, Option.toList_none]

namespace ElementNames

theorem candidates_fixtures (config : Config) (nodes : List Node) :
    candidates config (Node.fixtures nodes) = candidates config nodes := by
  unfold candidates
  rw [Node.filterMap_fixtures nodes fun _ => Node.styleBlock?_of_isLoose,
    Node.filterMap_fixtures nodes fun _ => Node.scriptBlock?_of_isLoose]

end ElementNames

namespace Write
open Resolve

section Fixtures

variable {original : Document} {node element : Node} {t : Tally}

theorem Preparation.of_fixtures (original : Document) (element : Node) (children : List Node)
    (t : Tally) :
    Preparation.of original element (Node.fixtures children) t =
      Preparation.of original element children t := by
  have assignment : ElementNames.Assignment.of original.symbols.config element
      (Node.fixtures children) t.counts =
        ElementNames.Assignment.of original.symbols.config element children t.counts := by
    rw [ElementNames.Assignment.of, ElementNames.candidates_fixtures, ElementNames.Assignment.of]
  have inside {α : Type} {f : Node → Option α} (none : ∀ node, node.isLoose → f node = none) :
      ((Node.fixtures children).map (ElementNames.Assignment.of original.symbols.config element
        children t.counts).rename).filterMap f =
      (children.map (ElementNames.Assignment.of original.symbols.config element children
        t.counts).rename).filterMap f := by
    rw [List.filterMap_map, List.filterMap_map]
    refine Node.filterMap_fixtures children fun node loose => ?_
    rw [Function.comp_apply, ElementNames.Assignment.rename,
      Node.mapNames_eq_self (Node.isBlock_of_isLoose loose), none node loose]
  unfold Preparation.of
  dsimp only
  rw [assignment, inside fun _ => Node.styleBlock?_of_isLoose,
    inside fun _ => Node.scriptBlock?_of_isLoose]

theorem banOf_fixtures (tag : String) (children : List Node) :
    banOf tag (Node.fixtures children) = banOf tag children := by
  unfold banOf
  rw [Node.flatMap_fixtures children fun node loose => ?_]
  cases kind : node.kind <;> simp_all [Node.isLoose]

end Fixtures

/-- Usages in the first trees have given way to what they receive in the second. -/
inductive Unfolds (original : Document) : List NodeTree → List NodeTree → Prop
  | nil : Unfolds original [] []
  | keep {node : Node} {branches branches' trees trees' : List NodeTree}
      (inside : Unfolds original branches branches') (rest : Unfolds original trees trees') :
      Unfolds original (.mk node branches :: trees) (.mk node branches' :: trees')
  | expand {node : Node} {usage : Usage} {view : TreeContent}
      {branches trees trees' : List NodeTree} (kind : node.kind = .usage usage)
      (type : usage.type = .element) (brought : usage.Brought original)
      (grants : Grants original usage view) (rest : Unfolds original trees trees') :
      Unfolds original (.mk node branches :: trees) (view.elements ++ trees')

namespace Unfolds

variable {original : Document} {trees trees' more more' : List NodeTree}

theorem refl : ∀ trees, Unfolds original trees trees
  | [] => .nil
  | .mk _ branches :: trees => .keep (refl branches) (refl trees)

theorem append (first : Unfolds original trees trees') (second : Unfolds original more more') :
    Unfolds original (trees ++ more) (trees' ++ more') := by
  induction first with
  | nil => exact second
  | keep inside _ _ ih => exact .keep inside ih
  | expand kind type brought grants _ ih =>
    rw [List.append_assoc]
    exact .expand kind type brought grants ih

section Loose

variable (loose : original.AllDefined (·.node.isLoose))

include loose

/-- What tells something about the element around stays. -/
theorem fixtures_eq (unfolds : Unfolds original trees trees') :
    Node.fixtures (trees.map NodeTree.node) = Node.fixtures (trees'.map NodeTree.node) := by
  unfold Node.fixtures
  induction unfolds with
  | nil => rfl
  | keep _ _ _ ih =>
    rw [List.map_cons, List.filter_cons, ih, List.map_cons, List.filter_cons]
    rfl
  | @expand node usage view _ trees trees' kind _ brought grants _ ih =>
    have all := grants.all brought loose
    have none : (view.elements.map NodeTree.node).filter (!·.isLoose) = [] := by
      refine List.filter_eq_nil_iff.2 fun node member => ?_
      obtain ⟨tree, there, rfl⟩ := List.mem_map.1 member
      simpa using all tree there
    have used : node.isLoose := by simp [Node.isLoose, kind]
    rw [List.map_append, List.filter_append, none, List.nil_append, ← ih, List.map_cons,
      List.filter_cons_of_neg (by simpa [NodeTree.node] using used)]

theorem mapTop {rename : Node → Node} (plain : ∀ node, node.isLoose → rename node = node)
    (unfolds : Unfolds original trees trees') :
    Unfolds original (trees.map (.mapTop rename)) (trees'.map (.mapTop rename)) := by
  induction unfolds with
  | nil => exact .nil
  | keep inside _ _ ih => exact .keep inside ih
  | @expand node usage view branches trees trees' kind type brought grants _ ih =>
    have all := grants.all brought loose
    have same : view.elements.map (.mapTop rename) = view.elements := by
      refine (List.map_congr_left fun tree member => ?_).trans (List.map_id _)
      obtain ⟨top, below⟩ := tree
      exact congrArg (NodeTree.mk · below) (plain top (all _ member))
    have used : rename node = node := plain node (by simp [Node.isLoose, kind])
    rw [List.map_append, same, List.map_cons, NodeTree.mapTop, used]
    exact .expand kind type brought grants ih

end Loose

theorem any_isContent (unfolds : Unfolds original trees trees')
    (empty : (trees.map NodeTree.node).any Node.isContent = false) :
    (trees'.map NodeTree.node).any Node.isContent = false := by
  induction unfolds with
  | nil => exact empty
  | keep _ _ _ ih =>
    rw [List.map_cons, List.any_cons, Bool.or_eq_false_iff] at empty ⊢
    exact ⟨empty.1, ih empty.2⟩
  | expand kind type _ _ _ _ =>
    rw [List.map_cons, List.any_cons, Bool.or_eq_false_iff] at empty
    simp [NodeTree.node, Node.isContent, kind, type] at empty

end Unfolds

/-- A step ends with an error that is told of. -/
def TreeStep.Fails (step : TreeStep) : Prop :=
  ∃ text after, step = .done text after ∧ after.errors ≠ []

/-- The second step comes to what the first does, with usages that have given way and with fewer
definitions being expanded around it. -/
inductive TreeStep.Matches (original : Document) : TreeStep → TreeStep → Prop
  | done (text : String) (after : Tally) : Matches original (.done text after) (.done text after)
  | within {inside : Surroundings} {fewer : List String} {trees trees' : List NodeTree}
      (role : Role) (before : Tally) (less : fewer ⊆ inside.expanding)
      (unfolds : Unfolds original trees trees') :
      Matches original (.within role inside trees before)
        (.within role { inside with expanding := fewer } trees' before)

section Steps

variable {original : Document} {around : Surroundings} {fewer : List String} {node : Node}
  {usage : Usage} {branches branches' : List NodeTree} {t : Tally}

theorem fails_run_fail (e : WriteError) (t : Tally) :
    (TreeStep.done "" (t.run original (fail e)).2).Fails := ⟨_, _, rfl, errors_fail e _⟩

theorem treeStep_mk (original : Document) (around : Surroundings) (node : Node)
    (branches : List NodeTree) (t : Tally) :
    treeStep original around (.mk node branches) t =
      match violation? original.symbols around.ban node with
      | some (ban, target) =>
        .done "" (t.run original (fail (.constraintViolation ban.tag target node.span))).2
      | none =>
        if goesOn around node then
          match node.kind with
          | .element => elementTreeStep original around node branches t
          | .usage usage => usageTreeStep original around node.span usage t
          | _ => .within .scope { around with scope := .wholeDocument, ban := none } branches t
        else
          .done (t.run original (allowedNode (fun _ _ => pure "") around Forest.root node)).1
            (t.run original (allowedNode (fun _ _ => pure "") around Forest.root node)).2 := rfl

theorem usageTreeStep_cyclic (span : Span)
    (member : labelOf original.symbols usage ∈ around.expanding) :
    (usageTreeStep original around span usage t).Fails := by
  unfold usageTreeStep
  dsimp only
  cases position : around.expanding.findIdx? (· = labelOf original.symbols usage) with
  | none => exact absurd member (findIdx?_label.1 position)
  | some first => exact fails_run_fail _ t

theorem usageTreeStep_matches (span : Span) (less : fewer ⊆ around.expanding) :
    (usageTreeStep original around span usage t).Fails ∨
      TreeStep.Matches original (usageTreeStep original around span usage t)
        (usageTreeStep original { around with expanding := fewer } span usage t) := by
  by_cases member : labelOf original.symbols usage ∈ around.expanding
  · exact .inl (usageTreeStep_cyclic span member)
  · right
    unfold usageTreeStep
    dsimp only
    rw [findIdx?_label.2 member, findIdx?_label.2 fun inside => member (less inside)]
    dsimp only
    cases instantiate span usage (t.state original) with
    | mk content s =>
      cases content with
      | none => exact .done _ _
      | some content =>
        refine .within _ _ (fun label inside => ?_) (.refl _)
        exact List.mem_append.2 ((List.mem_append.1 inside).imp_left (less ·))

theorem elementTreeStep_matches (loose : original.AllDefined (·.node.isLoose))
    (less : fewer ⊆ around.expanding) (unfolds : Unfolds original branches branches') :
    (elementTreeStep original around node branches t).Fails ∨
      TreeStep.Matches original (elementTreeStep original around node branches t)
        (elementTreeStep original { around with expanding := fewer } node branches' t) := by
  have preparation : Preparation.of original node (branches'.map NodeTree.node) t =
      Preparation.of original node (branches.map NodeTree.node) t := by
    rw [← Preparation.of_fixtures, ← unfolds.fixtures_eq loose, Preparation.of_fixtures]
  have ban : banOf node.name (branches'.map NodeTree.node) =
      banOf node.name (branches.map NodeTree.node) := by
    rw [← banOf_fixtures, ← unfolds.fixtures_eq loose, banOf_fixtures]
  unfold elementTreeStep
  dsimp only
  cases void : node.isVoid with
  | true =>
    cases content : (branches.map NodeTree.node).any Node.isContent with
    | true => exact .inl (fails_run_fail _ t)
    | false =>
      rw [unfolds.any_isContent content, preparation]
      exact .inr (.done _ _)
  | false =>
    rw [preparation, insideElement, insideElement, ban]
    exact .inr (.within _ _ less (unfolds.mapTop loose fun node free =>
      Node.mapNames_eq_self (Node.isBlock_of_isLoose free) _))

/-- A tree and the one with usages that have given way inside it. -/
theorem treeStep_matches (loose : original.AllDefined (·.node.isLoose))
    (less : fewer ⊆ around.expanding) (unfolds : Unfolds original branches branches')
    (node : Node) (t : Tally) :
    (treeStep original around (.mk node branches) t).Fails ∨
      TreeStep.Matches original (treeStep original around (.mk node branches) t)
        (treeStep original { around with expanding := fewer } (.mk node branches') t) := by
  rw [treeStep_mk, treeStep_mk]
  dsimp only
  cases violation? original.symbols around.ban node with
  | some found => exact .inl (fails_run_fail _ t)
  | none =>
    dsimp only
    by_cases goes : goesOn around node = true
    · have goes' : goesOn { around with expanding := fewer } node = true := goes
      rw [if_pos goes, if_pos goes']
      cases kind : node.kind with
      | element => exact elementTreeStep_matches loose less unfolds
      | usage usage => exact usageTreeStep_matches node.span less
      | _ => exact .inr (.within _ _ less unfolds)
    · have goes' : ¬goesOn { around with expanding := fewer } node = true := goes
      rw [if_neg goes, if_neg goes',
        allowedNode_alone (by simpa using goes) _ _ Forest.root Forest.root fewer]
      exact .inr (.done _ _)

/-- A usage of an element is expanded, unless it may not stand where it stands. -/
theorem treeStep_usage (kind : node.kind = .usage usage) (type : usage.type = .element)
    (around : Surroundings) (branches : List NodeTree) (t : Tally) :
    (treeStep original around (.mk node branches) t).Fails ∨
      treeStep original around (.mk node branches) t =
        usageTreeStep original around node.span usage t := by
  rw [treeStep_mk]
  cases violation? original.symbols around.ban node with
  | some found => exact .inl (fails_run_fail _ t)
  | none =>
    right
    dsimp only
    rw [if_pos (by simp [goesOn, kind, type]), kind]

/-- A usage that receives something gives way to it, unless an error is told of. -/
theorem treeStep_granted (keyed : original.symbols.Keyed) (start : Ready original original)
    {view : TreeContent} (kind : node.kind = .usage usage) (type : usage.type = .element)
    (brought : usage.Brought original) (grants : Grants original usage view)
    (around : Surroundings) (branches : List NodeTree) (t : Tally) :
    (treeStep original around (.mk node branches) t).Fails ∨
      treeStep original around (.mk node branches) t =
        .within (.expansion (labelOf original.symbols usage))
          { around with expanding := around.expanding ++ [labelOf original.symbols usage] }
          view.elements t := by
  rcases treeStep_usage kind type around branches t with fails | same
  · exact .inl fails
  · rw [same]
    by_cases member : labelOf original.symbols usage ∈ around.expanding
    · exact .inl (usageTreeStep_cyclic node.span member)
    · exact .inr (usageTreeStep_granted keyed start brought grants member)

/-- Where usages have given way the first tree has been kept, or what it receives stands in its
place. -/
theorem Unfolds.step (keyed : original.symbols.Keyed) (start : Ready original original)
    (loose : original.AllDefined (·.node.isLoose)) {tree : NodeTree} {trees trees' : List NodeTree}
    (unfolds : Unfolds original (tree :: trees) trees') (less : fewer ⊆ around.expanding)
    (t : Tally) :
    (treeStep original around tree t).Fails ∨
      (∃ tree' rest, trees' = tree' :: rest ∧ Unfolds original trees rest ∧
        TreeStep.Matches original (treeStep original around tree t)
          (treeStep original { around with expanding := fewer } tree' t)) ∨
      ∃ label branches rest, trees' = branches ++ rest ∧ Unfolds original trees rest ∧
        treeStep original around tree t = .within (.expansion label)
          { around with expanding := around.expanding ++ [label] } branches t := by
  cases unfolds with
  | @keep node _ branches' _ rest inside more =>
    refine (treeStep_matches loose less inside node t).imp_right fun same => ?_
    exact .inl ⟨.mk node branches', rest, rfl, more, same⟩
  | @expand _ _ view branches _ rest kind type brought grants more =>
    refine (treeStep_granted keyed start kind type brought grants around branches t).imp_right
      fun same => ?_
    exact .inr ⟨_, view.elements, rest, rfl, more, same⟩

end Steps

section Runs

variable {original : Document} {around : Surroundings} {tree : NodeTree}
  {trees trees' : List NodeTree} {t t' : Tally} {text : String}

/-- No step of a run without errors fails. -/
theorem Renders.not_fails (renders : Renders original around (tree :: trees) t text t')
    (clean : t'.errors = []) : ¬(treeStep original around tree t).Fails := by
  rintro ⟨_, after, same, told⟩
  cases renders with
  | done step _ later =>
    cases step.symm.trans same
    exact told (List.prefix_nil.1 (clean ▸ later.errors_prefix))
  | within step _ _ _ => cases step.symm.trans same

variable (keyed : original.symbols.Keyed) (start : Ready original original)

include keyed start

/-- Where nothing goes wrong it makes no difference that usages have given way beforehand. -/
theorem Renders.unfolds (loose : original.AllDefined (·.node.isLoose)) {fewer : List String}
    (renders : Renders original around trees t text t') (clean : t'.errors = [])
    (unfolds : Unfolds original trees trees') (less : fewer ⊆ around.expanding) :
    Renders original { around with expanding := fewer } trees' t text t' := by
  induction renders generalizing trees' fewer with
  | nil =>
    cases unfolds
    exact .nil
  | @done around _ _ t _ _ _ _ step kept later ih =>
    have clear := (Renders.done step kept later).not_fails clean
    rcases (unfolds.step keyed start loose less t).resolve_left clear with
      ⟨tree', _, rfl, more, same⟩ | ⟨_, _, _, rfl, _, same⟩
    · rw [step] at same
      generalize turned : treeStep original { around with expanding := fewer } tree' t = other
        at same
      cases same
      exact .done turned kept (ih clean more less)
    · cases step.symm.trans same
  | @within around _ _ branches _ t _ _ _ _ _ _ step kept below later ihBelow ih =>
    have clear := (Renders.within step kept below later).not_fails clean
    have clean' := List.prefix_nil.1 (clean ▸ later.errors_prefix)
    rcases (unfolds.step keyed start loose less t).resolve_left clear with
      ⟨tree', _, rfl, more, same⟩ | ⟨_, _, _, rfl, more, same⟩
    · rw [step] at same
      generalize turned : treeStep original { around with expanding := fewer } tree' t = other
        at same
      cases same with
      | within _ _ less' unfolds' =>
        exact .within turned kept (ihBelow clean' unfolds' less') (ih clean more less)
    · cases step.symm.trans same
      -- what was written in place of the usage is written where it stands now
      have first := ihBelow clean' (.refl branches)
        (List.Subset.trans less (List.subset_append_left _ _))
      exact first.append (ih clean more less)

/-- A node stands in trees, inside namespaces, and inside elements that have content. -/
inductive Occurs (node : Node) : List NodeTree → Prop
  | here {branches trees : List NodeTree} (member : .mk node branches ∈ trees) : Occurs node trees
  | element {top : Node} {branches trees : List NodeTree} (member : .mk top branches ∈ trees)
      (kind : top.kind = .element) (content : (branches.map NodeTree.node).any Node.isContent)
      (inside : Occurs node branches) : Occurs node trees
  | scope {top : Node} {branches trees : List NodeTree} (member : .mk top branches ∈ trees)
      (kind : top.kind = .scope) (inside : Occurs node branches) : Occurs node trees

section Reaching

variable {node : Node} {usage : Usage} {key : DefinitionKey}

omit keyed start in
theorem Occurs.cons (occurs : Occurs node (tree :: trees)) :
    Occurs node [tree] ∨ Occurs node trees := by
  have either {branch : NodeTree} (member : branch ∈ tree :: trees) :
      branch ∈ [tree] ∨ branch ∈ trees := by simpa using member
  cases occurs with
  | here member => exact (either member).imp .here .here
  | element member kind content inside =>
    exact (either member).imp (.element · kind content inside) (.element · kind content inside)
  | scope member kind inside =>
    exact (either member).imp (.scope · kind inside) (.scope · kind inside)

omit keyed start in
theorem Occurs.mapTop {rename : Node → Node} (occurs : Occurs node trees)
    (alone : node.isBlock = false) (plain : ∀ node, node.isBlock = false → rename node = node) :
    Occurs node (trees.map (.mapTop rename)) := by
  have stays {top : Node} {branches : List NodeTree} (member : NodeTree.mk top branches ∈ trees)
      (other : top.isBlock = false) :
      NodeTree.mk top branches ∈ trees.map (NodeTree.mapTop rename) :=
    List.mem_map.2 ⟨_, member, by rw [NodeTree.mapTop, plain top other]⟩
  cases occurs with
  | here member => exact .here (stays member alone)
  | @element top _ _ member kind content inside =>
    have other : top.isBlock = false := Node.isBlock_of_isLoose (by simp [Node.isLoose, kind])
    exact .element (stays member other) kind content inside
  | @scope top _ _ member kind inside =>
    have other : top.isBlock = false := by
      simp [Node.isBlock, Node.styleBlock?, Node.scriptBlock?, kind]
    exact .scope (stays member other) kind inside

/-- A usage that stands for a definition receives something, unless there is a cycle. -/
theorem grants_or_denied (brought : usage.Brought original)
    (found : original.symbols.usageKey usage = some key) :
    (∃ view, Grants original usage view) ∨
      ∃ names, Denied original usage (.cyclicInheritance names) := by
  have supplied : Supplied original {} usage { document := original }
      (instantiate {} usage { document := original }) := instantiate_supplied keyed brought start
  cases run : instantiate {} usage { document := original } with
  | mk content s =>
    rw [run] at supplied
    cases content with
    | some content =>
      obtain ⟨view, grants, -⟩ := Supplies.granted supplied
      exact .inl ⟨view, grants⟩
    | none =>
      obtain ⟨-, e, denied, -⟩ := supplied
      rcases denied with ⟨absent, -⟩ | ⟨key', found', fails⟩
      · rw [absent] at found
        cases found
      · cases fails with
        | missing absent =>
          have known := SymbolTable.contains_of_usageKey found'
          rw [OrderedMap.contains] at known
          rw [SymbolTable.definition?] at absent
          simp [absent] at known
        | @cyclic names first => exact .inr ⟨names, .inr ⟨key', found', .cyclic first⟩⟩

/-- Writing comes one step nearer to a usage, unless it receives something or an error is told
of. -/
theorem Occurs.step (kind : node.kind = .usage usage) (type : usage.type = .element)
    (brought : usage.Brought original) (found : original.symbols.usageKey usage = some key)
    (occurs : Occurs node [tree]) (around : Surroundings) (t : Tally) :
    (∃ view, Grants original usage view) ∨ (treeStep original around tree t).Fails ∨
      ∃ role inside branches before,
        treeStep original around tree t = .within role inside branches before ∧
          Occurs node branches := by
  cases occurs with
  | @here branches _ member =>
    cases List.mem_singleton.1 member
    rcases grants_or_denied keyed start brought found with grants | ⟨names, denied⟩
    · exact .inl grants
    · refine .inr (.inl ?_)
      rcases treeStep_usage kind type around branches t with fails | same
      · exact fails
      · rw [same]
        by_cases label : labelOf original.symbols usage ∈ around.expanding
        · exact usageTreeStep_cyclic node.span label
        · rw [usageTreeStep_denied keyed start brought denied label]
          exact fails_run_fail _ t
  | @element top branches _ member kind' content inside =>
    cases List.mem_singleton.1 member
    right
    rw [treeStep_mk]
    cases violation? original.symbols around.ban top with
    | some found => exact .inl (fails_run_fail _ t)
    | none =>
      dsimp only
      by_cases deep : around.depth ≥ maxElementDepth
      · rw [if_neg (by simpa [goesOn, kind'] using deep), allowedNode, kind']
        dsimp only
        rw [if_pos deep]
        exact .inl ⟨_, _, rfl, errors_fail _ _⟩
      · rw [if_pos (by simpa [goesOn, kind'] using deep), kind']
        dsimp only
        unfold elementTreeStep
        dsimp only
        rw [content, Bool.and_true]
        split
        · exact .inl (fails_run_fail _ t)
        · have alone : node.isBlock = false :=
            Node.isBlock_of_isLoose (by simp [Node.isLoose, kind])
          exact .inr ⟨_, _, _, _, rfl, inside.mapTop alone fun node plain =>
            Node.mapNames_eq_self plain _⟩
  | @scope top branches _ member kind' inside =>
    cases List.mem_singleton.1 member
    right
    rw [treeStep_mk]
    cases violation? original.symbols around.ban top with
    | some found => exact .inl (fails_run_fail _ t)
    | none =>
      dsimp only
      rw [if_pos (by simp [goesOn, kind']), kind']
      exact .inr ⟨_, _, _, _, rfl, inside⟩

/-- A usage that stands for a definition receives something where nothing goes wrong. -/
theorem Renders.grants (kind : node.kind = .usage usage) (type : usage.type = .element)
    (brought : usage.Brought original) (found : original.symbols.usageKey usage = some key)
    (renders : Renders original around trees t text t') (clean : t'.errors = [])
    (occurs : Occurs node trees) : ∃ view, Grants original usage view := by
  induction renders with
  | nil => cases occurs <;> contradiction
  | @done around _ _ t _ _ _ _ step kept later ih =>
    have clear := (Renders.done step kept later).not_fails clean
    rcases occurs.cons with first | rest
    · rcases first.step keyed start kind type brought found around t with
        grants | fails | ⟨_, _, _, _, same, -⟩
      · exact grants
      · exact absurd fails clear
      · cases step.symm.trans same
    · exact ih clean rest
  | @within around _ _ _ _ t _ _ _ _ _ _ step kept below later ihBelow ih =>
    have clear := (Renders.within step kept below later).not_fails clean
    rcases occurs.cons with first | rest
    · rcases first.step keyed start kind type brought found around t with
        grants | fails | ⟨_, _, _, _, same, inside⟩
      · exact grants
      · exact absurd fails clear
      · cases step.symm.trans same
        exact ihBelow (List.prefix_nil.1 (clean ▸ later.errors_prefix)) inside
    · exact ih clean rest

end Reaching

end Runs

end Write

end TemplateMarkup
