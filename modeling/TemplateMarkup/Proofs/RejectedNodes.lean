import TemplateMarkup.Proofs.ExpansionCycles
import TemplateMarkup.Proofs.InPlaceExpansion
import TemplateMarkup.Proofs.RemovedTrees
import TemplateMarkup.Proofs.ToldErrors

/-! Nodes that are left out. A node that is rejected with an error leaves no other trace: the
document without the node is written in the same way, and without that error. -/
namespace TemplateMarkup

namespace Write
open Resolve

/-- The state with which a step ends, or goes on inside. -/
def Step.state : Step → WriteState
  | .done _ after => after
  | .single _ after => after
  | .within _ _ _ before => before

section Trees

variable {original : Document} {e : WriteError} {refused : Tally} {i : Nat} {path : List Nat}
  {around inside : Surroundings} {role : Role} {tree : NodeTree} {trees branches : List NodeTree}
  {t t' before : Tally} {text : String}

/-- Writing trees comes to a tree at a place, where so much has been gathered, and leaves it out
with an error. -/
inductive Refuses (original : Document) (e : WriteError) (refused : Tally) :
    Nat → List Nat → Surroundings → List NodeTree → Tally → Prop
  | here {around : Surroundings} {tree : NodeTree} (trees : List NodeTree)
      (loose : tree.node.isLoose) (step : treeStep original around tree refused =
        .done "" { refused with errors := refused.errors ++ [e] }) :
      Refuses original e refused 0 [] around (tree :: trees) refused
  | later {i : Nat} {path : List Nat} {around : Surroundings} {tree : NodeTree}
      {trees : List NodeTree} {t t' : Tally} {text : String}
      (first : Renders original around [tree] t text t')
      (rest : Refuses original e refused i path around trees t') :
      Refuses original e refused (i + 1) path around (tree :: trees) t
  | inside {j : Nat} {path : List Nat} {around inside : Surroundings} {role : Role}
      {tree : NodeTree} {branches : List NodeTree} {t before : Tally} (trees : List NodeTree)
      (isHost : tree.node.isHost)
      (step : treeStep original around tree t = .within role inside branches before)
      (below : Refuses original e refused j path inside branches before) :
      Refuses original e refused 0 (j :: path) around (tree :: trees) t

theorem Refuses.loose (refuses : Refuses original e refused i path around trees t)
    (last : path = []) : ∀ tree, trees[i]? = some tree → tree.node.isLoose := by
  induction refuses with
  | here trees loose step =>
    intro tree found
    cases found
    exact loose
  | later first rest ih => exact fun tree found => ih last tree found
  | inside trees isHost step below ih => cases last

theorem Refuses.elementTreeStep_dropAt {node : Node} {below : List NodeTree}
    (step : elementTreeStep original around node below t = .within role inside branches before)
    (refuses : Refuses original e refused i path inside branches before) :
    elementTreeStep original around node (NodeTree.dropAt i path below) t =
      .within role inside (NodeTree.dropAt i path branches) before := by
  unfold elementTreeStep at step ⊢
  dsimp only at step ⊢
  split at step
  · cases step
  · split at step
    · cases step
    · next open_ =>
      cases step
      have loose (last : path = []) (tree : NodeTree) (found : below[i]? = some tree) :
          tree.node.isLoose := by
        have renamed := refuses.loose last (tree.mapTop _) (by rw [List.getElem?_map, found]; rfl)
        obtain ⟨top, branches⟩ := tree
        rwa [NodeTree.mapTop, NodeTree.node, Preparation.rename, Node.isLoose_mapNames] at renamed
      have fixtures := NodeTree.fixtures_dropAt loose
      have preparation :
          Preparation.of original node ((NodeTree.dropAt i path below).map NodeTree.node) t =
          Preparation.of original node (below.map NodeTree.node) t := by
        rw [← Preparation.of_fixtures, fixtures, Preparation.of_fixtures]
      have ban : banOf node.name ((NodeTree.dropAt i path below).map NodeTree.node) =
          banOf node.name (below.map NodeTree.node) := by
        rw [← banOf_fixtures, fixtures, banOf_fixtures]
      have closed : ¬(node.isVoid &&
          ((NodeTree.dropAt i path below).map NodeTree.node).any Node.isContent) = true := by
        simp [open_]
      rw [if_neg closed, if_neg open_, preparation, insideElement, ban, NodeTree.dropAt_map]
      rfl

/-- The step for an element or a namespace is the same without the tree that is left out. -/
theorem Refuses.treeStep_dropAt {node : Node} {below : List NodeTree} (isHost : node.isHost)
    (step : treeStep original around (.mk node below) t = .within role inside branches before)
    (refuses : Refuses original e refused i path inside branches before) :
    treeStep original around (.mk node (NodeTree.dropAt i path below)) t =
      .within role inside (NodeTree.dropAt i path branches) before := by
  rw [treeStep_mk] at step ⊢
  revert step
  cases violation? original.symbols around.ban node with
  | some found =>
    intro step
    cases step
  | none =>
    intro step
    dsimp only at step ⊢
    by_cases goes : goesOn around node = true
    · rw [if_pos goes] at step ⊢
      cases kind : node.kind with
      | scope =>
        rw [kind] at step
        cases step
        rfl
      | element =>
        rw [kind] at step
        exact refuses.elementTreeStep_dropAt step
      | _ => simp [Node.isHost, kind] at isHost
    · rw [if_neg goes] at step
      cases step

theorem Renders.head (renders : Renders original around (tree :: trees) t text t') :
    ∃ first rest between, text = first ++ rest ∧ Renders original around [tree] t first between ∧
      Renders original around trees between rest t' := by
  cases renders with
  | done step kept later =>
    exact ⟨_, _, _, rfl, by simpa using Renders.done step kept .nil, later⟩
  | within step kept below later =>
    exact ⟨_, _, _, rfl, by simpa using Renders.within step kept below .nil, later⟩

/-- What is left out may be taken away beforehand. Nothing changes but for the one error. -/
theorem Refuses.renders (refuses : Refuses original e refused i path around trees t)
    (renders : Renders original around trees t text t') :
    ∃ later, t'.errors = refused.errors ++ e :: later ∧
      Renders original around (NodeTree.dropAt i path trees) t text
        { t' with errors := refused.errors ++ later } := by
  induction refuses generalizing text t' with
  | @here around tree trees loose step =>
    cases renders with
    | done step' _ rest =>
      cases step.symm.trans step'
      obtain ⟨later, errors, again⟩ := rest.adds
      rw [String.empty_append]
      exact ⟨later, by simpa using errors, again refused.errors⟩
    | within step' _ _ _ => cases step.symm.trans step'
  | @later i path around tree trees t between _ first rest ih =>
    obtain ⟨text, text', between', rfl, first', rest'⟩ := renders.head
    obtain ⟨-, rfl⟩ := first.unique first'
    obtain ⟨later, errors, again⟩ := ih rest'
    refine ⟨later, errors, ?_⟩
    rw [NodeTree.dropAt_succ]
    exact first'.append again
  | @inside j path around inside role tree branches t before trees isHost step below ih =>
    cases renders with
    | done step' _ _ => cases step.symm.trans step'
    | within step' kept below' rest =>
      cases step.symm.trans step'
      obtain ⟨later, errors, again⟩ := ih below'
      obtain ⟨more, errors', again'⟩ := rest.adds
      refine ⟨later ++ more, by simp [errors', errors], ?_⟩
      rw [← List.append_assoc]
      obtain ⟨node, inner⟩ := tree
      exact .within (below.treeStep_dropAt isHost step) kept again (again' _)

end Trees

/-- The errors that a visit tells of itself, before the nodes inside it are visited. -/
def Visit.told (v : Visit) : List WriteError := v.step.state.errors.drop v.state.errors.length

/-- A visit leaves its node out, with an error. -/
def Visit.Rejects (v : Visit) (e : WriteError) : Prop :=
  e ∈ v.told ∧ ∃ node, v.state.document.forest.get? v.id = some node ∧ e.leavesOut node

section Visits

variable {original : Document} {v w : Visit} {e : WriteError} {around inside : Surroundings}
  {ids below earlier : List NodeId} {s s' before : WriteState} {texts : List String} {role : Role}

/-- Writing nodes comes to a visit. -/
inductive Reaches (v : Visit) : Surroundings → List NodeId → WriteState → Prop
  | here (ids : List NodeId) : Reaches v v.around (v.id :: ids) v.state
  | later {around : Surroundings} {id : NodeId} {ids : List NodeId} {s s' : WriteState}
      {texts : List String} (first : Ends around [id] s texts s') (rest : Reaches v around ids s') :
      Reaches v around (id :: ids) s
  | inside {around inside : Surroundings} {id : NodeId} {below : List NodeId}
      {s before : WriteState} {role : Role} (ids : List NodeId)
      (step : Visit.step ⟨around, id, s⟩ = .within role inside below before)
      (deeper : Reaches v inside below before) : Reaches v around (id :: ids) s

theorem Reaches.after (reaches : Reaches v around ids s') (ends : Ends around earlier s texts s') :
    Reaches v around (earlier ++ ids) s := by
  induction ends with
  | nil => exact reaches
  | done step _ ih => exact .later (.done step .nil) (ih reaches)
  | single step _ ih => exact .later (.single step .nil) (ih reaches)
  | within step below _ _ ih => exact .later (.within step below .nil) (ih reaches)

theorem Reaches.trans (reaches : Reaches w around ids s)
    (step : w.step = .within role inside below before) (deeper : Reaches v inside below before) :
    Reaches v around ids s := by
  induction reaches with
  | here ids => exact .inside ids step deeper
  | later first _ ih => exact .later first ih
  | inside ids step' _ ih => exact .inside ids step' ih

theorem Moment.reaches {document : Document} {visits : List Visit}
    (moment : Moment document visits) :
    ∀ v ∈ visits.head?, Reaches v {} (document.forest.children Forest.root) { document } := by
  induction moment with
  | top split before =>
    intro v first
    cases first
    rw [split]
    exact (Reaches.here (v := ⟨_, _, _⟩) _).after before
  | inside _ step ends ih =>
    intro v first
    cases first
    exact (ih _ rfl).trans step ((Reaches.here (v := ⟨_, _, _⟩) _).after ends)

theorem Step.Tells.tally {step : Step} {treeStep : TreeStep} (tells : Step.Tells step treeStep) :
    step.state.tally = treeStep.tally := by
  cases tells <;> rfl

variable {fuel levels : Nat} {p : NodeId} {slot : Slot} {pre post : List NodeId} {id : NodeId}
  {tree : NodeTree} {trees : List NodeTree} (keyed : original.symbols.Keyed)
  (grown : original.forest.Grown) (start : Ready original original)

include keyed grown start

/-- A visit that leaves its node out does nothing else. -/
theorem Queued.treeStep_of_rejects
    (queued : Queued original fuel levels v.around.expanding v.state p slot pre (v.id :: ids) post)
    (there : v.state.document.forest.tree? v.id = some tree) (rejects : v.Rejects e) :
    tree.node.isLoose ∧ treeStep original v.around tree v.state.tally =
      .done "" { v.state.tally with errors := v.state.tally.errors ++ [e] } := by
  obtain ⟨member, node, found, leaves⟩ := rejects
  obtain ⟨told, adds⟩ := treeStep_adds original v.around tree v.state.tally
  have tells := (queued.tells keyed grown start there).tally
  have errors : v.step.state.errors = v.state.errors ++ told := by
    have same := adds.errors
    rw [← tells] at same
    exact same
  rw [Visit.told, errors, List.drop_left] at member
  rw [queued.ready.grown.get?_eq, there] at found
  cases found
  have brought : tree.node.Brought original := by
    obtain ⟨_, there', fits⟩ := queued.fits v.id (.head _)
    cases there.symm.trans there'
    cases fits with
    | mk here _ => exact here
  exact treeStep_refuses keyed start brought adds.errors member leaves

omit start in
/-- A place among the nodes that wait does not change while the first of them is written. -/
theorem Queued.foundAt {i : Nat} {path : List Nat} {k : NodeId}
    (queued : Queued original fuel levels around.expanding s p slot pre (id :: ids) post)
    (ends : Ends around [id] s texts s')
    (place : s'.document.forest.FoundAt k i path ids) :
    s.document.forest.FoundAt k i path ids := by
  obtain ⟨new, -, spares, -⟩ := queued.advance keyed grown ends
  exact place.congr fun c member k under => Forest.children_congr (spares c member k under)

omit start in
/-- Inside a node that gives way to others all nodes are new, and inside any other node they are
where they were. -/
theorem Queued.foundAt_inside {i : Nat} {path : List Nat} {k : NodeId}
    (queued : Queued original fuel levels around.expanding s p slot pre (id :: ids) post)
    (found : s.document.forest.get? id = some tree.node)
    (step : Visit.step ⟨around, id, s⟩ = .within role inside below before)
    (place : before.document.forest.FoundAt k i path below) :
    s.document.forest.slots.size ≤ k.index ∨
      tree.node.isHost ∧ s.document.forest.FoundAt k i path (s.document.forest.children id) := by
  have stands : s.document.forest.Stands id :=
    queued.stands.tail (Forest.mem_children_of_slot? queued.before)
  obtain ⟨_, _, _, _, _, _, waiting⟩ := queued.enter keyed grown step
  cases Visit.descends step with
  | element found' kind shallow =>
    cases found.symm.trans found'
    have prepares := prepareElement_prepares keyed queued.ready stands
      (queued.fits id (.head _)) tree.node
    refine .inr ⟨by simp [Node.isHost, kind], place.congr fun c link k under => ?_⟩
    exact prepares.adjusted.adjusts.children
      (Relation.ReflTransGen.trans (stands.tail link) under)
  | scope found' kind =>
    cases found.symm.trans found'
    exact .inr ⟨by simp [Node.isHost, kind], place⟩
  | expansion found' kind type apart received =>
    obtain ⟨c, member, under⟩ := place.exists_below
    have fresh := (queued.supplies keyed found' kind received).fresh c member
    have := waiting.ready.grown.index_le under
    exact .inl (Nat.le_trans fresh this)

/-- A visit that leaves its node out is of a node with a new name, or of one at some place in the
trees, and the tree at that place is left out. -/
theorem Reaches.refuses (rejects : v.Rejects e) (reaches : Reaches v around ids s)
    (queued : Queued original fuel levels around.expanding s p slot pre ids post)
    (shown : s.document.forest.Shows ids trees) :
    s.document.forest.slots.size ≤ v.id.index ∨ ∃ i path,
      s.document.forest.FoundAt v.id i path ids ∧
        Refuses original e v.state.tally i path around trees s.tally := by
  induction reaches generalizing fuel levels p slot pre post trees with
  | here ids =>
    obtain ⟨tree, trees, rfl, there, -⟩ := shown.cons_inv
    obtain ⟨loose, step⟩ := queued.treeStep_of_rejects keyed grown start there rejects
    exact .inr ⟨0, [], .here [] ids, .here trees loose step⟩
  | @later around id ids s s' texts first rest ih =>
    obtain ⟨tree, trees, rfl, there, -⟩ := shown.cons_inv
    obtain ⟨-, -, shown', _, queued'⟩ := queued.next keyed grown start first shown
    rcases ih queued' shown' with fresh | ⟨i, path, place, refuses⟩
    · obtain ⟨_, grows, -⟩ := queued.advance keyed grown first
      exact .inl (Nat.le_trans grows.size_le fresh)
    · have renders := first.renders keyed grown start queued.single
        (Forest.shows_singleton.2 there)
      exact .inr ⟨i + 1, path, (queued.foundAt keyed grown first place).later id,
        .later renders refuses⟩
  | @inside around inside id below s before role ids step deeper ih =>
    obtain ⟨tree, trees, rfl, there, -⟩ := shown.cons_inv
    have found : s.document.forest.get? id = some tree.node := by
      rw [queued.ready.grown.get?_eq, there, Option.map_some]
    have tells := queued.tells keyed grown start there
    have larger := (queued.grows keyed (Visit.descends step)).size_le
    obtain ⟨_, _, _, _, _, _, waiting⟩ := queued.enter keyed grown step
    rw [step] at tells
    generalize told : treeStep original around tree s.tally = result at tells
    cases tells with
    | within _ _ shownBelow =>
      rcases ih waiting shownBelow with fresh | ⟨j, path, place, refuses⟩
      · exact .inl (Nat.le_trans larger fresh)
      · refine (queued.foundAt_inside keyed grown found step place).imp_right ?_
        rintro ⟨isHost, place'⟩
        exact ⟨0, j :: path, .deeper [] ids place', .inside trees isHost told refuses⟩

end Visits

theorem StandsIn.remove {document : Document} {hosts : List Host} {id : NodeId} {i : Nat}
    {path : List Nat} {tree : NodeTree} (sound : document.Sound hosts [])
    (there : document.forest.tree? Forest.root = some tree)
    (place : document.forest.FoundAt id i path (document.forest.children Forest.root)) :
    let forest := (document.forest.remove id).2
    StandsIn document { document with forest } ∧
      forest.tree? Forest.root = some (.mk tree.node (NodeTree.dropAt i path tree.branches)) := by
  obtain ⟨_, _, _, _, -, -, plants, tree'⟩ :=
    place.tree?_remove sound.grown sound.ready.top _ tree rfl .refl there
  refine ⟨⟨?_, Nat.le_of_eq Forest.size_remove.symm, rfl, fun c link => ?_⟩, tree'⟩
  · exact sound.ready.sparing plants.grown plants.top fun r isRoot ne _ =>
      plants.spares r isRoot ne List.not_mem_nil
  · obtain ⟨branch, member, below⟩ := (plants.grown.shows_children tree').exists_tree link
    exact ⟨_, branch, below,
      NodeTree.fits_dropAt (fits_branches sound.grown there) branch member⟩

end Write

/-- A node that stood in the document when writing began and is left out with an error leaves no
other trace: without it and all that is below it the document is written as the same texts and
fragments, and the list of errors lacks that one error. -/
theorem WriteResult.ofDocument_remove_rejected (source : String) (tokens : List Token)
    (config : Config) (options : ParseOptions) :
    let document := (ParseResult.ofTokens source tokens { config } options).document
    let result := WriteResult.ofDocument document
    ∀ v outer e, Write.Moment document (v :: outer) → document.forest.Stands v.id →
      v.Rejects e →
      let result' := WriteResult.ofDocument
        { document with forest := (document.forest.remove v.id).2 }
      result'.html = result.html ∧ result'.css = result.css ∧ result'.js = result.js ∧
        result'.fragments = result.fragments ∧
        ∃ later, result.errors = v.state.errors ++ e :: later ∧
          result'.errors = v.state.errors ++ later := by
  intro document result v outer e moment stands rejects
  have sound : document.Sound [Forest.root] [] :=
    ParseResult.sound_ofTokens source tokens config options
  have keyed := sound.unresolved.keyed
  obtain ⟨top, found, -⟩ := sound.top
  have tree := sound.grown.tree?_of_slot? found
  have shown := sound.grown.shows_children tree
  have reaches := moment.reaches v rfl
  have queued := (Write.StandsIn.refl sound).queued found
  rw [Forest.children_eq found] at shown reaches
  rcases reaches.refuses keyed sound.grown sound.ready rejects queued shown with
    fresh | ⟨i, path, place, refuses⟩
  · obtain ⟨slot, there⟩ := sound.grown.ordered.exists_slot_of_below found stands
    exact absurd fresh (Nat.not_le.2 (Forest.lt_size_of_slot? there))
  · rw [← Forest.children_eq found] at place
    obtain ⟨standsIn, tree'⟩ := Write.StandsIn.remove sound tree place
    obtain ⟨text, t, renders, comes⟩ := (Write.StandsIn.refl sound).renders sound tree
    obtain ⟨text', t', renders', comes'⟩ := standsIn.renders sound tree'
    obtain ⟨later, errors, again⟩ := refuses.renders renders
    obtain ⟨rfl, rfl⟩ := again.unique renders'
    exact ⟨comes'.html.trans comes.html.symm, comes'.css.trans comes.css.symm,
      comes'.js.trans comes.js.symm, comes'.fragments.trans comes.fragments.symm, later,
      comes.errors.trans errors, comes'.errors⟩

/-- A line break with content is left out of an element that is named after it, and so is an image
later on. -/
theorem WriteResult.ofDocument_remove_rejected_break :
    let source := "div \x7b br \x7b p \x7b \x7d \x7d b \x7b style \x7b .a \x7b color: red; " ++
      "\x7d \x7d \x7d \x7d img \x7b text \x7b \"x\" \x7d \x7d"
    let told := "line 1, column 7: <br> is a void element and cannot have children"
    let other := "line 1, column 57: <img> is a void element and cannot have children"
    ∃ stream, TokenStream.ofSource source = .ok stream ∧
      let document := (ParseResult.ofTokens source stream.tokens {} {}).document
      ∃ v outer e, Write.Moment document (v :: outer) ∧ document.forest.Stands v.id ∧
        v.Rejects e ∧ e.message = told ∧
        let result' := WriteResult.ofDocument
          { document with forest := (document.forest.remove v.id).2 }
        result'.html = "<div><b class=\"a\"></b></div>" ∧ result'.css = ".a\x7bcolor:red;\x7d" ∧
          result'.errors.map WriteError.message = [other] := by
  intro source told other
  have run : (TokenStream.ofSource source).toOption.bind (fun stream =>
        let document := (ParseResult.ofTokens source stream.tokens {} {}).document
        let result := WriteResult.ofDocument document
        let u : Write.Visit := ⟨{}, ⟨1⟩, { document }⟩
        u.first?.bind fun v => (v.state.document.forest.get? v.id).bind fun node =>
          v.told.head?.map fun e => (document.forest.children Forest.root,
            decide (v.id ∈ document.forest.children ⟨1⟩) && e.leavesOut node &&
              v.state.errors.isEmpty,
            result.html, result.css, result.errors.map WriteError.message)) =
      some ([⟨1⟩, ⟨6⟩], true, "<div><b class=\"a\"></b></div>", ".a\x7bcolor:red;\x7d",
        [told, other]) := by decide +kernel
  obtain ⟨stream, tokens, run⟩ := Option.bind_eq_some_iff.1 run
  obtain ⟨v, first, run⟩ := Option.bind_eq_some_iff.1 run
  obtain ⟨node, found, run⟩ := Option.bind_eq_some_iff.1 run
  obtain ⟨e, head, run⟩ := Option.map_eq_some_iff.1 run
  have tokenizes := TokenStream.ofSource_of_toOption tokens
  simp only [Prod.mk.injEq, Bool.and_eq_true, decide_eq_true_eq, List.isEmpty_iff] at run
  obtain ⟨outer, ⟨⟨inner, leaves⟩, early⟩, html, css, errors⟩ := run
  have stands : (ParseResult.ofTokens source stream.tokens {} {}).document.forest.Stands v.id :=
    .tail (.single (b := ⟨1⟩) (by rw [outer]; simp)) inner
  have split : _ = [] ++ (⟨1⟩ : NodeId) :: [⟨6⟩] := outer
  have moment := (Write.Moment.top split .nil).first first
  have rejects : v.Rejects e := ⟨List.mem_of_head? head, node, found, leaves⟩
  obtain ⟨html', css', -, -, later, all, rest⟩ :=
    WriteResult.ofDocument_remove_rejected source stream.tokens {} {} v _ e moment stands rejects
  rw [all, early] at errors
  obtain ⟨message, errors⟩ := List.cons.inj errors
  refine ⟨stream, tokenizes, v, _, e, moment, stands, rejects, message, html'.trans html,
    css'.trans css, ?_⟩
  rw [rest, early]
  exact errors

end TemplateMarkup
