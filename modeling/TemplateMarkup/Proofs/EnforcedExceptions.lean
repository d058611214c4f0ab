import TemplateMarkup.Proofs.RejectedNodes

/-! What an element excepts is not written inside it. The exceptions of an element hold for all that
is written between its tags and inside no other element, however many usages give way to it. -/
namespace TemplateMarkup

/-- A tag or a type of foreign text that a constraint names is that of a node. -/
inductive ConstraintTarget.Names : ConstraintTarget → Node → Prop
  | tag {tag : String} {node : Node} (kind : node.kind = .element)
      (same : Text.equalsIgnoringCase node.name tag) : Names (.tag tag) node
  | origin {block : OriginBlock} {node : Node} (kind : node.kind = .origin block) :
      Names (.origin block.type) node

/-- What a constraint excepts. -/
def Node.targets (node : Node) : List ConstraintTarget :=
  match node.kind with
  | .constraint targets => targets
  | _ => []

namespace Write

variable {document : Document} {hosts : List Host} {v u e : Visit} {outer between : List Visit}
  {tree branch : NodeTree} {role : Role} {around inside : Surroundings} {ids : List NodeId}
  {before s s' : WriteState}

/-- A tree of the document as it was read, but for the names in a block at its top. -/
def Native (document : Document) (tree : NodeTree) : Prop :=
  ∃ k names old, k ≠ Forest.root ∧ document.forest.tree? k = some old ∧
    tree = old.mapTop (Node.mapNames names)

theorem native_of_tree? {k : NodeId} (other : k ≠ Forest.root)
    (there : document.forest.tree? k = some tree) : Native document tree :=
  ⟨k, fun _ name => name, tree, other, there, by rw [Node.mapNames_id, NodeTree.mapTop_id]; rfl⟩

theorem Native.rename (native : Native document tree) (names : NameSlot → String → String) :
    Native document (tree.mapTop (Node.mapNames names)) := by
  obtain ⟨k, names', old, other, there, rfl⟩ := native
  refine ⟨k, fun slot name => names slot (names' slot name), old, other, there, ?_⟩
  obtain ⟨node, branches⟩ := old
  rw [NodeTree.mapTop, NodeTree.mapTop, NodeTree.mapTop, Node.mapNames_mapNames]

theorem isSpace_mapNames (names : NameSlot → String → String) (node : Node) :
    (node.mapNames names).isSpace = node.isSpace := by
  unfold Node.mapNames Node.isSpace
  cases kind : node.kind <;> simp [kind]

/-- What stands below a node is as it was read. Only a namespace has namespaces below it. -/
theorem Native.below (native : Native document tree) (sound : document.Sound hosts [])
    (member : branch ∈ tree.branches) :
    Native document branch ∧ (branch.node.isSpace → tree.node.isSpace) := by
  obtain ⟨k, names, ⟨node, branches⟩, other, there, rfl⟩ := native
  have shown := sound.grown.shows_children there
  have found : some branch ∈ (document.forest.children k).map document.forest.tree? := by
    rw [shown]
    exact List.mem_map_of_mem member
  obtain ⟨c, link, below⟩ := List.mem_map.1 found
  refine ⟨native_of_tree? ?_ below, fun space => ?_⟩
  · rintro rfl
    exact Nat.not_lt_zero _ (sound.grown.lt k Forest.root link)
  · have get : document.forest.get? c = some branch.node := by
      rw [sound.grown.get?_eq, below, Option.map_some]
    obtain ⟨node', here, top | ⟨-, isSpace⟩⟩ := sound.hosted.spaces k c branch.node link get space
    · exact absurd top other
    · rw [sound.grown.get?_eq, there] at here
      cases here
      exact (isSpace_mapNames names node).trans (isSpace rfl)

/-- The nodes inside a node are as they were read, and namespaces only if it is one. -/
theorem Tracked.native_inside (sound : document.Sound hosts []) (tracked : Tracked document u outer)
    (there : u.state.document.forest.tree? u.id = some tree) (native : Native document tree)
    (step : u.step = .within role inside ids before) {c : NodeId} (member : c ∈ ids) :
    ∃ branch, before.document.forest.tree? c = some branch ∧ Native document branch ∧
      (branch.node.isSpace → tree.node.isSpace ∧ u.isOpen = false) := by
  obtain ⟨_, _, p, slot, pre, later, post, queued⟩ := tracked.queued
  have grown := queued.ready.grown
  have get : u.state.document.forest.get? u.id = some tree.node := by
    rw [grown.get?_eq, there, Option.map_some]
  have stands := queued.stands.tail (Forest.mem_children_of_slot? queued.before)
  have fits := queued.fits u.id (.head _)
  have keyed := sound.unresolved.keyed
  cases Visit.descends step with
  | @element node final found kind shallow =>
    cases get.symm.trans found
    obtain ⟨-, turned⟩ := prepareElement_tells keyed sound.ready queued.ready stands there
      (by simp [Node.isElement, kind]) fits
    have adjusted := (prepareElement_prepares keyed queued.ready stands fits tree.node).adjusted
    rw [← adjusted.adjusts.children stands] at member
    obtain ⟨branch, inside, below⟩ :=
      (adjusted.ready.grown.shows_children turned).exists_tree member
    obtain ⟨old, there', rfl⟩ := List.mem_map.1 inside
    obtain ⟨native', space⟩ := native.below sound there'
    refine ⟨_, below, native'.rename _, fun isSpace => ?_⟩
    obtain ⟨top, branches⟩ := old
    have outer := space ((isSpace_mapNames _ top).symm.trans isSpace)
    simp [Node.isSpace, kind] at outer
  | @expansion node usage content s found kind type apart received =>
    have supplies := queued.supplies keyed found kind received
    obtain ⟨-, -, ⟨view, grants, shown⟩, -⟩ :=
      supplies.splice sound.grown queued.ready queued.stands queued.before
    obtain ⟨branch, inside, below⟩ := shown.exists_tree member
    have loose := grants.all supplies.brought sound.allDefined_isLoose branch inside
    have native := grants.all supplies.brought (fun id tree used there =>
      native_of_tree? (sound.isRoot_of_used used).2 there) branch inside
    refine ⟨branch, below, native, fun isSpace => ?_⟩
    simp [Node.isLoose, Node.isSpace_iff.1 isSpace] at loose
  | scope found kind =>
    obtain ⟨branch, inside, below⟩ := (grown.shows_children there).exists_tree member
    obtain ⟨native', space⟩ := native.below sound inside
    exact ⟨branch, below, native', fun isSpace => ⟨space isSpace, by simp [Visit.isOpen, step]⟩⟩

theorem Queued.tree?_later {original : Document} {fuel levels : Nat} {p : NodeId} {slot : Slot}
    {pre earlier post : List NodeId} {texts : List String} (keyed : original.symbols.Keyed)
    (grown : original.forest.Grown)
    (queued : Queued original fuel levels around.expanding s p slot pre (earlier ++ ids) post)
    (ends : Ends around earlier s texts s') {c : NodeId} (member : c ∈ ids) :
    s'.document.forest.tree? c = s.document.forest.tree? c := by
  obtain ⟨new, wrote⟩ := queued.wrote keyed grown ends
  exact queued.ready.grown.tree?_of_spares wrote.ready.grown (queued.spares earlier wrote c member)

/-- At every moment the node that is visited is as it was read, and no element is open around a
namespace. -/
theorem Moment.native (sound : document.Sound hosts []) {visits : List Visit}
    (moment : Moment document visits) :
    ∃ v outer tree, visits = v :: outer ∧ v.state.document.forest.tree? v.id = some tree ∧
      Native document tree ∧ (tree.node.isSpace → ∀ u ∈ outer, u.isOpen = false) := by
  have keyed := sound.unresolved.keyed
  induction moment with
  | @top id earlier later texts s split before =>
    obtain ⟨top, found, -⟩ := sound.top
    have queued := sound.queued found
    rw [← Forest.children_eq found, split] at queued
    have link : id ∈ document.forest.children Forest.root := by simp [split]
    obtain ⟨tree, there, -⟩ := queued.fits id (by simp)
    refine ⟨_, _, tree, rfl, ?_, native_of_tree? ?_ there, by simp⟩
    · exact (queued.tree?_later keyed sound.grown before (.head _)).trans there
    · rintro rfl
      exact Nat.not_lt_zero _ (sound.grown.lt _ _ link)
  | @inside u outer role inside id earlier later before s texts moment step ends ih =>
    obtain ⟨_, _, tree, same, there, native, closed⟩ := ih
    cases same
    obtain ⟨_, _, same, tracked⟩ := moment.tracked sound
    cases same
    obtain ⟨branch, below, native', space⟩ :=
      tracked.native_inside sound there native step (List.mem_append_right _ (.head _))
    refine ⟨_, _, branch, rfl, ?_, native', fun isSpace => ?_⟩
    · obtain ⟨_, _, _, _, _, _, _, queued⟩ := tracked.queued
      obtain ⟨_, _, _, _, _, _, waiting⟩ := queued.enter keyed sound.grown step
      exact (waiting.tree?_later keyed sound.grown ends (.head _)).trans below
    · obtain ⟨isSpace, isOpen⟩ := space isSpace
      exact List.forall_mem_cons.2 ⟨isOpen, closed isSpace⟩

/-- What is excepted around a visit is what the innermost open element excepts. -/
theorem Moment.ban (sound : document.Sound hosts []) {outer : List Visit}
    (moment : Moment document (v :: (between ++ e :: outer))) (isOpen : e.isOpen)
    (closed : ∀ u ∈ between, u.isOpen = false) {node : Node}
    (found : e.state.document.forest.get? e.id = some node) :
    v.around.ban = banOf node.name (childNodes e.id e.state).1 := by
  induction between generalizing v with
  | nil =>
    cases moment with
    | inside moment step ends =>
      have descends := Visit.descends step
      generalize _ ++ _ :: _ = ids at descends
      cases descends with
      | element found' =>
        cases found.symm.trans found'
        rfl
      | expansion => simp [Visit.isOpen, step] at isOpen
      | scope => simp [Visit.isOpen, step] at isOpen
  | cons u between ih =>
    cases moment with
    | inside moment step ends =>
      have rest := ih moment fun w member => closed w (.tail _ member)
      have descends := Visit.descends step
      generalize _ ++ _ :: _ = ids at descends
      cases descends with
      | element => simpa [Visit.isOpen, step] using closed u (.head _)
      | expansion => exact rest
      | @scope node found kind =>
        -- no element is open around a namespace
        obtain ⟨_, _, tree, same, there, -, none⟩ := moment.native sound
        cases same
        obtain ⟨_, _, same, tracked⟩ := moment.tracked sound
        cases same
        obtain ⟨_, _, _, _, _, _, _, queued⟩ := tracked.queued
        rw [queued.ready.grown.get?_eq, there] at found
        cases found
        rw [none (Node.isSpace_iff.2 kind) e (by simp)] at isOpen
        cases isOpen

/-- A node that a constraint around it names is left out, and told of. -/
theorem Visit.step_of_names {node : Node} {children : List Node} {name : String}
    {target : ConstraintTarget} (found : v.state.document.forest.get? v.id = some node)
    (ban : v.around.ban = banOf name children) {child : Node} (member : child ∈ children)
    (inside : target ∈ child.targets) (names : target.Names node) :
    ∃ first, v.step = .done "" { v.state with
      errors := v.state.errors ++ [.constraintViolation name first node.span] } := by
  have forbidden : forbids v.state.document.symbols target node = true := by
    cases names with
    | tag kind same => simpa [forbids, kind] using same
    | origin kind => simp [forbids, kind]
  have excepted : target ∈ children.flatMap Node.targets :=
    List.mem_flatMap.2 ⟨child, member, inside⟩
  have targets : banOf name children = if (children.flatMap Node.targets).isEmpty then none else
      some ⟨name, children.flatMap Node.targets⟩ := rfl
  rw [targets, if_neg (by simpa using List.ne_nil_of_mem excepted)] at ban
  obtain ⟨first, violates⟩ := Option.isSome_iff_exists.1 (List.find?_isSome
    (p := fun target => forbids v.state.document.symbols target node).2
      ⟨target, excepted, forbidden⟩)
  have violated : violation? v.state.document.symbols v.around.ban node =
      some (⟨name, children.flatMap Node.targets⟩, first) := by
    rw [ban, violation?]
    simp [violates]
  refine ⟨first, ?_⟩
  rw [Visit.step, found]
  dsimp only
  rw [violated]
  rfl

theorem Ends.append {texts texts' : List String} {ids' : List NodeId} {s'' : WriteState}
    (ends : Ends around ids s texts s') (rest : Ends around ids' s' texts' s'') :
    Ends around (ids ++ ids') s (texts ++ texts') s'' := by
  induction ends with
  | nil => exact rest
  | done step _ ih => exact .done step (ih rest)
  | single step _ ih => exact .single step (ih rest)
  | within step below _ _ ih => exact .within step below (ih rest)

/-- A node among those that wait is written, and no error is taken back after that. -/
theorem Queued.ends_at {original : Document} {fuel levels : Nat} {p id : NodeId} {slot : Slot}
    {pre earlier later post : List NodeId} {texts texts' : List String} {final : WriteState}
    (keyed : original.symbols.Keyed) (grown : original.forest.Grown)
    (queued :
      Queued original fuel levels around.expanding s p slot pre (earlier ++ id :: later) post)
    (ends : Ends around earlier s texts s')
    (all : Ends around (earlier ++ id :: later) s texts' final) :
    ∃ text after, Ends around [id] s' text after ∧ after.errors <+: final.errors := by
  obtain ⟨pre, waiting⟩ := queued.later keyed grown ends
  have first := waiting.single.ends keyed grown
  obtain ⟨_, -, -, behind⟩ := waiting.advance keyed grown first
  have rest := behind.ends keyed grown
  obtain ⟨-, rfl⟩ := all.unique (ends.append (first.append rest))
  rw [← List.append_nil later] at behind
  obtain ⟨new, wrote⟩ := behind.wrote keyed grown rest
  exact ⟨_, _, first, wrote.errors⟩

/-- Every visit ends, and what it has told is told in the end. -/
theorem Moment.ends (sound : document.Sound hosts []) {visits : List Visit}
    (moment : Moment document visits) :
    ∃ v outer text after, visits = v :: outer ∧ Ends v.around [v.id] v.state text after ∧
      after.errors <+: (WriteResult.ofDocument document).errors := by
  have keyed := sound.unresolved.keyed
  induction moment with
  | @top id earlier later texts s split before =>
    obtain ⟨top, found, -⟩ := sound.top
    have queued := sound.queued found
    rw [← Forest.children_eq found] at queued
    obtain ⟨texts, final, all⟩ : ∃ texts final, Ends {} _ { document } texts final :=
      ⟨_, _, queued.ends keyed sound.grown⟩
    rw [sound.ofDocument_eq all]
    rw [split] at queued all
    obtain ⟨text, after, first, errors⟩ := queued.ends_at keyed sound.grown before all
    exact ⟨_, _, text, after, rfl, first, errors⟩
  | @inside u outer role inside id earlier later before s texts moment step ends ih =>
    obtain ⟨_, _, _, _, same, ran, told⟩ := ih
    cases same
    obtain ⟨_, _, same, tracked⟩ := moment.tracked sound
    cases same
    obtain ⟨_, _, _, _, _, _, _, queued⟩ := tracked.queued
    obtain ⟨_, _, _, _, _, _, waiting⟩ := queued.enter keyed sound.grown step
    cases ran with
    | done step' => cases step.symm.trans step'
    | single step' => cases step.symm.trans step'
    | within step' below rest =>
      cases step.symm.trans step'
      cases rest
      obtain ⟨text, after, first, errors⟩ := waiting.ends_at keyed sound.grown ends below
      exact ⟨_, _, text, after, rfl, first, errors.trans told⟩

end Write

open Write in
/-- A node that an element excepts is not written inside it and inside no other element; each time
it is come to, one error that names the element is added to those of the document. -/
theorem WriteResult.excepted_leftOut (source : String) (tokens : List Token) (config : Config)
    (options : ParseOptions) :
    let document := (ParseResult.ofTokens source tokens { config } options).document
    ∀ (v e : Visit) (between outer : List Visit) (node element child : Node)
      (target : ConstraintTarget),
      Moment document (v :: (between ++ e :: outer)) → e.isOpen →
      (∀ u ∈ between, u.isOpen = false) →
      v.state.document.forest.get? v.id = some node →
      e.state.document.forest.get? e.id = some element →
      child ∈ (childNodes e.id e.state).1 → target ∈ child.targets → target.Names node →
      ∃ first later, v.step = .done "" { v.state with
          errors := v.state.errors ++ [.constraintViolation element.name first node.span] } ∧
        (WriteResult.ofDocument document).errors =
          v.state.errors ++ .constraintViolation element.name first node.span :: later := by
  intro document v e between outer node element child target moment isOpen closed here there
    member inside names
  have sound : document.Sound [Forest.root] [] :=
    ParseResult.sound_ofTokens source tokens config options
  obtain ⟨first, step⟩ :=
    Visit.step_of_names here (moment.ban sound isOpen closed there) member inside names
  obtain ⟨_, _, _, _, same, ran, later, told⟩ := moment.ends sound
  cases same
  cases ran with
  | single step' => cases step.symm.trans step'
  | within step' => cases step.symm.trans step'
  | done step' rest =>
    cases step.symm.trans step'
    cases rest
    exact ⟨first, later, step, by rw [← told]; simp⟩

open Write in
/-- An element that a usage in the body of a used definition gives way to is left out. -/
theorem WriteResult.excepted_leftOut_usages :
    let source := "div \x7b @Element Row; except SPAN; \x7d [Custom] @Element Row " ++
      "\x7b @Element Cell; \x7d [Custom] @Element Cell \x7b span \x7b \x7d \x7d"
    ∃ stream, TokenStream.ofSource source = .ok stream ∧
      let document := (ParseResult.ofTokens source stream.tokens {} {}).document
      ∃ v outer first span, Moment document (v :: outer) ∧ outer.length = 2 ∧
        v.step = .done "" { v.state with
          errors := v.state.errors ++ [.constraintViolation "div" first span] } ∧
        .constraintViolation "div" first span ∈ (WriteResult.ofDocument document).errors := by
  intro source
  -- the element, the usage in it, and what it gives way to
  have run : (TokenStream.ofSource source).toOption.bind (fun stream =>
        let document := (ParseResult.ofTokens source stream.tokens {} {}).document
        let e : Visit := ⟨{}, ⟨1⟩, { document }⟩
        e.first?.bind fun u => u.first?.bind fun v =>
          (v.state.document.forest.get? v.id).bind fun node =>
            (e.state.document.forest.get? e.id).bind fun element =>
              (childNodes e.id e.state).1.getLast?.map fun child =>
                (document.forest.children Forest.root, e.isOpen && !u.isOpen && node.isElement,
                  node.name, element.name, child.targets)) =
      some ([⟨1⟩, ⟨4⟩, ⟨6⟩], true, "span", "div", [.tag "SPAN"]) := by
    decide +kernel
  obtain ⟨stream, tokens, run⟩ := Option.bind_eq_some_iff.1 run
  obtain ⟨u, first, run⟩ := Option.bind_eq_some_iff.1 run
  obtain ⟨v, second, run⟩ := Option.bind_eq_some_iff.1 run
  obtain ⟨node, here, run⟩ := Option.bind_eq_some_iff.1 run
  obtain ⟨element, there, run⟩ := Option.bind_eq_some_iff.1 run
  obtain ⟨child, last, run⟩ := Option.map_eq_some_iff.1 run
  simp only [Prod.mk.injEq, Bool.and_eq_true, Bool.not_eq_true'] at run
  obtain ⟨children, ⟨⟨isOpen, closed⟩, kind⟩, name, tag, excepts⟩ := run
  have split : _ = [] ++ (⟨1⟩ : NodeId) :: [⟨4⟩, ⟨6⟩] := children
  have moment := ((Moment.top split .nil).first first).first second
  obtain ⟨target, later, step, told⟩ := WriteResult.excepted_leftOut source stream.tokens {} {} v _
    [u] [] node element child (.tag "SPAN") moment isOpen (by simp [closed]) here there
    (List.mem_of_getLast? last) (by simp [excepts])
    (.tag (kind_of_isElement kind) (by rw [name]; decide))
  rw [tag] at step told
  exact ⟨stream, TokenStream.ofSource_of_toOption tokens, v, _, target, node.span, moment, rfl,
    step, by rw [told]; simp⟩

end TemplateMarkup
