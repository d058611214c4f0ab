import TemplateMarkup.Proofs.TokenPlaces
import TemplateMarkup.Proofs.UnfoldedUsages

/-! Usages that are written out. Copies of the defined elements may take the place of a usage before
a document is written, and what it is written as stays the same. -/
namespace TemplateMarkup

/-- The document with copies of the elements of a definition, once that has been worked out, in the
place of the node at `id`. -/
def Document.writeOut (document : Document) (id : NodeId) (key : DefinitionKey) :
    Option Document :=
  match Resolve.resolve key { document } with
  | .error _ _ => none
  | .ok _ s =>
    (s.document.symbols.definition? key).map fun definition =>
      let (copies, forest) := Forest.copyAll definition.elements s.document.forest
      { s.document with forest := forest.splice id copies }

/-- In `written` the elements that a definition means have taken the place of the node at `id`, and
the rest of the tree is as it was. -/
def Document.Substitutes (document written : Document) (id : NodeId) (key : DefinitionKey) : Prop :=
  ∃ p slot pre copies post meaning, document.Means key meaning ∧
    document.forest.Replaces written.forest p slot pre [id] copies post ∧
    written.forest.Shows copies meaning.elements

theorem TreeContent.elements_received {trees : List NodeId → List NodeTree} {usage : Usage}
    (plain : usage.edits = []) (first : Nat) (kind : DefinitionKind) (content : TreeContent) :
    (content.received trees first usage kind).elements = content.elements := by
  have filled (fills : OrderedMap String Value) (content : TreeContent) :
      (content.fill fills).elements = content.elements :=
    List.foldlRecOn fills.toList _ (motive := fun (after : TreeContent) =>
      after.elements = content.elements) rfl fun _ same _ _ => same
  unfold TreeContent.received
  dsimp only
  rw [plain]
  split <;> exact filled _ _

namespace Write
open Resolve

section Places

variable {original : Document} {f g : Forest} {k p id : NodeId} {slot : Slot}
  {pre new post : List NodeId} {node : Node} {usage : Usage} {view : TreeContent}

/-- Usages that give way among children of which the others stay. -/
theorem Unfolds.amid (old new : List NodeId)
    (others : ∀ c ∈ pre ++ post, g.tree? c = f.tree? c)
    (middle : Unfolds original (old.filterMap f.tree?) (new.filterMap g.tree?)) :
    Unfolds original ((pre ++ (old ++ post)).filterMap f.tree?)
      ((pre ++ (new ++ post)).filterMap g.tree?) := by
  have front : pre.filterMap g.tree? = pre.filterMap f.tree? :=
    List.filterMap_congr fun c member => others c (List.mem_append_left _ member)
  have back : post.filterMap g.tree? = post.filterMap f.tree? :=
    List.filterMap_congr fun c member => others c (List.mem_append_right _ member)
  rw [List.filterMap_append, List.filterMap_append, List.filterMap_append, List.filterMap_append,
    front, back]
  exact (Unfolds.refl _).append (middle.append (.refl _))

/-- The trees above the place of a usage, before and after it has given way. -/
theorem Unfolds.of_replaces (hf : f.Grown) (hg : g.Grown) (stands : f.Stands p)
    (replaces : f.Replaces g p slot pre [id] new post) (found : f.get? id = some node)
    (kind : node.kind = .usage usage) (type : usage.type = .element)
    (brought : usage.Brought original) (grants : Grants original usage view)
    (shown : g.Shows new view.elements) (under : f.Below k p) :
    f.Stands k → ∃ top branches branches', f.tree? k = some (.mk top branches) ∧
      g.tree? k = some (.mk top branches') ∧ Unfolds original branches branches' := by
  induction under using Relation.ReflTransGen.head_induction_on with
  | refl =>
    intro _
    have tree := hf.tree?_of_slot? replaces.before
    have tree' := hg.tree?_of_slot? replaces.after
    refine ⟨_, _, _, tree, tree', .amid [id] new (fun c member => ?_) ?_⟩
    · have other : c ∉ [id] := by
        intro same
        rw [List.mem_singleton.1 same] at member
        exact hf.not_mem_others replaces.before member
      refine hf.tree?_of_spares hg (replaces.spares hf stands ?_ other)
      rw [replaces.children]
      simp only [List.mem_append] at member ⊢
      exact member.imp_right .inr
    · obtain ⟨here, there, same⟩ := Option.map_eq_some_iff.1 found
      have used := hf.tree?_of_slot? there
      rw [same] at used
      rw [List.filterMap_cons_some used, shown.filterMap, ← List.append_nil view.elements]
      exact .expand kind type brought grants .nil
  | @head k c step below ih =>
    intro standing
    obtain ⟨top, branches, branches', way, way', unfolds⟩ := ih (standing.tail step)
    obtain ⟨here, there, -⟩ := Forest.exists_slot_of_mem_children step
    have kept := replaces.slot?_above hf standing step below
    have tree := hf.tree?_of_slot? there
    have tree' := hg.tree?_of_slot? (kept.trans there)
    obtain ⟨front, back, split⟩ := List.append_of_mem step
    have before : f.slot? k = some { here with children := front ++ (c :: back) } := by
      rw [there, ← split, Forest.children_eq there]
    rw [← Forest.children_eq there, split] at tree tree'
    refine ⟨_, _, _, tree, tree', .amid [c] [c] (fun d member => ?_) ?_⟩
    · have link : d ∈ f.children k := by
        rw [split]
        simp only [List.mem_append, List.mem_cons] at member ⊢
        exact member.imp_right .inr
      refine hf.tree?_of_spares hg (replaces.spares_beside hf standing step below link ?_)
      rintro rfl
      exact hf.not_mem_others before member
    · rw [List.filterMap_cons_some way, List.filterMap_cons_some way']
      exact .keep unfolds .nil

/-- The trees are still those of nodes that bring what the document brings. -/
theorem Unfolds.fits {trees trees' : List NodeTree} {levels : Nat} (grown : original.forest.Grown)
    (unfolds : Unfolds original trees trees')
    (fits : ∀ tree ∈ trees, tree.Fits (Node.Brought original) levels) :
    ∀ tree ∈ trees', tree.Fits (Node.Brought original) (levels + original.forest.slots.size) := by
  induction unfolds generalizing levels with
  | nil => exact fun tree member => nomatch member
  | keep _ _ ihInside ih =>
    obtain ⟨first, rest⟩ := List.forall_mem_cons.1 fits
    refine List.forall_mem_cons.2 ⟨?_, ih rest⟩
    cases first with
    | mk here below =>
      rw [Nat.succ_add]
      exact .mk here (ihInside below)
  | @expand _ _ view _ _ _ kind type brought grants _ ih =>
    have origin : view.All fun tree => ∃ id, original.forest.tree? id = some tree :=
      grants.all brought fun id _ _ there => ⟨id, there⟩
    refine List.forall_mem_append.2 ⟨fun tree member => ?_, ih (List.forall_mem_cons.1 fits).2⟩
    obtain ⟨k, there⟩ := origin tree member
    exact (grown.fits (fun _ _ => brought_of_slot?) there).mono (Nat.le_add_left _ _)

end Places

section Standing

variable {document : Document} {hosts : List Host} {k p id : NodeId} {node : Node}

theorem brought_of_get? {usage : Usage} (found : document.forest.get? id = some node)
    (kind : node.kind = .usage usage) : usage.Brought document := by
  obtain ⟨slot, there, rfl⟩ := Option.map_eq_some_iff.1 found
  exact (brought_of_slot? there).usages usage (by simp [Node.usages, kind])

theorem mem_branches {tree branch : NodeTree} (grown : document.forest.Grown)
    (there : document.forest.tree? k = some tree) (link : id ∈ document.forest.children k)
    (below : document.forest.tree? id = some branch) : branch ∈ tree.branches := by
  obtain ⟨other, member, same⟩ := (grown.shows_children there).exists_tree link
  cases below.symm.trans same
  exact member

theorem any_isContent_of_mem {trees : List NodeTree} {tree : NodeTree} (member : tree ∈ trees)
    (content : tree.node.isContent) : (trees.map NodeTree.node).any Node.isContent :=
  List.any_eq_true.2 ⟨_, List.mem_map_of_mem member, content⟩

/-- Content in the tree of a document that was read stands inside namespaces and elements. Where an
element is above it there is content inside the element. -/
theorem occurs_of_below (sound : document.Sound hosts []) (link : id ∈ document.forest.children p)
    (found : document.forest.get? id = some node) (content : node.isContent)
    (under : document.forest.Below k p) :
    ∀ tree, document.forest.tree? k = some tree → Occurs node tree.branches ∧
      ((tree.branches.map NodeTree.node).any Node.isContent ∨
        document.forest.HasHost ⟨k, true⟩) := by
  have grown := sound.grown
  induction under using Relation.ReflTransGen.head_induction_on with
  | refl =>
    intro tree there
    obtain ⟨here, slot, same⟩ := Option.map_eq_some_iff.1 found
    have used := grown.tree?_of_slot? slot
    rw [same] at used
    have member := mem_branches grown there link used
    exact ⟨.here member, .inl (any_isContent_of_mem member content)⟩
  | @head k c step below ih =>
    intro tree there
    obtain ⟨here, slot, -⟩ := grown.exists_slot step
    have way := grown.tree?_of_slot? slot
    have get : document.forest.get? c = some here.node := by
      rw [Forest.get?, slot, Option.map_some]
    obtain ⟨inside, full⟩ := ih _ way
    have member := mem_branches grown there step way
    have other : c ≠ Forest.root := by
      rintro rfl
      exact grown.ordered.not_mem_children sound.ready.top.parent? step
    -- what has a node below it is an element or a namespace
    have host : document.forest.HasHost ⟨c, false⟩ := by
      rcases Relation.ReflTransGen.cases_head below with rfl | ⟨d, link', -⟩
      · exact sound.hosted.parents c id link
      · exact sound.hosted.parents c d link'
    have isHost : here.node.isHost := by
      obtain ⟨_, get', top | ⟨isHost, -⟩⟩ := host
      · exact absurd top other
      · cases get.symm.trans get'
        exact isHost
    unfold Node.isHost at isHost
    split at isHost
    · next kind =>
      -- no namespace is inside an element
      have closed : ¬document.forest.HasHost ⟨c, true⟩ := by
        rintro ⟨_, get', top | ⟨-, space⟩⟩
        · exact other top
        · cases get.symm.trans get'
          rw [Node.isSpace_iff.1 (space rfl)] at kind
          cases kind
      exact ⟨.element member kind (full.resolve_right closed) inside,
        .inl (any_isContent_of_mem member (by simp [NodeTree.node, Node.isContent, kind]))⟩
    · next kind =>
      exact ⟨.scope member kind inside,
        .inr (sound.hosted.spaces k c _ step get (Node.isSpace_iff.2 kind))⟩
    · cases isHost

end Standing

section Documents

/-- What a document is written as comes to this text and this tally. -/
structure ComesTo (document : Document) (text : String) (t : Tally) : Prop where
  html : (WriteResult.ofDocument document).html =
    (if document.symbols.html5 then Markup.doctype else "") ++ text
  css : (WriteResult.ofDocument document).css = "\n".intercalate t.css
  js : (WriteResult.ofDocument document).js = "\n".intercalate t.js
  fragments : (WriteResult.ofDocument document).fragments = t.fragments
  errors : (WriteResult.ofDocument document).errors = t.errors

variable {original document : Document} {levels : Nat} {top : Slot} {trees : List NodeTree}

theorem Queued.comesTo (keyed : original.symbols.Keyed) (grown : original.forest.Grown)
    (start : Ready original original)
    (queued : Queued original (fuelFor document) levels ({} : Surroundings).expanding { document }
      Forest.root top [] top.children [])
    (shown : document.forest.Shows top.children trees) :
    ∃ text t, Renders original {} trees ({ document } : WriteState).tally text t ∧
      ComesTo document text t := by
  have children : document.forest.children Forest.root = top.children := by
    simpa using Forest.children_eq queued.before
  refine ⟨_, _, (queued.ends keyed grown).renders keyed grown start queued shown, ?_⟩
  rw [← children]
  exact ⟨rfl, rfl, rfl, rfl, rfl⟩

/-- A usage without edits receives copies of the defined elements. -/
theorem writeOut_eq {key : DefinitionKey} {usage : Usage} {span : Span} {content : Content}
    {s : WriteState} (plain : usage.edits = [])
    (named : document.symbols.usageKey usage = some key)
    (received : instantiate span usage { document } = (some content, s)) (id : NodeId) :
    document.writeOut id key = some (modifyForest (·.splice id content.elements) s).2.document := by
  obtain ⟨warnings, run⟩ := Resolve.instantiate_apply usage { document }
  obtain ⟨told, resolved⟩ := resolving_apply span (Resolve.instantiate usage) { document }
  rw [instantiate_eq, resolved, run, instantiateWith_apply, named] at received
  dsimp only at received
  unfold Document.writeOut
  cases ended : resolve key { document } with
  | error e r =>
    rw [ended] at received
    cases received
  | ok _ r =>
    rw [ended] at received
    dsimp only at received ⊢
    cases found : r.document.symbols.definition? key with
    | none =>
      rw [found] at received
      cases received
    | some definition =>
      rw [found] at received
      obtain ⟨same, rfl⟩ := Prod.mk.inj received
      cases Option.some.inj same
      have elements : (receive usage definition r).1.elements =
          (Forest.copyAll definition.elements r.document.forest).1 := by
        rw [receive, plain]
        exact fill_elements _ _
      have copied : (receive usage definition r).2.document =
          { r.document with
            forest := (Forest.copyAll definition.elements r.document.forest).2 } := by
        rw [receive, plain]
        rfl
      change _ = some { (receive usage definition r).2.document with
        forest := (receive usage definition r).2.document.forest.splice id
          (receive usage definition r).1.elements }
      rw [elements, copied]
      rfl

/-- A document that is written in place of `original`: its definitions are the same, and the nodes
below its root bring nothing new. -/
structure StandsIn (original document : Document) : Prop where
  ready : Ready original document
  size_le : original.forest.slots.size ≤ document.forest.slots.size
  counts : document.symbols.counts = original.symbols.counts
  fits : ∀ c ∈ document.forest.children Forest.root, ∃ levels,
    document.forest.Fits (Node.Brought original) levels c

theorem StandsIn.queued (standsIn : StandsIn original document)
    (found : document.forest.slot? Forest.root = some top) :
    Queued original (fuelFor document) document.forest.slots.size ({} : Surroundings).expanding
      { document } Forest.root top [] top.children [] := by
  obtain ⟨ready, size_le, -, fits⟩ := standsIn
  refine ⟨ready, .refl, by simpa using found, fun c link => ?_, List.nodup_nil, by simp, ?_⟩
  · rw [← Forest.children_eq found] at link
    obtain ⟨_, branch, there, fits⟩ := fits c link
    have levels : branch.Fits (fun _ => True) document.forest.slots.size :=
      ready.grown.fits (fun _ _ _ => trivial) there
    exact ⟨branch, there, fits.within levels⟩
  · have more := Nat.mul_le_mul_left original.symbols.definitions.size
      (Nat.add_le_add_right size_le 1)
    rw [fuelFor, ready.standing.rests.resembles.size, Nat.succ_mul, List.length_nil, Nat.sub_zero]
    omega

variable {hosts : List Host}

theorem StandsIn.renders (standsIn : StandsIn original document) (sound : original.Sound hosts [])
    {root : Node} {branches : List NodeTree}
    (tree : document.forest.tree? Forest.root = some (.mk root branches)) :
    ∃ text t, Renders original {} branches ({ document := original } : WriteState).tally text t ∧
      ComesTo document text t := by
  obtain ⟨top, found, -⟩ := standsIn.ready.top
  have shown := standsIn.ready.grown.shows_children tree
  rw [Forest.children_eq found] at shown
  have tally : ({ document } : WriteState).tally = ({ document := original } : WriteState).tally :=
    congrArg (Tally.mk · [] [] [] []) standsIn.counts
  rw [← tally]
  exact (standsIn.queued found).comesTo sound.unresolved.keyed sound.grown sound.ready shown

theorem fits_branches (grown : document.forest.Grown) {tree : NodeTree}
    (there : document.forest.tree? Forest.root = some tree) :
    ∀ branch ∈ tree.branches,
      branch.Fits (Node.Brought document) document.forest.slots.size := by
  intro branch member
  obtain ⟨slot, found⟩ := grown.ordered.exists_slot_of_tree? there
  rw [grown.tree?_of_slot? found] at there
  cases there
  obtain ⟨c, -, below⟩ := List.mem_filterMap.1 member
  exact grown.fits (fun _ _ => brought_of_slot?) below

theorem StandsIn.refl (sound : document.Sound hosts []) : StandsIn document document := by
  obtain ⟨slot, found, -⟩ := sound.top
  have tree := sound.grown.tree?_of_slot? found
  refine ⟨sound.ready, Nat.le_refl _, rfl, fun c link => ?_⟩
  obtain ⟨branch, member, there⟩ := (sound.grown.shows_children tree).exists_tree link
  exact ⟨_, branch, there, fits_branches sound.grown tree branch member⟩

/-- A document in which usages of `original` have given way. -/
structure WrittenOut (original document : Document) : Prop where
  ready : Ready original document
  size_le : original.forest.slots.size ≤ document.forest.slots.size
  counts : document.symbols.counts = original.symbols.counts
  unfolds : ∃ top branches branches',
    original.forest.tree? Forest.root = some (.mk top branches) ∧
      document.forest.tree? Forest.root = some (.mk top branches') ∧
      Unfolds original branches branches'

theorem WrittenOut.standsIn (out : WrittenOut original document) (sound : original.Sound hosts []) :
    StandsIn original document := by
  obtain ⟨ready, size_le, counts, root, branches, branches', tree, tree', unfolds⟩ := out
  refine ⟨ready, size_le, counts, fun c link => ?_⟩
  obtain ⟨branch, member, there⟩ := (ready.grown.shows_children tree').exists_tree link
  exact ⟨_, branch, there,
    unfolds.fits sound.grown (fits_branches sound.grown tree) branch member⟩

/-- What is written without errors stays the same when usages have given way. -/
theorem WrittenOut.comesTo (out : WrittenOut original document) (sound : original.Sound hosts [])
    (loose : original.AllDefined (·.node.isLoose))
    (success : (WriteResult.ofDocument original).success) :
    ∃ text t, t.errors = [] ∧ ComesTo original text t ∧ ComesTo document text t := by
  obtain ⟨root, branches, branches', tree, tree', unfolds⟩ := out.unfolds
  obtain ⟨text, t, renders, comes⟩ := (StandsIn.refl sound).renders sound tree
  obtain ⟨text', t', renders', comes'⟩ := (out.standsIn sound).renders sound tree'
  have clean : t.errors = [] := comes.errors.symm.trans (List.isEmpty_iff.1 success)
  have same : Renders original {} branches' ({ document := original } : WriteState).tally text t :=
    renders.unfolds sound.unresolved.keyed sound.ready loose clean unfolds (List.Subset.refl _)
  obtain ⟨rfl, rfl⟩ := same.unique renders'
  exact ⟨text, t, clean, comes, comes'⟩

end Documents

end Write

namespace Document.Sound

variable {document : Document} {hosts : List Host}

theorem isRoot_of_used (sound : document.Sound hosts []) {id : NodeId}
    (used : id ∈ document.symbols.owned ∨ document.Brings id) :
    document.forest.IsRoot id ∧ id ≠ Forest.root := by
  rcases used with owned | brings
  · have member : id ∈ document.symbols.owned ++ [] := List.mem_append_left _ owned
    refine ⟨sound.roots.isRoot id (.tail _ member), ?_⟩
    rintro rfl
    exact (List.nodup_cons.1 sound.roots.nodup).1 member
  · obtain ⟨isRoot, other⟩ := sound.brought id brings
    exact ⟨isRoot, fun same => other (same ▸ .head _)⟩

theorem allDefined_isLoose (sound : document.Sound hosts []) :
    document.AllDefined (·.node.isLoose) := by
  intro id tree used there
  obtain ⟨isRoot, other⟩ := sound.isRoot_of_used used
  refine sound.loose id tree.node isRoot other ?_
  rw [sound.grown.get?_eq, there, Option.map_some]

theorem exists_parent (sound : document.Sound hosts []) {id : NodeId} {node : Node} {usage : Usage}
    (stands : document.forest.Stands id) (found : document.forest.get? id = some node)
    (kind : node.kind = .usage usage) :
    ∃ (p : NodeId) (slot : Slot) (pre post : List NodeId), document.forest.Stands p ∧
      document.forest.slot? p = some { slot with children := pre ++ (id :: post) } := by
  rcases Relation.ReflTransGen.cases_tail stands with same | ⟨p, above, link⟩
  · obtain ⟨top, there, isDocument⟩ := sound.top
    rw [same, Forest.get?, there] at found
    cases found
    rw [isDocument] at kind
    cases kind
  · obtain ⟨slot, there, -⟩ := Forest.exists_slot_of_mem_children link
    obtain ⟨pre, post, split⟩ := List.append_of_mem link
    refine ⟨p, slot, pre, post, above, ?_⟩
    rw [there, ← split, Forest.children_eq there]

section Usages

variable {id : NodeId} {node : Node} {usage : Usage} {key : DefinitionKey}
  (sound : document.Sound hosts []) (stands : document.forest.Stands id)
  (found : document.forest.get? id = some node) (kind : node.kind = .usage usage)
  (type : usage.type = .element) (named : document.symbols.usageKey usage = some key)

include sound stands found kind type named

/-- Where nothing goes wrong a usage in the tree receives something, because writing comes to it. -/
theorem exists_grants (success : (WriteResult.ofDocument document).success) :
    ∃ view, Write.Grants document usage view := by
  obtain ⟨p, slot, pre, post, above, before⟩ := sound.exists_parent stands found kind
  obtain ⟨top, there, -⟩ := sound.top
  have tree := sound.grown.tree?_of_slot? there
  have link := Forest.mem_children_of_slot? before
  have content : node.isContent := by simp [Node.isContent, kind, type]
  obtain ⟨occurs, -⟩ := Write.occurs_of_below sound link found content above _ tree
  obtain ⟨text, t, renders, comes⟩ := (Write.StandsIn.refl sound).renders sound tree
  have clean : t.errors = [] := comes.errors.symm.trans (List.isEmpty_iff.1 success)
  exact renders.grants sound.unresolved.keyed sound.ready kind type
    (Write.brought_of_get? found kind) named clean occurs

theorem exists_writtenOut {view : TreeContent} (grants : Write.Grants document usage view)
    (plain : usage.edits = []) :
    ∃ written, document.writeOut id key = some written ∧ document.Substitutes written id key ∧
      Write.WrittenOut document written := by
  obtain ⟨p, slot, pre, post, above, before⟩ := sound.exists_parent stands found kind
  have brought := Write.brought_of_get? found kind
  have supplied : Write.Supplied document {} usage { document }
      (Write.instantiate {} usage { document }) :=
    Write.instantiate_supplied sound.unresolved.keyed brought sound.ready
  cases run : Write.instantiate {} usage { document } with
  | mk received s =>
    rw [run] at supplied
    cases received with
    | none =>
      obtain ⟨-, e, denied, -⟩ := supplied
      exact absurd denied (grants.not_denied sound.unresolved.keyed)
    | some received =>
      obtain ⟨ready, replaces, ⟨view', grants', shown⟩, -⟩ :=
        Write.Supplies.splice supplied sound.grown sound.ready above before
      have unfolds := Write.Unfolds.of_replaces sound.grown ready.grown above replaces found kind
        type brought grants' shown above .refl
      refine ⟨_, Write.writeOut_eq plain named run id, ?_, ready, ?_, ?_, unfolds⟩
      · obtain ⟨key', meaning, named', succeeds, rfl⟩ := grants'
        cases named.symm.trans named'
        rw [TreeContent.elements_received plain] at shown
        exact ⟨p, slot, pre, _, post, meaning, succeeds.means, replaces, shown⟩
      · exact (Write.Supplies.grows supplied id).size_le
      · exact congrArg Tally.counts (Write.Supplies.tally supplied)

end Usages

end Document.Sound

/-- A usage without edits that stands for a definition may be written out before writing begins: if
nothing goes wrong, what is written is the same. -/
theorem WriteResult.ofDocument_writeOut (source : String) (tokens : List Token) (config : Config)
    (options : ParseOptions) :
    let document := (ParseResult.ofTokens source tokens { config } options).document
    let result := WriteResult.ofDocument document
    ∀ id node usage key, result.success → document.forest.Stands id →
      document.forest.get? id = some node → node.kind = .usage usage → usage.type = .element →
      usage.edits = [] → document.symbols.usageKey usage = some key →
      ∃ written, document.writeOut id key = some written ∧ document.Substitutes written id key ∧
        let result' := WriteResult.ofDocument written
        result'.html = result.html ∧ result'.css = result.css ∧ result'.js = result.js ∧
          result'.fragments = result.fragments ∧ result'.errors = [] := by
  intro document result id node usage key success stands found kind type plain named
  have sound : document.Sound [Forest.root] [] :=
    ParseResult.sound_ofTokens source tokens config options
  obtain ⟨view, grants⟩ := sound.exists_grants stands found kind type named success
  obtain ⟨written, run, substitutes, out⟩ :=
    sound.exists_writtenOut stands found kind type named grants plain
  obtain ⟨text, t, clean, comes, comes'⟩ := out.comesTo sound sound.allDefined_isLoose success
  have html5 : written.symbols.html5 = document.symbols.html5 := by
    rw [out.ready.standing.rests.resembles.rest]
  refine ⟨written, run, substitutes, ?_, comes'.css.trans comes.css.symm,
    comes'.js.trans comes.js.symm, comes'.fragments.trans comes.fragments.symm,
    comes'.errors.trans clean⟩
  rw [comes'.html, html5, ← comes.html]

/-- The first of two usages of a template, which has a usage inside it and inherits from a custom
whose class is counted up. -/
theorem WriteResult.ofDocument_writeOut_boxes :
    let source := "[Template] @Element Box \x7b p \x7b text \x7b \"a\" \x7d @Element Mark; \x7d " ++
      "@Element Mark; \x7d [Custom] @Element Mark \x7b b \x7b style \x7b .red \x7b color: red; " ++
      "\x7d \x7d \x7d \x7d div \x7b @Element Box; br \x7b \x7d @Element Box; \x7d"
    let html := "<div><p>a<b class=\"red\"></b></p><b class=\"red1\"></b><br>" ++
      "<p>a<b class=\"red2\"></b></p><b class=\"red3\"></b></div>"
    let key : DefinitionKey := ⟨.template, .element, ⟨"", "Box"⟩⟩
    ∃ stream, TokenStream.ofSource source = .ok stream ∧
      let document := (ParseResult.ofTokens source stream.tokens {} {}).document
      (WriteResult.ofDocument document).success ∧ document.forest.Stands ⟨9⟩ ∧
      ∃ node usage written, document.forest.get? ⟨9⟩ = some node ∧ node.kind = .usage usage ∧
        usage.type = .element ∧ usage.edits = [] ∧ document.symbols.usageKey usage = some key ∧
        document.writeOut ⟨9⟩ key = some written ∧ document.Substitutes written ⟨9⟩ key ∧
        (WriteResult.ofDocument written).html = html := by
  intro source html key
  have run : (TokenStream.ofSource source).toOption.bind (fun stream =>
        let document := (ParseResult.ofTokens source stream.tokens {} {}).document
        let result := WriteResult.ofDocument document
        (document.forest.get? ⟨9⟩).bind fun node => node.usage?.map fun usage =>
          (result.success && usage.type == .element && usage.edits.isEmpty, result.html,
            document.forest.children Forest.root, document.forest.children ⟨8⟩,
            document.symbols.usageKey usage)) =
      some (true, html, [⟨4⟩, ⟨7⟩, ⟨8⟩], [⟨9⟩, ⟨10⟩, ⟨11⟩], some key) := by decide +kernel
  obtain ⟨stream, tokens, run⟩ := Option.bind_eq_some_iff.1 run
  obtain ⟨node, found, run⟩ := Option.bind_eq_some_iff.1 run
  obtain ⟨usage, isUsage, run⟩ := Option.map_eq_some_iff.1 run
  have tokenizes := TokenStream.ofSource_of_toOption tokens
  have kind := Node.kind_of_usage? isUsage
  simp only [Prod.mk.injEq, Bool.and_eq_true, beq_iff_eq, List.isEmpty_iff] at run
  obtain ⟨⟨⟨success, type⟩, plain⟩, same, outer, inner, named⟩ := run
  have stands : (ParseResult.ofTokens source stream.tokens {} {}).document.forest.Stands ⟨9⟩ :=
    .tail (.single (b := ⟨8⟩) (by rw [outer]; simp)) (by rw [inner]; simp)
  obtain ⟨written, out, substitutes, turned, -⟩ := WriteResult.ofDocument_writeOut source
    stream.tokens {} {} ⟨9⟩ node usage key success stands found kind type plain named
  exact ⟨stream, tokenizes, success, stands, node, usage, written, found, kind, type, plain,
    named, out, substitutes, turned.trans same⟩

end TemplateMarkup
