import TemplateMarkup.Proofs.ParseProgress
import TemplateMarkup.Proofs.RejectedNodes

/-! How deep a document may nest. The limit for what is read holds of every node, and so keeps the
limit for what is written from being met where no usage brings more. -/
namespace TemplateMarkup

/-- At most `m` elements stand one in the other in a tree, and no usage brings more of them. -/
inductive NodeTree.Low : Nat → NodeTree → Prop
  | mk {m : Nat} {node : Node} {branches : List NodeTree} (room : node.isElement.toNat ≤ m)
      (plain : ∀ usage, node.kind = .usage usage → usage.type ≠ .element)
      (below : ∀ tree ∈ branches, Low (m - node.isElement.toNat) tree) : Low m (.mk node branches)

namespace NodeTree.Low

variable {m m' : Nat} {tree : NodeTree}

theorem parts (low : tree.Low m) : tree.node.isElement.toNat ≤ m ∧
    (∀ usage, tree.node.kind = .usage usage → usage.type ≠ .element) ∧
    ∀ branch ∈ tree.branches, branch.Low (m - tree.node.isElement.toNat) := by
  cases low with
  | mk room plain below => exact ⟨room, plain, below⟩

theorem mono (low : tree.Low m) (le : m ≤ m') : tree.Low m' := by
  induction low generalizing m' with
  | mk room plain below ih =>
    exact .mk (by omega) plain fun tree member => ih tree member (by omega)

theorem mapTop (low : tree.Low m) {rename : Node → Node}
    (same : ∀ node, node.isLoose → rename node = node)
    (kept : ∀ node, (rename node).isLoose = node.isLoose) : (tree.mapTop rename).Low m := by
  obtain ⟨node, branches⟩ := tree
  cases loose : node.isLoose with
  | true => rwa [NodeTree.mapTop, same node loose]
  | false =>
    have other {node : Node} (loose : node.isLoose = false) :
        node.isElement = false ∧ ∀ usage, node.kind ≠ .usage usage := by
      unfold Node.isLoose at loose
      unfold Node.isElement
      cases kind : node.kind <;> simp_all
    have after := other ((kept node).trans loose)
    cases low with
    | mk room plain below =>
      rw [(other loose).1] at below
      refine .mk (by simp [after.1]) (fun usage kind => absurd kind (after.2 usage)) ?_
      rwa [after.1]

end NodeTree.Low

theorem Forest.Shallow.low {f : Forest} {m n : Nat} {k : NodeId} {tree : NodeTree}
    (shallow : f.Shallow m) (grown : f.Grown)
    (plain : ∀ k node usage, f.Stands k → f.get? k = some node → node.kind = .usage usage →
      usage.type ≠ .element)
    (stands : f.Stands k) (there : f.tree? k = some tree) (nesting : f.Nesting (f.parent? k) n) :
    tree.Low (m - n) := by
  have fits := grown.fits (P := fun _ => True) (fun _ _ _ => trivial) there
  generalize f.slots.size = levels at fits
  induction fits generalizing k n with
  | @mk levels node branches _ _ ih =>
    have found : f.get? k = some node := by
      rw [grown.get?_eq, there]
      rfl
    obtain ⟨n', above, room⟩ := shallow k node found
    cases above.unique nesting
    refine .mk (by omega) (plain k node · stands found) fun branch member => ?_
    have shown : some branch ∈ (f.children k).map f.tree? := by
      rw [grown.shows_children there]
      exact List.mem_map_of_mem member
    obtain ⟨c, link, below⟩ := List.mem_map.1 shown
    have inner : f.Nesting (f.parent? c) (n + node.isHost.toNat) := by
      rw [grown.back k c link]
      exact .inside found nesting
    have more : node.isElement.toNat ≤ node.isHost.toNat := by
      unfold Node.isElement Node.isHost
      cases node.kind <;> simp
    exact (ih branch member (stands.tail link) below inner).mono (by omega)

namespace Write

variable {original : Document} {around : Surroundings} {tree : NodeTree} {t t' : Tally}

/-- No error among these tells that elements nest too deep. -/
def NoneDeep (errors : List WriteError) : Prop :=
  ∀ tag limit span, .nestingTooDeep tag limit span ∉ errors

theorem noneDeep_of_isResolve {told : List WriteError} (resolve : ∀ e ∈ told, e.isResolve) :
    NoneDeep told := fun _ _ _ member => by cases resolve _ member

theorem NoneDeep.append {errors told : List WriteError} (clear : NoneDeep errors)
    (more : NoneDeep told) : NoneDeep (errors ++ told) := fun tag limit span member =>
  (List.mem_append.1 member).elim (clear tag limit span) (more tag limit span)

/-- A step that tells of no depth, with low trees inside. -/
def TreeStep.Low : TreeStep → Prop
  | .done _ after => NoneDeep after.errors
  | .within _ inside trees before =>
    NoneDeep before.errors ∧ ∀ tree ∈ trees, tree.Low (maxElementDepth - inside.depth)

theorem elementTreeStep_low {node : Node} {branches : List NodeTree}
    (below : ∀ tree ∈ branches, tree.Low (maxElementDepth - around.depth - 1))
    (clear : NoneDeep t.errors) : (elementTreeStep original around node branches t).Low := by
  obtain ⟨told, resolve, prepared⟩ := Preparation.adds original node (branches.map NodeTree.node) t
  have after : (Preparation.of original node (branches.map NodeTree.node) t).after.errors =
      t.errors ++ told :=
    congrArg (fun preparation : Preparation => preparation.after.errors) (prepared t.errors)
  have clear' :
      NoneDeep (Preparation.of original node (branches.map NodeTree.node) t).after.errors :=
    after ▸ clear.append (noneDeep_of_isResolve resolve)
  unfold elementTreeStep
  dsimp only
  split
  · exact clear.append (by simp [NoneDeep])
  · split
    · exact clear'
    · refine ⟨clear', fun branch member => ?_⟩
      obtain ⟨tree, there, rfl⟩ := List.mem_map.1 member
      rw [insideElement, Nat.sub_add_eq]
      exact (below tree there).mapTop
        (fun node loose => Node.mapNames_eq_self (Node.isBlock_of_isLoose loose) _)
        (Node.isLoose_mapNames _)

/-- A low tree gives a low step: only an element may be too deep, and a usage that brings more is
not in it. -/
theorem treeStep_low (low : tree.Low (maxElementDepth - around.depth)) (clear : NoneDeep t.errors) :
    (treeStep original around tree t).Low := by
  obtain ⟨room, plain, below⟩ := low.parts
  unfold treeStep
  cases violation? original.symbols around.ban tree.node with
  | some found => exact clear.append (by simp [NoneDeep])
  | none =>
    dsimp only
    split
    · next alone =>
      cases kind : tree.node.kind with
      | element =>
        rw [show tree.node.isElement = true by simp [Node.isElement, kind]] at below
        exact elementTreeStep_low below clear
      | usage usage => exact absurd (by simpa [goesOn, kind] using alone) (plain usage kind)
      | scope =>
        rw [show tree.node.isElement = false by simp [Node.isElement, kind]] at below
        exact ⟨clear, below⟩
      | _ => simp [goesOn, kind] at alone
    · next alone =>
      rw [Bool.not_eq_true] at alone
      cases element : tree.node.isElement with
      | true =>
        simp only [goesOn, kind_of_isElement element, decide_eq_false_iff_not] at alone
        simp only [element, Bool.toNat_true] at room
        omega
      | false =>
        obtain ⟨told, adds, resolve⟩ := logs_allowedNode alone element (t.state original)
        change NoneDeep (allowedNode _ around Forest.root tree.node (t.state original)).2.errors
        rw [adds.errors]
        exact NoneDeep.append clear (noneDeep_of_isResolve resolve)

theorem Renders.noneDeep {trees : List NodeTree} {text : String}
    (renders : Renders original around trees t text t')
    (low : ∀ tree ∈ trees, tree.Low (maxElementDepth - around.depth)) (clear : NoneDeep t.errors) :
    NoneDeep t'.errors := by
  induction renders with
  | nil => exact clear
  | @done around tree trees t _ _ _ _ step _ _ ih =>
    have first : (treeStep original around tree t).Low := treeStep_low (low _ (.head _)) clear
    rw [step] at first
    exact ih (fun tree member => low tree (.tail _ member)) first
  | @within around _ tree _ trees t _ _ _ _ _ _ step _ _ _ ihBelow ih =>
    have first : (treeStep original around tree t).Low := treeStep_low (low _ (.head _)) clear
    rw [step] at first
    exact ih (fun tree member => low tree (.tail _ member)) (ihBelow first.2 first.1)

end Write

namespace ParseResult

/-- A document that was read nests no deeper than it may. At most `maxDepth` elements and namespaces
stand around a node, and fewer around an element, in the tree and outside it. Where the limit is
not above that of writing and no element is used, writing does not find the document too deep. -/
theorem ofTokens_shallow (source : String) (tokens : List Token) (symbols : SymbolTable)
    (options : ParseOptions) :
    (let forest := (ofTokens source tokens symbols options).document.forest
    ∀ id node, forest.get? id = some node →
      let depth := (forest.ancestors id).countP fun p => (forest.get? p).any Node.isHost
      depth ≤ options.maxDepth ∧ (node.isElement → depth < options.maxDepth)) ∧
    ∀ config, let document := (ofTokens source tokens { config } options).document
      options.maxDepth ≤ maxElementDepth →
      (∀ id node usage, document.forest.Stands id → document.forest.get? id = some node →
        node.kind = .usage usage → usage.type ≠ .element) →
      ∀ tag limit span,
        .nestingTooDeep tag limit span ∉ (WriteResult.ofDocument document).errors := by
  have root : Forest.empty.Nesting (some Forest.root) 0 := by
    obtain ⟨node, found⟩ : ∃ node, Forest.empty.get? Forest.root = some node := ⟨_, rfl⟩
    have depth := Forest.Nesting.inside found .top
    cases found
    exact depth
  have shallow (symbols : SymbolTable) :
      (ofTokens source tokens symbols options).document.forest.Shallow options.maxDepth := by
    obtain ⟨s, runs, forest, -⟩ := exists_runs source tokens symbols options
    have reaches := runs.reaches (ParseInput.ended_ofTokens source tokens options)
      (ParseInput.ofTokens source tokens options).nonempty
    rw [forest]
    exact (reaches.sprouts 0 root (Nat.le_of_eq (Nat.zero_add _))).shallow (Forest.shallow_empty _)
  constructor
  · intro forest id node found
    obtain ⟨n, nesting, room⟩ := shallow symbols id node found
    dsimp only
    rw [nesting.countP_ancestors]
    exact ⟨by omega, fun isElement => by simp only [isElement, Bool.toNat_true] at room; omega⟩
  · intro config document within plain
    have sound : document.Sound [Forest.root] [] := sound_ofTokens source tokens config options
    obtain ⟨top, found, free⟩ := sound.top
    have tree := sound.grown.tree?_of_slot? found
    obtain ⟨text, t, renders, comes⟩ := (Write.StandsIn.refl sound).renders sound tree
    obtain ⟨n, nesting, -⟩ := shallow { config } Forest.root top.node
      (Option.map_eq_some_iff.2 ⟨top, found, rfl⟩)
    have low := (shallow { config }).low sound.grown plain .refl tree nesting
    rw [comes.errors]
    refine renders.noneDeep (fun tree member => ?_) fun _ _ _ member => by cases member
    exact (low.parts.2.2 tree member).mono (by
      dsimp only
      omega)

/-- Elements in a namespace, as deep as the limit allows and with no usage among them. -/
theorem ofTokens_shallow_full :
    let source := "[Namespace] n \x7b a \x7b b \x7b text \x7b x \x7d \x7d \x7d \x7d"
    let options : ParseOptions := { maxDepth := 3 }
    ∃ stream, TokenStream.ofSource source = .ok stream ∧
      let document := (ofTokens source stream.tokens {} options).document
      let written := WriteResult.ofDocument document
      written.html = "<a><b>x</b></a>" ∧ options.maxDepth ≤ maxElementDepth ∧
      (∀ id node usage, document.forest.Stands id → document.forest.get? id = some node →
        node.kind = .usage usage → usage.type ≠ .element) ∧
      ∀ tag limit span, .nestingTooDeep tag limit span ∉ written.errors := by
  intro source options
  have run : (TokenStream.ofSource source).toOption.map (fun stream =>
        let document := (ofTokens source stream.tokens {} options).document
        ((WriteResult.ofDocument document).html, document.forest.slots.toList.all fun slot =>
          slot.all fun slot => slot.node.usage?.isNone)) =
      some ("<a><b>x</b></a>", true) := by decide +kernel
  obtain ⟨stream, tokens, run⟩ := Option.map_eq_some_iff.1 run
  obtain ⟨html, unused⟩ := Prod.mk.inj run
  have low : options.maxDepth ≤ maxElementDepth := by decide
  have plain (id : NodeId) (node : Node) (usage : Usage)
      (_ : (ofTokens source stream.tokens {} options).document.forest.Stands id)
      (found : (ofTokens source stream.tokens {} options).document.forest.get? id = some node)
      (kind : node.kind = .usage usage) : usage.type ≠ .element := by
    obtain ⟨slot, there, rfl⟩ := Option.map_eq_some_iff.1 found
    have member := Array.mem_of_getElem? (Option.join_eq_some_iff.1 there)
    have free := List.all_eq_true.1 unused _ (Array.mem_toList_iff.2 member)
    simp [Node.usage?, kind] at free
  exact ⟨stream, TokenStream.ofSource_of_toOption tokens, html, low, plain,
    (ofTokens_shallow source stream.tokens {} options).2 {} low plain⟩

end ParseResult

end TemplateMarkup
