import TemplateMarkup.Proofs.ParsedUsages

/-! Elements as they are read: an element below a parent holds nothing, and one outside the tree
holds itself. -/
namespace TemplateMarkup.Parse

variable {α : Type} {hosts : List Host} {taken : List NodeId} {parent element : NodeId}

theorem yields_withSymbols {f : SymbolTable → α × SymbolTable}
    (same : ∀ table, (f table).2.definitions = table.definitions)
    (html5 : ∀ table, (f table).2.html5 = table.html5) :
    Yields hosts taken (withSymbols f) fun _ => taken :=
  fun _ _ _ sound => ⟨sound.withSymbols (same _) (html5 _), fun _ member => .inl member, .refl⟩

theorem yields_modifySymbols {f : SymbolTable → SymbolTable}
    (same : ∀ table, (f table).definitions = table.definitions)
    (html5 : ∀ table, (f table).html5 = table.html5) :
    Yields hosts taken (modifySymbols f) fun _ => taken :=
  fun _ _ _ sound => ⟨sound.withSymbols (same _) (html5 _), fun _ member => .inl member, .refl⟩

theorem yields_modifyNode {id : NodeId} {change : Node → Node}
    (kind : ∀ node, (change node).kind = node.kind) :
    Yields hosts taken (modifyForest (·.modify id change)) fun _ => taken :=
  fun _ _ _ sound => ⟨sound.modify kind, fun _ member => .inl member,
    Nat.le_of_eq (Forest.size_modify _ _).symm, fun _ _ _ => Forest.children_modify _ _⟩

/-- A node below a parent. -/
theorem yields_addChild {node : Node} (below : Host.Among parent hosts)
    (payload : node.payload = taken)
    (plain : node.kind ≠ .activation .html5 ∧ node.kind ≠ .scope) :
    Yields hosts taken (do let _ ← addNode (some parent) node) fun _ => [] :=
  .bind (yields_addNode payload ⟨fun _ member => Option.mem_some.1 member ▸ below, plain.1, nofun,
    fun space => absurd (Node.isSpace_iff.1 space) plain.2⟩) fun _ => yields_pure rfl

/-- A node outside the tree. -/
theorem yields_addDetached {node : Node} (payload : node.payload = taken)
    (loose : node.isLoose) : Yields hosts taken (addNode none node) fun id => [id] := by
  refine yields_addNode payload ⟨nofun, fun activates => ?_, fun _ => loose, fun _ => nofun⟩
  simp [Node.isLoose, activates] at loose

theorem yields_originBlock : Yields hosts [] originBlock fun id => [id] := by
  refine .andThen fun keyword => .andThen fun token => ?_
  split
  · refine .andThen fun _ => .andThen fun named => ?_
    refine .ite (.andThen fun text => .pureThen ?_) (.pureThen ?_)
    · refine .andThen fun content => .andThen fun _ => .andThen fun scope => ?_
      dsimp only
      split
      · refine .bind (yields_withSymbols (fun table => by rw [SymbolTable.registerOrigin_eq])
          fun table => by rw [SymbolTable.registerOrigin_eq])
          fun new => .ite (.andThen fun _ => ?_) ?_
        · exact yields_addDetached rfl rfl
        · exact yields_addDetached rfl rfl
      · exact yields_addDetached rfl rfl
    · exact .andThen fun content => .andThen fun _ => .andThen fun scope =>
        yields_addDetached rfl rfl
  · exact yields_unexpected _

theorem yields_originChild (below : Host.Among parent hosts) :
    Yields hosts [] (originChild parent) fun _ => [] := by
  intro input s held sound
  have block := yields_originBlock input s held sound
  unfold originChild
  rw [bind_apply]
  revert block
  cases originBlock input s with
  | error e s' =>
    exact id
  | ok id s' =>
    rintro ⟨sound', new, grows⟩
    have behind : Behind hosts id := by simpa using new id (.head _)
    have root : s'.document.forest.IsRoot id :=
      sound'.toShaped.roots.isRoot id (by simp)
    obtain ⟨isSpace, member⟩ := below
    have ne : parent ≠ id := by
      rintro rfl
      exact Nat.lt_irrefl _ (behind _ member)
    exact ⟨sound'.attach ⟨isSpace, member⟩ (behind _ member) _, by simp,
      grows.trans (Forest.growsBelow_insertAt root ne ⟨isSpace, member⟩ _)⟩

theorem yields_constraint (below : Host.Among element hosts) :
    Yields hosts [] (constraint element) fun _ => [] := by
  refine .andThen fun keyword => .andThen fun draft => ?_
  have child : Yields hosts [] (do
      let _ ← addNode (some element) { kind := .constraint draft.targets, span := keyword.span })
      fun _ => [] := yields_addChild below rfl (by simp)
  exact .andThen fun closed => .ite (.andThen fun _ => child) child

/-- A text block brings nothing, and may stand outside the tree. -/
theorem returns_textBlock :
    Returns textBlock fun node => node.payload = [] ∧ node.kind = .text := by
  refine .andThen fun keyword => .andThen fun start => .andThen fun close =>
    .andThen fun first => ?_
  dsimp only
  split
  · exact .andThen fun _ => .andThen fun _ => .andThen fun _ => returns_pure ⟨rfl, rfl⟩
  · exact .andThen fun _ => .andThen fun _ => .andThen fun _ => .andThen fun _ =>
      returns_pure ⟨rfl, rfl⟩

theorem yields_textChild (below : Host.Among parent hosts) : Yields hosts [] (do
    let node ← textBlock
    let _ ← addNode (some parent) node) fun _ => [] :=
  Yields.quiet.bindReturns returns_textBlock fun _ text =>
    yields_addChild below text.1 (by simp [text.2])

theorem yields_commentChild (below : Host.Among parent hosts) :
    Yields hosts [] (commentChild parent) fun _ => [] :=
  .andThen fun _ => yields_addChild below rfl (by simp [commentNode])

theorem yields_styleChild (below : Host.Among parent hosts) :
    Yields hosts [] (styleChild parent) fun _ => [] := by
  refine .andThen fun first => yields_styleBlock.bind fun block => .andThen fun scope => ?_
  exact yields_addChild below rfl (by simp)

theorem yields_scriptChild (below : Host.Among parent hosts) :
    Yields hosts [] (scriptChild parent) fun _ => [] :=
  .andThen fun _ => .andThen fun _ => .andThen fun _ => yields_addChild below rfl (by simp)

theorem yields_attributeOf : Yields hosts [] (attributeOf element) fun _ => [] :=
  .andThen fun _ => .andThen fun _ => .andThen fun _ => .andThen fun _ =>
    yields_modifyNode fun _ => rfl

theorem yields_textAttribute (below : Host.Among element hosts) :
    Yields hosts [] (textAttribute element) fun _ => [] :=
  .andThen fun _ => .andThen fun _ => .andThen fun _ => .andThen fun _ => .andThen fun _ =>
    yields_addChild below rfl (by simp)

/-- Productions for what may nest that hold what they should. -/
structure Nested.Sound (nested : Nested) : Prop where
  element : ∀ hosts parent, (∀ p ∈ parent, Host.Among p hosts) →
    Yields hosts [] (nested.element parent) (newNode parent)
  usageBody : ∀ hosts usage, Yields hosts usage.payload (nested.usageBody usage) Usage.payload

variable {nested : Nested}

theorem Nested.Sound.usage (sound : nested.Sound) : Yields hosts [] nested.usage Usage.payload :=
  yields_usageWith (sound.usageBody hosts)

theorem Node.payload_usage (usage : Usage) (scope : String) (span : Span) :
    Node.payload { kind := .usage usage, scope, span } = usage.payload :=
  List.flatMap_singleton _ _

theorem yields_usageNode {usage : Parse Usage} (inside : Yields hosts [] usage Usage.payload)
    {parent : Option NodeId} (below : ∀ p ∈ parent, Host.Among p hosts) :
    Yields hosts [] (usageNode usage parent) (newNode parent) := by
  refine .andThen fun first => inside.bind fun usage => .andThen fun scope => ?_
  exact yields_addNode (Node.payload_usage usage scope first.span)
    ⟨below, by simp, fun _ => rfl, nofun⟩

/-- Appends the node that a parse gives to those that were read. -/
theorem Yields.addNodeTo {x : Parse NodeId} (yields : Yields hosts [] x fun id => [id])
    (nodes : List NodeId) :
    Yields hosts nodes (do return some (nodes ++ [← x])) (stepGives id nodes) := by
  refine (yields.frame nodes).bind fun id => yields_perm ?_
  exact List.perm_append_comm

theorem yields_insertedElements (sound : nested.Sound) :
    Yields hosts [] (insertedElements nested) Payload.nodes := by
  refine .bind (.loop id (fun nodes => .andThen fun token => ?_) []) fun _ => yields_pure rfl
  have usage : Yields hosts nodes (do return some (nodes ++ [← usageNode nested.usage none]))
      (stepGives id nodes) := (yields_usageNode sound.usage (by simp)).addNodeTo nodes
  split
  case h_1 | h_2 => exact yields_pure rfl
  · exact .andThen fun _ => yields_pure rfl
  · exact .andThen fun _ => .addNodeTo (yields_addDetached rfl rfl) nodes
  case h_5 | h_6 | h_7 => exact usage
  · exact yields_originBlock.addNodeTo nodes
  · refine .andThen fun braced => .ite ?_ (.ite ?_ (yields_unexpected _))
    · exact Yields.quiet.bindReturns returns_textBlock fun _ text =>
        .addNodeTo (yields_addDetached text.1 (by simp [Node.isLoose, text.2])) nodes
    · exact (sound.element hosts none (by simp)).addNodeTo nodes

theorem yields_elementItem (sound : nested.Sound) (below : Host.Among element hosts) :
    Yields hosts [] (elementItem nested element) fun _ => [] := by
  have inside : ∀ p ∈ some element, Host.Among p hosts := fun p member =>
    Option.mem_some.1 member ▸ below
  have usage : Yields hosts [] (do let _ ← usageNode nested.usage (some element)) fun _ => [] :=
    (yields_usageNode sound.usage inside).bind fun _ => yields_pure rfl
  refine .andThen fun token => .andThen fun next => ?_
  dsimp only
  split
  · exact .andThen fun _ => yields_pure rfl
  · exact yields_commentChild below
  · exact yields_constraint below
  · exact yields_originChild below
  case h_5 | h_6 | h_7 => exact usage
  · refine .ite ?_ (.ite (yields_textAttribute below) (.ite (yields_styleChild below)
      (.ite (yields_scriptChild below) (.ite yields_attributeOf (.ite ?_ (yields_unexpected _))))))
    · exact yields_textChild below
    · exact (sound.element hosts (some element) inside).bind fun _ => yields_pure rfl

theorem yields_elementWith (sound : nested.Sound) {parent : Option NodeId}
    (below : ∀ p ∈ parent, Host.Among p hosts) :
    Yields hosts [] (elementWith nested parent) (newNode parent) := by
  have rest (name : Token) : Yields hosts [] (do
      let id ← addNode parent
        { kind := .element, name := name.text, scope := ← currentScope, span := name.span }
      let _ ← expect .leftBrace "'\x7b' after element name"
      repeatStep (bodyStep (elementItem nested id))
      let _ ← expect .rightBrace "'\x7d' to close element"
      return id) (newNode parent) := by
    refine .andThen fun scope => .addNode rfl ⟨below, by simp, fun _ => rfl, nofun⟩ rfl
      fun id => .andThen fun _ => ?_
    have items : Yields (⟨id, false⟩ :: hosts) [] (repeatStep (bodyStep (elementItem nested id)))
        fun _ => [] := (yields_elementItem sound ⟨false, .head _⟩).bodyStep
    exact (items.frame (newNode parent id)).bind fun _ => .andThen fun _ => yields_pure rfl
  refine .andThen fun name => .andThen fun input => .ite (.andThen fun _ => rest name) (rest name)

theorem yields_usageBodyWith (sound : nested.Sound) (usage : Usage) :
    Yields hosts usage.payload (usageBodyWith nested usage) Usage.payload := by
  refine .loop Usage.payload (fun usage => ?_) usage
  exact yields_usageStep (yields_insertedElements sound) (fun _ => yields_unexpected _) usage

theorem nested_sound (levels : Nat) : (Parse.nested levels).Sound := by
  induction levels with
  | zero => exact ⟨fun _ _ _ => yields_outOfLevels.deeper, fun _ _ => yields_outOfLevels.deeper⟩
  | succ levels ih =>
    exact ⟨fun _ _ below => (yields_elementWith ih below).deeper,
      fun _ usage => (yields_usageBodyWith ih usage).deeper⟩

end TemplateMarkup.Parse
