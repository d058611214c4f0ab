import TemplateMarkup.Proofs.ParsedElements

/-! Definitions and whole documents as they are read. In the end nothing is held: every subtree
outside the tree belongs to a definition or is brought by an edit. -/
namespace TemplateMarkup

/-- The nodes of a definition that is being read. -/
def Definition.held (definition : Definition) : List NodeId :=
  definition.elements ++ definition.payload

namespace Definition

variable (definition : Definition)

theorem held_addParent (usage : Usage) (explicit : Bool) :
    (usage.payload ++ definition.held).Perm (Parse.addParent definition usage explicit).held := by
  have both : (Parse.addParent definition usage explicit).held =
      definition.held ++ usage.payload := by
    simp [held, payload, Parse.addParent]
  rw [both]
  exact List.perm_append_comm

theorem held_edits (edits : List Edit) :
    (Parse.payloadOf edits ++ definition.held).Perm
      { definition with edits := definition.edits ++ edits }.held := by
  simp only [held, payload, List.flatMap_append]
  rw [List.append_assoc (definition.edits.flatMap Edit.payload)]
  refine (List.perm_append_comm_assoc _ _ _).trans (.append_left _ ?_)
  exact List.perm_append_comm_assoc _ _ _

theorem held_addElement (id : NodeId) :
    ([id] ++ definition.held).Perm (Parse.addElement definition id).held := by
  simp only [held, Parse.addElement]
  rw [← List.append_assoc]
  exact List.perm_append_comm.append_right _

end Definition

namespace Parse

variable {hosts : List Host}

theorem yields_definedProperty (definition : Definition) (token : Token) :
    Yields hosts definition.held (definedProperty definition token) Definition.held := by
  refine .andThen fun name => .andThen fun next => .ite ?_ (.ite (yields_unexpected _) ?_)
  · exact .andThen fun value => yields_pure rfl
  · refine .andThen fun _ => .andThen fun names => .andThen fun closed => ?_
    exact .ite (.andThen fun _ => yields_pure rfl) (yields_pure rfl)

theorem yields_definitionStep {usage : Parse Usage} {payload : Parse Payload}
    {other : Definition → Token → Parse Definition}
    (used : Yields hosts [] usage Usage.payload)
    (inside : Yields hosts [] payload Payload.nodes)
    (others : ∀ definition token,
      Yields hosts definition.held (other definition token) Definition.held)
    (definition : Definition) :
    Yields hosts definition.held (definitionStep usage payload other definition)
      (stepGives Definition.held definition) := by
  have parent (explicit : Bool) : Yields hosts definition.held (do
      return some (addParent definition (← usage) explicit))
      (stepGives Definition.held definition) := by
    refine (used.frame definition.held).bind fun usage => ?_
    exact yields_perm (definition.held_addParent usage explicit)
  refine .andThen fun token => ?_
  split
  case h_1 | h_2 => exact yields_pure rfl
  · exact .andThen fun _ => yields_pure rfl
  · exact .andThen fun _ => parent true
  case h_5 | h_6 | h_7 => exact parent false
  · refine .andThen fun _ => (yields_deleteEdits.frame definition.held).bind fun edits => ?_
    exact yields_perm (definition.held_edits edits)
  · refine .andThen fun _ => ((yields_insertEdit inside).frame definition.held).bind fun edit => ?_
    have added := definition.held_edits [edit]
    rw [payloadOf, List.flatMap_singleton] at added
    exact yields_perm added
  · exact (others definition token).bind fun _ => yields_pure rfl

theorem yields_propertyDefinition {draft : Definition} (empty : draft.held = []) :
    Yields hosts [] (propertyDefinition draft) Definition.held := by
  rw [← empty]
  refine .loop Definition.held (fun definition => ?_) draft
  refine yields_definitionStep (yields_propertyUsage _) yields_insertedProperties
    (fun definition token => ?_) definition
  exact .ite (.andThen fun _ => yields_pure rfl) (yields_definedProperty definition token)

theorem yields_elementDefinition (levels : Nat) {draft : Definition} (empty : draft.held = []) :
    Yields hosts [] (elementDefinition levels draft) Definition.held := by
  have sound := nested_sound levels
  rw [← empty]
  refine .loop Definition.held (fun definition => ?_) draft
  refine yields_definitionStep sound.usage (yields_insertedElements sound)
    (fun definition token => .andThen fun braced => ?_) definition
  have add {x : Parse NodeId} (yields : Yields hosts [] x fun id => [id]) :
      Yields hosts definition.held (do return addElement definition (← x)) Definition.held :=
    (yields.frame definition.held).bind fun id => yields_perm (definition.held_addElement id)
  split
  · exact .andThen fun _ => add (yields_addDetached rfl rfl)
  · exact add yields_originBlock
  · refine .ite ?_ (.ite (add (sound.element hosts none (by simp))) (yields_unexpected _))
    exact Yields.quiet.bindReturns returns_textBlock fun _ text =>
      add (yields_addDetached text.1 (by simp [Node.isLoose, text.2]))

/-- A definition while it is read: it keeps its key, and it is not worked out. -/
abbrev IsDraft (key : DefinitionKey) (definition : Definition) : Prop :=
  definition.key = key ∧ definition.resolution = .pending

section Drafts

variable {key : DefinitionKey}

theorem returns_definitionStep {usage : Parse Usage} {payload : Parse Payload}
    {other : Definition → Token → Parse Definition}
    (others : ∀ definition token, IsDraft key definition →
      Returns (other definition token) (IsDraft key))
    (definition : Definition) (draft : IsDraft key definition) :
    Returns (definitionStep usage payload other definition) fun next =>
      ∀ definition ∈ next, IsDraft key definition := by
  have some {d : Definition} (holds : IsDraft key d) :
      ∀ definition ∈ some d, IsDraft key definition :=
    fun _ member => Option.mem_some.1 member ▸ holds
  refine .andThen fun token => ?_
  split
  case h_1 | h_2 => exact returns_pure (by simp)
  · exact .andThen fun _ => returns_pure (some draft)
  · exact .andThen fun _ => .andThen fun _ => returns_pure (some draft)
  case h_5 | h_6 | h_7 => exact .andThen fun _ => returns_pure (some draft)
  case h_8 | h_9 => exact .andThen fun _ => .andThen fun _ => returns_pure (some draft)
  · exact (others definition token draft).bind fun _ draft => returns_pure (some draft)

theorem returns_definedProperty (definition : Definition) (token : Token)
    (draft : IsDraft key definition) :
    Returns (definedProperty definition token) (IsDraft key) := by
  refine .andThen fun name => .andThen fun next => .ite ?_ (.ite ?_ ?_)
  · exact .andThen fun _ => returns_pure draft
  · exact returns_of_error fun input s => unexpected_apply input s _
  · refine .andThen fun _ => .andThen fun _ => .andThen fun _ => ?_
    exact .ite (.andThen fun _ => returns_pure draft) (returns_pure draft)

theorem returns_propertyDefinition (definition : Definition)
    (draft : IsDraft key definition) :
    Returns (propertyDefinition definition) (IsDraft key) := by
  refine .loop (fun definition draft => ?_) draft
  refine returns_definitionStep (fun definition token draft => ?_) definition draft
  exact .ite (.andThen fun _ => returns_pure draft)
    (returns_definedProperty definition token draft)

theorem returns_elementDefinition (levels : Nat) (definition : Definition)
    (draft : IsDraft key definition) :
    Returns (elementDefinition levels definition) (IsDraft key) := by
  refine .loop (fun definition draft => ?_) draft
  refine returns_definitionStep (fun definition token draft => .andThen fun _ => ?_) definition
    draft
  split
  · exact .andThen fun _ => .andThen fun _ => returns_pure draft
  · exact .andThen fun _ => returns_pure draft
  · refine .ite (.andThen fun _ => .andThen fun _ => returns_pure draft)
      (.ite (.andThen fun _ => returns_pure draft) ?_)
    exact returns_of_error fun input s => unexpected_apply input s _

end Drafts

theorem yields_register {definition : Definition} (pending : definition.resolution = .pending) :
    Yields hosts definition.held (withSymbols (·.register definition)) fun _ => [] :=
  fun _ _ _ sound => ⟨sound.register pending, by simp, .refl⟩

variable {parent : NodeId}

theorem yields_definitionBlock (levels : Nat) (below : Host.Among parent hosts) :
    Yields hosts [] (definitionBlock levels parent) fun _ => [] := by
  refine .andThen fun keyword => .andThen fun type => .andThen fun name => .andThen fun _ =>
    .andThen fun scope => ?_
  dsimp only
  have rest (kind : DefinitionKind) (definition : Definition)
      (pending : definition.resolution = .pending) :
      Yields hosts definition.held (do
        let _ ← expect .rightBrace "'\x7d' to close definition body"
        let _ ← addNode (some parent)
          { kind := .definition kind type, name := name.text, scope := ← currentScope,
            span := keyword.span }
        if !(← withSymbols (·.register definition)) then
          warn (.duplicateDefinition ⟨kind, type, ⟨scope, name.text⟩⟩) name.span)
        fun _ => [] := by
    refine .andThen fun _ => .andThen fun here => ?_
    have child : Yields hosts [] (addNode (some parent)
        { kind := .definition kind type, name := name.text, scope := here,
          span := keyword.span }) (newNode (some parent)) :=
      yields_addNode rfl
        ⟨fun _ member => Option.mem_some.1 member ▸ below, by simp, nofun, nofun⟩
    refine (child.frame definition.held).bind fun _ => ?_
    exact (yields_register pending).bind fun _ => .ite .quiet (yields_pure rfl)
  refine .ite ?_ ?_
  · exact .bindReturns (yields_elementDefinition levels rfl)
      (returns_elementDefinition levels _ ⟨rfl, rfl⟩) fun definition draft =>
        rest _ definition draft.2
  · exact .bindReturns (yields_propertyDefinition rfl)
      (returns_propertyDefinition _ ⟨rfl, rfl⟩) fun definition draft =>
        rest _ definition draft.2

section

variable (below : Host.Among parent hosts)

include below

theorem yields_importStatement : Yields hosts [] (importStatement parent) fun _ => [] := by
  have finish (spec : ImportSpec) (span : Span) : Yields hosts [] (do
      modifySymbols (·.addImport spec)
      let _ ← addNode (some parent) { kind := .importing spec, span }) fun _ => [] :=
    .bind (yields_modifySymbols (fun _ => rfl) fun _ => rfl) fun _ =>
      yields_addChild below rfl (by simp)
  refine .andThen fun keyword => .andThen fun start => .andThen fun _ => .andThen fun named =>
    .ite (yields_unexpectedThen _) ?_
  refine .andThen fun stop => .ite (yields_unexpectedThen _) ?_
  exact .andThen fun target => .andThen fun _ => .andThen fun path => .andThen fun renamed =>
    .ite (.andThen fun _ => .pureThen (.andThen fun _ => finish _ _))
      (.pureThen (.andThen fun _ => finish _ _))

theorem yields_configuration : Yields hosts [] (configuration parent) fun _ => [] := by
  refine .andThen fun keyword => .andThen fun name => .andThen fun _ => .andThen fun start =>
    .andThen fun config => .andThen fun _ => ?_
  cases name with
  | none =>
    exact .bind (yields_modifySymbols (fun _ => rfl) fun _ => rfl) fun _ =>
      yields_addChild below rfl (by simp)
  | some name =>
    refine .bind (yields_withSymbols (fun _ => by rw [SymbolTable.registerConfiguration_eq])
      fun _ => by rw [SymbolTable.registerConfiguration_eq]) fun fresh => ?_
    exact .ite (.andThen fun _ => yields_addChild below rfl (by simp))
      (yields_addChild below rfl (by simp))

/-- What a statement turns on and the node of the statement come together: nothing between them
fails. -/
theorem yields_useHtml5 (span : Span) :
    Yields hosts [] (do
    modifySymbols (·.setHtml5)
    let _ ← eat .semicolon
    let _ ← addNode (some parent) { kind := .activation .html5, span }) fun _ => [] := by
  intro input s held sound
  let s₁ : ParseState :=
    { s with document := { s.document with symbols := s.document.symbols.setHtml5 } }
  obtain ⟨eaten, s₂, run⟩ := eat_apply .semicolon input s₁
  have same : (stateOf (eat .semicolon input s₁)).document = s₁.document :=
    Quiet.document input s₁
  rw [run] at same
  dsimp only [stateOf] at same
  rw [bind_apply, show modifySymbols (·.setHtml5) input s = .ok () s₁ from rfl]
  dsimp only
  rw [bind_apply, run]
  have forest : s₂.document.forest = s.document.forest := by rw [same]
  have symbols : s₂.document.symbols = s.document.symbols.setHtml5 := by rw [same]
  have grows : s₂.document.forest.GrowsBelow hosts (s₂.document.forest.insertChild parent
      { kind := .activation .html5, span }).2 := by
    rw [forest]
    exact Forest.growsBelow_insertChild below (sound.hosted.among below).lt_size
  refine ⟨?_, by simp, forest ▸ grows⟩
  have used : Document.Sound hosts ⟨(s.document.forest.insertChild parent
      { kind := .activation .html5, span }).2, s.document.symbols.setHtml5⟩ held :=
    sound.useHtml5 below rfl rfl
  rw [← forest, ← symbols] at used
  exact used

theorem yields_useStatement : Yields hosts [] (useStatement parent) fun _ => [] := by
  refine .andThen fun keyword => .andThen fun s => .ite (yields_fail _ _) ?_
  refine .andThen fun _ => ?_
  unfold useTarget
  rw [bind_assoc]
  refine .andThen fun found => ?_
  cases found with
  | true => exact yields_useHtml5 below keyword.span
  | false =>
    simp only [Bool.false_eq_true, if_false]
    rw [bind_assoc]
    refine .andThen fun found => ?_
    cases found with
    | true =>
      simp only [if_true]
      rw [bind_assoc]
      refine .andThen fun name => ?_
      rw [bind_assoc]
      have asked : Yields hosts [] (modify fun s =>
          { s with activations := (name.text, name.span) :: s.activations }) fun _ => [] :=
        fun _ _ _ sound => ⟨sound, by simp, .refl⟩
      refine asked.bind fun _ => ?_
      exact .pureThen (.andThen fun _ => yields_addChild below rfl (by simp))
    | false => exact yields_unexpectedThen _

end

section Namespaces

theorem yields_closing {body : Parse Unit} (inside : Yields hosts [] body fun _ => []) :
    Yields hosts [] (closing body) fun _ => [] := by
  intro input s held sound
  have after := inside input s held sound
  unfold closing
  cases run : body input s with
  | ok _ s' =>
    rw [run] at after
    exact ⟨after.1.withSymbols rfl rfl, by simp, after.2.2⟩
  | error e s' =>
    rw [run] at after
    exact after.withSymbols rfl rfl

/-- What stands in a namespace is read with the node of the namespace as its parent. -/
theorem yields_namespaceBlock {body : NodeId → Parse Unit}
    (inside : ∀ hosts id, ⟨id, true⟩ ∈ hosts → Yields hosts [] (body id) fun _ => [])
    (below : ⟨parent, true⟩ ∈ hosts) :
    Yields hosts [] (namespaceBlock body parent) fun _ => [] := by
  have rest (name scope : String) (span : Span) : Yields hosts [] (do
      let id ← addNode (some parent) { kind := .scope, name, scope, span }
      if ← eat .leftBrace then closing (deeper (body id))
      else
        let _ ← eat .semicolon) fun _ => [] := by
    have enters : Node.Enters hosts (some parent) { kind := .scope, name, scope, span } :=
      ⟨fun _ member => Option.mem_some.1 member ▸ ⟨true, below⟩, by simp, nofun,
        fun _ _ member => Option.mem_some.1 member ▸ below⟩
    refine .addNode rfl enters rfl fun id => ?_
    refine .andThen fun braced => .ite (yields_closing (inside _ id (.head _)).deeper) ?_
    exact .andThen fun _ => yields_pure rfl
  refine .andThen fun keyword => .andThen fun name => ?_
  refine .bind (yields_withSymbols (fun _ => rfl) fun _ => rfl)
    fun entered => ?_
  cases entered with
  | conflict existing => exact .andThen fun _ => .andThen fun scope => rest _ _ _
  | _ => exact .andThen fun scope => rest _ _ _

theorem yields_namespaceBody {item : NodeId → Parse Unit} {id : NodeId}
    (each : Yields hosts [] (item id) fun _ => []) :
    Yields hosts [] (namespaceBody item id) fun _ => [] :=
  each.bodyStep.bind fun _ => .andThen fun _ => yields_pure rfl

theorem yields_contentItem (levels : Nat) {body : NodeId → Parse Unit}
    (inside : ∀ hosts id, ⟨id, true⟩ ∈ hosts → Yields hosts [] (body id) fun _ => [])
    (below : ⟨parent, true⟩ ∈ hosts) :
    Yields hosts [] (contentItem levels body parent) fun _ => [] := by
  have sound := nested_sound levels
  have here : Host.Among parent hosts := ⟨true, below⟩
  have inside' : ∀ p ∈ some parent, Host.Among p hosts := fun p member =>
    Option.mem_some.1 member ▸ here
  refine .andThen fun token => .andThen fun braced => ?_
  split
  case h_1 | h_2 => exact yields_definitionBlock levels here
  · exact yields_originChild here
  · exact yields_importStatement here
  · exact yields_namespaceBlock inside below
  · exact yields_configuration here
  · exact .quiet
  · exact (yields_usageNode sound.usage inside').bind fun _ => yields_pure rfl
  · refine .ite (yields_styleChild here) (.ite (yields_scriptChild here) (.ite ?_ (.ite ?_
      (yields_unexpected _))))
    · exact yields_textChild here
    · exact (sound.element hosts (some parent) inside').bind fun _ => yields_pure rfl

/-- An item is a statement on its own, or content. -/
theorem yields_anyItem {content : Parse Unit} (inside : Yields hosts [] content fun _ => [])
    (below : ⟨parent, true⟩ ∈ hosts) : Yields hosts [] (do
      match ← peekKind with
      | .keyword .useClause => useStatement parent
      | .comment .generator => commentChild parent
      | .semicolon =>
        let _ ← advance
      | _ =>
        modify fun s => { s with seenContent := true }
        content) fun _ => [] := by
  refine .andThen fun kind => ?_
  split
  · exact yields_useStatement ⟨true, below⟩
  · exact yields_commentChild ⟨true, below⟩
  · exact .andThen fun _ => yields_pure rfl
  · exact .bind (fun _ _ _ sound => ⟨sound, by simp, .refl⟩) fun _ => inside

theorem yields_item (levels : Nat) (below : ⟨parent, true⟩ ∈ hosts) :
    Yields hosts [] (item levels parent) fun _ => [] := by
  induction levels generalizing hosts parent with
  | zero =>
    unfold item
    exact yields_anyItem (yields_contentItem 0 (fun _ _ _ => yields_outOfLevels) below) below
  | succ levels ih =>
    unfold item
    exact yields_anyItem
      (yields_contentItem _ (fun _ _ below => yields_namespaceBody (ih below)) below) below

end Namespaces

section Documents

theorem sound_item (input : ParseInput) {s : ParseState}
    (sound : s.document.Sound [Forest.root] []) :
    (stateOf (item input.maxDepth Forest.root input s)).document.Sound [Forest.root] [] := by
  have each : Yields [Forest.root] [] (item input.maxDepth Forest.root) fun _ => [] :=
    yields_item input.maxDepth (.head _)
  have after := each input s [] sound
  revert after
  cases item input.maxDepth Forest.root input s with
  | ok _ s' =>
    intro after
    exact after.1
  | error e s' =>
    exact id

theorem sound_items {errors : List ParseError} {input : ParseInput} {s : ParseState}
    (sound : s.document.Sound [Forest.root] []) :
    (items errors input s).2.document.Sound [Forest.root] [] :=
  items_keep (Q := (·.Sound [Forest.root] [])) (fun _ => sound_item input) sound

theorem activateAll_eq (requests : List (String × Span)) (table : SymbolTable) :
    (activateAll requests table).1 = { table with
      config := (activateAll requests table).1.config } := by
  refine List.foldlRecOn requests _ (motive := fun (after : SymbolTable × List ParseWarning) =>
    after.1 = { table with config := after.1.config }) rfl fun after same request _ => ?_
  obtain ⟨symbols, warnings⟩ := after
  dsimp only at same
  rw [same]
  dsimp only [SymbolTable.activate]
  cases ({ table with config := symbols.config } : SymbolTable).configuration? request.1 <;> rfl

end Documents

end Parse

/-- What is parsed is sound, with and without errors. -/
theorem ParseResult.sound_ofTokens (source : String) (tokens : List Token) (config : Config)
    (options : ParseOptions) :
    (ParseResult.ofTokens source tokens { config } options).document.Sound [Forest.root] [] := by
  have start : Document.Sound [Forest.root] { symbols := { config } } [] :=
    Document.sound_empty rfl rfl
  let s := (Parse.items [] (ParseInput.ofTokens source tokens options)
    { document := { symbols := { config } } }).2
  have read : s.document.Sound [Forest.root] [] := Parse.sound_items start
  let symbols := (Parse.activateAll s.activations.reverse s.document.symbols.exitAll).1
  have same : symbols = { s.document.symbols.exitAll with config := symbols.config } :=
    Parse.activateAll_eq s.activations.reverse s.document.symbols.exitAll
  have definitions : symbols.definitions = s.document.symbols.definitions := by rw [same]; rfl
  have html5 : symbols.html5 = s.document.symbols.html5 := by rw [same]; rfl
  exact read.withSymbols definitions html5

end TemplateMarkup
