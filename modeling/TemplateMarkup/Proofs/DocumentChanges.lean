import TemplateMarkup.Proofs.ForestLinks
import TemplateMarkup.Proofs.ParsedElements
import TemplateMarkup.Proofs.QuietParses

/-! What a parse does to the document. Whatever holds of the steps that it is made of, from one
document to the next, holds of the whole, also where it fails. -/
namespace TemplateMarkup

/-- A node that is a comment only if a token makes it. -/
def Node.CommentsOn (input : ParseInput) (node : Node) : Prop :=
  node.kind = .comment → ∃ index, (input.token index).kind = .comment .generator ∧
    node.content = Parse.commentText (input.token index).text ∧
    node.span = (input.token index).span

/-- No origin block is new, a new comment is made of a token, and of what there was none has
changed its kind, its place or its text. -/
def Forest.KeepsMarks (input : ParseInput) (f g : Forest) : Prop :=
  ∀ id node, g.get? id = some node →
    ((∀ origin, node.kind ≠ .origin origin) ∧ node.CommentsOn input) ∨
      ∃ old, f.get? id = some old ∧ old.kind = node.kind ∧ old.span = node.span ∧
        old.content = node.content

theorem Forest.KeepsMarks.refl {input : ParseInput} {f : Forest} : f.KeepsMarks input f :=
  fun _ node there => .inr ⟨node, there, rfl, rfl, rfl⟩

namespace Parse

/-- A relation between documents that the steps of an element and of a statement keep to: nodes
are added and linked, and settings, imports and named origin blocks are noted. -/
structure Change where
  holds : ParseInput → Document → Document → Prop
  refl : ∀ input document, holds input document document
  trans : ∀ input first second third, holds input first second → holds input second third →
    holds input first third
  forest : ∀ input document forest, document.forest.KeepsMarks input forest →
    holds input document { document with forest }
  symbols : ∀ input document symbols, symbols.definitions = document.symbols.definitions →
    symbols.origins = document.symbols.origins →
    symbols.openScopes = document.symbols.openScopes →
    holds input document { document with symbols }
  origin : ∀ input s, (input.token s.cursor).kind = .block .origin →
    holds input s.document (stateOf (originBlock input s)).document

/-- A parse that changes the document so, also where it fails. -/
class Makes {α : Type} (C : Change) (x : Parse α) : Prop where
  change : ∀ input s, C.holds input s.document (stateOf (x input s)).document

variable {α β : Type} (C : Change)

instance (priority := low) makes_of_quiet (x : Parse α) [quiet : Quiet x] : Makes C x where
  change input s := by
    rw [quiet.document input s]
    exact C.refl input s.document

instance makes_bind (x : Parse α) (f : α → Parse β) [first : Makes C x]
    [rest : ∀ a, Makes C (f a)] : Makes C (x >>= f) where
  change input s := by
    have start := first.change input s
    rw [bind_apply]
    revert start
    cases x input s with
    | error e s' =>
      exact id
    | ok a s' =>
      intro start
      exact C.trans _ _ _ _ start ((rest a).change input s')

instance makes_map (f : α → β) (x : Parse α) [Makes C x] : Makes C (f <$> x) :=
  makes_bind C x fun a => pure (f a)

instance makes_ite (c : Prop) [Decidable c] (x y : Parse α) [hx : Makes C x] [hy : Makes C y] :
    Makes C (if c then x else y) := by
  split
  · exact hx
  · exact hy

instance makes_loop (step : α → Parse (Option α)) [each : ∀ a, Makes C (step a)] (a : α) :
    Makes C (loop step a) where
  change input s := by
    fun_induction loop step a input s
    case case1 acc s _ s' run | case2 acc s s' run | case4 acc s _ s' run _ =>
      have after := (each acc).change input s
      rw [run] at after
      exact after
    case case3 acc s acc' s' run more ih =>
      have first : C.holds input s.document s'.document := by
        simpa [run, stateOf] using (each acc).change input s
      exact C.trans _ _ _ _ first ih

instance (step : Parse Bool) [Makes C step] : Makes C (repeatStep step) := by
  unfold repeatStep repeated
  infer_instance

instance (item : Parse Unit) [Makes C item] : Makes C (bodyStep item) := by
  unfold bodyStep
  infer_instance

instance (block : Parse α) [inside : Makes C block] : Makes C (deeper block) where
  change input s := by
    have after := inside.change input { s with depth := s.depth + 1 }
    rcases deeper_cases input s block with ⟨_, run⟩ | ⟨_, ⟨_, _, ran, run⟩ | ⟨_, _, ran, run⟩⟩
    · rw [run]
      exact C.refl input s.document
    · rw [ran] at after
      rwa [run]
    · rw [ran] at after
      rwa [run]

variable {C}

/-- A parse that goes on by a case distinction. -/
theorem Makes.andThen {x : Parse α} {f : α → Parse β} [Makes C x]
    (rest : ∀ a, Makes C (f a)) : Makes C (x >>= f) := inferInstance

theorem Makes.bind {x : Parse α} {f : α → Parse β} (_ : Makes C x)
    (rest : ∀ a, Makes C (f a)) : Makes C (x >>= f) := inferInstance

/-- A quiet parse, with what is known of its result. -/
theorem Makes.bindReturns {x : Parse α} {f : α → Parse β} {result : α → Prop} [quiet : Quiet x]
    (holds : Returns x result) (rest : ∀ a, result a → Makes C (f a)) : Makes C (x >>= f) where
  change input s := by
    have same := quiet.document input s
    rw [bind_apply]
    cases run : x input s with
    | error e s' =>
      rw [run] at same
      rw [show (stateOf (.error e s' : EStateM.Result ParseError ParseState β)).document = _ from same]
      exact C.refl input s.document
    | ok a s' =>
      rw [run] at same
      have later := (rest a (holds input s a s' run)).change input s'
      rwa [show s'.document = s.document from same] at later

theorem Makes.loop {step : α → Parse (Option α)} (each : ∀ a, Makes C (step a)) {a : α} :
    Makes C (loop step a) := inferInstance

theorem Makes.deeper {block : Parse α} (_ : Makes C block) : Makes C (deeper block) :=
  inferInstance

theorem Makes.ite {c : Prop} [Decidable c] {x y : Parse α} (left : Makes C x)
    (right : Makes C y) : Makes C (if c then x else y) := inferInstance

theorem makes_unexpected (what : String) : Makes C (unexpected what : Parse α) := inferInstance

/-- A parse that changes the document so where it stands before a token. -/
class MakesAt (C : Change) (token : Token) (x : Parse α) : Prop where
  change : ∀ input s, input.token s.cursor = token →
    C.holds input s.document (stateOf (x input s)).document

instance (priority := low) (token : Token) (x : Parse α) [always : Makes C x] :
    MakesAt C token x := ⟨fun input s _ => always.change input s⟩

instance (token : Token) (x : Parse α) (f : α → Parse β) [first : MakesAt C token x]
    [rest : ∀ a, Makes C (f a)] : MakesAt C token (x >>= f) where
  change input s here := by
    have start := first.change input s here
    rw [bind_apply]
    revert start
    cases x input s with
    | error e s' =>
      exact id
    | ok a s' =>
      intro start
      exact C.trans _ _ _ _ start ((rest a).change input s')

variable {token : Token}

theorem Makes.at {x : Parse α} (always : Makes C x) : MakesAt C token x :=
  inferInstance

theorem Makes.peeked {f : Token → Parse β} (rest : ∀ token, MakesAt C token (f token)) :
    Makes C (peek >>= f) :=
  ⟨fun input s => (rest (input.token s.cursor)).change input s rfl⟩

theorem Makes.peekedKind {f : TokenKind → Parse β} (rest : ∀ token, MakesAt C token (f token.kind)) :
    Makes C (peekKind >>= f) :=
  ⟨fun input s => (rest (input.token s.cursor)).change input s rfl⟩

theorem MakesAt.peekedAhead {f : Token → Parse β} (ahead : Nat)
    (rest : ∀ next, MakesAt C token (f next)) : MakesAt C token (peekAt ahead >>= f) :=
  ⟨fun input s here => (rest (input.token (s.cursor + ahead))).change input s here⟩

theorem MakesAt.lookedAhead {f : Bool → Parse β} (kind : TokenKind)
    (rest : ∀ next, MakesAt C token (f next)) : MakesAt C token (nextIs kind >>= f) :=
  .mk fun input s here => (rest ((input.token (s.cursor + 1)).kind == kind)).change input s here

theorem makesAt_originBlock (kind : token.kind = .block .origin) : MakesAt C token originBlock :=
  ⟨fun input s here => C.origin input s (here ▸ kind)⟩

/-- A kind of nodes that are neither origin blocks nor comments. -/
class IsOwn (kind : NodeKind) : Prop where
  other : (∀ origin, kind ≠ .origin origin) ∧ kind ≠ .comment

instance : IsOwn .element := ⟨by simp⟩
instance : IsOwn .text := ⟨by simp⟩
instance (block : StyleBlock) : IsOwn (.style block) := ⟨by simp⟩
instance (block : ScriptBlock) : IsOwn (.script block) := ⟨by simp⟩
instance (kind : DefinitionKind) (type : DefinitionType) : IsOwn (.definition kind type) :=
  ⟨by simp⟩
instance (usage : Usage) : IsOwn (.usage usage) := ⟨by simp⟩
instance (spec : ImportSpec) : IsOwn (.importing spec) := ⟨by simp⟩
instance : IsOwn .scope := ⟨by simp⟩
instance : IsOwn .configuration := ⟨by simp⟩
instance (target : UseTarget) : IsOwn (.activation target) := ⟨by simp⟩
instance (targets : List ConstraintTarget) : IsOwn (.constraint targets) := ⟨by simp⟩

section Nodes

variable {input : ParseInput} {f g : Forest} {node : Node}

theorem keepsMarks_insertDetached (own : ∀ origin, node.kind ≠ .origin origin)
    (comments : node.CommentsOn input) : f.KeepsMarks input (f.insertDetached node).2 := by
  intro id found there
  rw [Forest.get?_insertDetached] at there
  split at there
  · cases there
    exact .inl ⟨own, comments⟩
  · exact .inr ⟨found, there, rfl, rfl, rfl⟩

theorem keepsMarks_append (keeps : f.KeepsMarks input g) (parent child : NodeId) :
    f.KeepsMarks input (g.append parent child) := by
  intro id node there
  rw [Forest.append, Forest.get?_insertAt] at there
  exact keeps id node there

theorem change_addNode (parent : Option NodeId) (s : ParseState)
    (own : ∀ origin, node.kind ≠ .origin origin) (comments : node.CommentsOn input) :
    C.holds input s.document (stateOf (addNode parent node input s)).document := by
  have added := keepsMarks_insertDetached (f := s.document.forest) own comments
  cases parent with
  | none => exact C.forest input s.document _ added
  | some parent => exact C.forest input s.document _ (keepsMarks_append added parent _)

theorem makes_addNode (parent : Option NodeId) (own : ∀ origin, node.kind ≠ .origin origin)
    (other : node.kind ≠ .comment) : Makes C (addNode parent node) :=
  ⟨fun _ s => change_addNode parent s own fun kind => absurd kind other⟩

instance (parent : Option NodeId) (kind : NodeKind) [own : IsOwn kind] (name content : String)
    (attributes properties : OrderedMap String String) (scope : String) (span : Span) :
    Makes C (addNode parent ⟨kind, name, content, attributes, properties, scope, span⟩) :=
  makes_addNode parent own.other.1 own.other.2

/-- A comment that is taken becomes a node. -/
theorem makesAt_commentNode {token : Token} (kind : token.kind = .comment .generator)
    (parent : Option NodeId) {f : NodeId → Parse β} (rest : ∀ id, Makes C (f id)) :
    MakesAt C token (advance >>= fun _ => addNode parent (commentNode token) >>= f) := by
  refine ⟨fun input s here => ?_⟩
  have comments : (commentNode token).CommentsOn input :=
    fun _ => ⟨s.cursor, by rw [here]; exact kind, by rw [here]; rfl, by rw [here]; rfl⟩
  have added := change_addNode (C := C) parent (advanced input s) (by simp [commentNode]) comments
  rw [document_advanced] at added
  rw [advance_bind]
  rw [bind_apply]
  revert added
  cases addNode parent (commentNode token) input (advanced input s) with
  | error e s' =>
    exact id
  | ok id s' =>
    intro added
    exact C.trans _ _ _ _ added ((rest id).change input s')

theorem makesAt_commentChild {token : Token} (kind : token.kind = .comment .generator)
    (parent : NodeId) : MakesAt C token (commentChild parent) := by
  have comment := makesAt_commentNode (C := C) kind (some parent)
    fun _ => makes_of_quiet C (pure ())
  refine ⟨fun input s here => ?_⟩
  have change := comment.change input s here
  rw [bind_apply, advance_eq] at change
  unfold commentChild
  rw [bind_apply, advance_eq, here]
  exact change

end Nodes

/-- A text block becomes a node. -/
instance (parent : Option NodeId) (f : NodeId → Parse β) [∀ id, Makes C (f id)] :
    Makes C (textBlock >>= fun node => addNode parent node >>= f) :=
  .bindReturns returns_textBlock fun node text =>
    .bind (makes_addNode parent (by simp [text.2]) (by simp [text.2])) fun _ => inferInstance

theorem makes_withSymbols {f : SymbolTable → α × SymbolTable}
    (definitions : ∀ table, (f table).2.definitions = table.definitions)
    (origins : ∀ table, (f table).2.origins = table.origins)
    (scopes : ∀ table, (f table).2.openScopes = table.openScopes) : Makes C (withSymbols f) where
  change input s := C.symbols input s.document _ (definitions _) (origins _) (scopes _)

theorem makes_modifySymbols {f : SymbolTable → SymbolTable}
    (definitions : ∀ table, (f table).definitions = table.definitions)
    (origins : ∀ table, (f table).origins = table.origins)
    (scopes : ∀ table, (f table).openScopes = table.openScopes) : Makes C (modifySymbols f) where
  change input s := C.symbols input s.document _ (definitions _) (origins _) (scopes _)

-- The size of an instance grows with the length of a production.
set_option synthInstance.maxSize 100000

section Usages

instance (draft : DeleteDraft) : Makes C (deleteItem draft) := by
  refine .andThen fun token => ?_
  dsimp only
  split <;> infer_instance

instance : Makes C deleteEdits := by
  refine .andThen fun _ => .bind (.loop fun draft => ?_) fun draft => ?_
  · exact .ite inferInstance inferInstance
  · infer_instance

instance (payload : Parse Payload) [Makes C payload] : Makes C (insertEdit payload) := by
  unfold insertEdit
  infer_instance

instance : Makes C insertedProperties := by
  refine .bind (.loop fun properties => .andThen fun kind => ?_) fun _ => makes_of_quiet C (pure _)
  split <;> infer_instance

theorem makes_usageStep {payload : Parse Payload} {other : Usage → Parse Usage}
    [Makes C payload] (others : ∀ usage, Makes C (other usage)) (usage : Usage) :
    Makes C (usageStep payload other usage) := by
  refine .andThen fun kind => ?_
  split <;> infer_instance

theorem makes_usageWith {type : DefinitionType} {body : Usage → Parse Usage}
    (inside : ∀ usage, Makes C (body usage)) : Makes C (usageWith type body) := by
  unfold usageWith
  infer_instance

instance (type : DefinitionType) : Makes C (propertyUsage type) := by
  refine makes_usageWith fun _ => .deeper (.loop fun usage => ?_)
  exact makes_usageStep (fun _ => .andThen fun _ => inferInstance) usage

theorem makes_styleStep {rule : Option (Parse StyleItem)}
    (inside : ∀ r ∈ rule, Makes C r) (items : List StyleItem) :
    Makes C (styleStep rule items) := by
  refine .andThen fun token => ?_
  split
  iterate 8 infer_instance
  refine .andThen fun ahead => .ite (.andThen fun _ => inferInstance) ?_
  cases ahead with
  | false => exact makes_unexpected _
  | true =>
    cases rule with
    | none => exact makes_unexpected _
    | some rule => exact .bind (inside rule rfl) fun _ => inferInstance

instance : Makes C styleRule :=
  .andThen fun _ => .andThen fun _ => .bind (.loop (makes_styleStep (by simp)))
    fun _ => inferInstance

instance : Makes C styleBlock := by
  refine .andThen fun _ => .andThen fun _ => .bind (.loop (makes_styleStep ?_))
    fun _ => inferInstance
  rintro r ⟨⟩
  infer_instance

end Usages

section Elements

theorem makesAt_originChild {token : Token} (kind : token.kind = .block .origin)
    (parent : NodeId) : MakesAt C token (originChild parent) := by
  have block := makesAt_originBlock (C := C) kind
  have linked (id : NodeId) : Makes C (modifyForest (·.append parent id)) :=
    ⟨fun input s => C.forest input s.document _ (keepsMarks_append .refl parent id)⟩
  unfold originChild
  infer_instance

instance (element : NodeId) : Makes C (constraint element) := by
  refine .andThen fun keyword => .andThen fun draft => ?_
  infer_instance

instance (parent : NodeId) : Makes C (styleChild parent) := by
  unfold styleChild
  infer_instance

instance (parent : NodeId) : Makes C (scriptChild parent) := by
  unfold scriptChild
  infer_instance

instance (element : NodeId) : Makes C (attributeOf element) := by
  have written (name value : String) : Makes C (modifyForest (·.modify element fun node =>
      { node with attributes := node.attributes.insert name value })) := by
    refine ⟨fun input s => C.forest input s.document _ fun id node there => ?_⟩
    rw [Forest.get?_modify] at there
    split at there
    · obtain ⟨old, found, rfl⟩ := Option.map_eq_some_iff.1 there
      exact .inr ⟨old, found, rfl, rfl, rfl⟩
    · exact .inr ⟨node, there, rfl, rfl, rfl⟩
  unfold attributeOf
  infer_instance

instance (element : NodeId) : Makes C (textAttribute element) := by
  unfold textAttribute
  infer_instance

instance (usage : Parse Usage) (parent : Option NodeId) [Makes C usage] :
    Makes C (usageNode usage parent) := by
  unfold usageNode
  infer_instance

/-- Productions for what may nest that open and close no namespace. -/
class Nested.AllMake (C : Change) (nested : Nested) : Prop where
  element : ∀ parent, Makes C (nested.element parent)
  usageBody : ∀ usage, Makes C (nested.usageBody usage)

variable (nested : Nested) [all : nested.AllMake C]

instance (parent : Option NodeId) : Makes C (nested.element parent) := all.element parent

instance : Makes C nested.usage := makes_usageWith all.usageBody

instance : Makes C (insertedElements nested) := by
  refine .bind (.loop fun nodes => .peeked fun token => ?_) fun _ => makes_of_quiet C (pure _)
  split
  iterate 3 infer_instance
  · exact makesAt_commentNode ‹_› none fun _ => inferInstance
  iterate 3 infer_instance
  · have block := makesAt_originBlock (C := C) ‹_›
    infer_instance
  exact (Makes.andThen fun _ =>
    .ite inferInstance (.ite inferInstance (makes_unexpected _))).at

instance (element : NodeId) : Makes C (elementItem nested element) := by
  refine .peeked fun token => .peekedAhead 1 fun next => ?_
  dsimp only
  split
  · infer_instance
  · exact makesAt_commentChild ‹_› element
  · infer_instance
  · exact makesAt_originChild ‹_› element
  iterate 3 infer_instance
  exact (Makes.ite inferInstance (.ite inferInstance (.ite inferInstance (.ite inferInstance
    (.ite inferInstance (.ite inferInstance (makes_unexpected _))))))).at

instance (parent : Option NodeId) : Makes C (elementWith nested parent) := by
  unfold elementWith
  infer_instance

instance (usage : Usage) : Makes C (usageBodyWith nested usage) :=
  .loop fun usage => makes_usageStep (fun _ => makes_unexpected _) usage

end Elements

instance (levels : Nat) : (nested levels).AllMake C := by
  induction levels with
  | zero =>
    have none {α : Type} : Makes C (deeper (outOfLevels : Parse α)) := inferInstance
    exact ⟨fun _ => none, fun _ => none⟩
  | succ levels ih =>
    have element (parent : Option NodeId) : Makes C (deeper (elementWith (nested levels) parent)) :=
      inferInstance
    have body (usage : Usage) : Makes C (deeper (usageBodyWith (nested levels) usage)) :=
      inferInstance
    exact ⟨element, body⟩

section Statements

theorem makes_definitionStep {usage : Parse Usage} {payload : Parse Payload}
    {other : Definition → Token → Parse Definition} [Makes C usage] [Makes C payload]
    (others : ∀ definition token, MakesAt C token (other definition token))
    (definition : Definition) : Makes C (definitionStep usage payload other definition) := by
  refine .peeked fun token => ?_
  split <;> infer_instance

instance (definition : Definition) (token : Token) :
    Makes C (definedProperty definition token) := by
  refine .andThen fun name => .andThen fun next => .ite inferInstance (.ite inferInstance ?_)
  dsimp only
  infer_instance

instance (definition : Definition) : Makes C (propertyDefinition definition) :=
  .loop (makes_definitionStep fun _ _ => (Makes.ite inferInstance inferInstance).at)

instance (levels : Nat) (definition : Definition) :
    Makes C (elementDefinition levels definition) := by
  refine .loop (makes_definitionStep fun definition token => .lookedAhead .leftBrace fun braced => ?_)
  split
  · exact makesAt_commentNode ‹_› none fun _ => inferInstance
  · have block := makesAt_originBlock (C := C) ‹_›
    infer_instance
  · exact (Makes.ite inferInstance (.ite inferInstance (makes_unexpected _))).at

instance (parent : NodeId) : Makes C (importStatement parent) := by
  have record (spec : ImportSpec) : Makes C (modifySymbols (·.addImport spec)) :=
    makes_modifySymbols (fun _ => rfl) (fun _ => rfl) fun _ => rfl
  unfold importStatement
  infer_instance

instance (parent : NodeId) : Makes C (configuration parent) := by
  have register (name : String) (config : Config) :
      Makes C (withSymbols (·.registerConfiguration name config)) :=
    makes_withSymbols (fun table => by rw [SymbolTable.registerConfiguration_eq])
      (fun table => by rw [SymbolTable.registerConfiguration_eq])
      fun table => by rw [SymbolTable.registerConfiguration_eq]
  have set (config : Config) : Makes C (modifySymbols (·.setConfig config)) :=
    makes_modifySymbols (fun _ => rfl) (fun _ => rfl) fun _ => rfl
  refine .andThen fun keyword => .andThen fun name => .andThen fun _ => .andThen fun start =>
    .andThen fun config => .andThen fun _ => ?_
  cases name <;> infer_instance

instance (parent : NodeId) : Makes C (useStatement parent) := by
  have html5 : Makes C (modifySymbols (·.setHtml5)) :=
    makes_modifySymbols (fun _ => rfl) (fun _ => rfl) fun _ => rfl
  have ask (request : String × Span) :
      Makes C (modify fun s => { s with activations := request :: s.activations } : Parse Unit) :=
    ⟨fun input s => C.refl input s.document⟩
  have target : Makes C useTarget := by
    unfold useTarget
    infer_instance
  refine .andThen fun keyword => .andThen fun s => ?_
  dsimp only
  refine .ite (.andThen fun _ => ?_) ?_ <;> infer_instance

end Statements

/-- A change that definitions and the opening and closing of namespaces keep to as well. -/
class Change.Whole (C : Change) : Prop where
  definition : ∀ levels parent, Makes C (definitionBlock levels parent)
  enter : ∀ name, Makes C (withSymbols (·.enterNamespace name))
  close : ∀ input s, C.holds input s.document (closeNamespace s).document

section Documents

theorem makes_anyItem {parent : NodeId} {content : Parse Unit} (inside : Makes C content) :
    Makes C (do
    match ← peekKind with
    | .keyword .useClause => useStatement parent
    | .comment .generator => commentChild parent
    | .semicolon =>
      let _ ← advance
    | _ =>
      modify fun s => { s with seenContent := true }
      content) := by
  have seen : Makes C (modify fun s => { s with seenContent := true } : Parse Unit) :=
    ⟨fun input s => C.refl input s.document⟩
  refine .peekedKind fun token => ?_
  split
  · infer_instance
  · exact makesAt_commentChild ‹_› parent
  case h_3 | h_4 => infer_instance

variable [whole : C.Whole] {parent : NodeId}

instance (body : Parse Unit) [inside : Makes C body] : Makes C (closing body) where
  change input s := by
    have after := inside.change input s
    unfold closing
    cases run : body input s <;>
    · rw [run] at after
      exact C.trans _ _ _ _ after (whole.close input _)

theorem makes_namespaceBlock {body : NodeId → Parse Unit} (inside : ∀ id, Makes C (body id)) :
    Makes C (namespaceBlock body parent) := by
  have entering := whole.enter
  refine .andThen fun keyword => .andThen fun name => .andThen fun event => ?_
  cases event <;> infer_instance

theorem makes_contentItem (levels : Nat) {body : NodeId → Parse Unit}
    (inside : ∀ id, Makes C (body id)) : Makes C (contentItem levels body parent) := by
  have definition := whole.definition levels parent
  have scope : Makes C (namespaceBlock body parent) := makes_namespaceBlock inside
  refine .peeked fun token => .lookedAhead .leftBrace fun braced => ?_
  split
  case h_1 | h_2 => infer_instance
  · exact makesAt_originChild ‹_› parent
  iterate 5 infer_instance
  exact (Makes.ite inferInstance (.ite inferInstance (.ite inferInstance
    (.ite inferInstance (makes_unexpected _))))).at

instance (levels : Nat) : Makes C (item levels parent) := by
  induction levels generalizing parent with
  | zero =>
    unfold item
    exact makes_anyItem (makes_contentItem 0 fun _ => inferInstance)
  | succ levels ih =>
    have body (id : NodeId) : Makes C (namespaceBody (item levels) id) := by
      unfold namespaceBody
      infer_instance
    unfold item
    exact makes_anyItem (makes_contentItem _ body)

theorem change_items {input : ParseInput} {s : ParseState} {errors : List ParseError} :
    C.holds input s.document (items errors input s).2.document :=
  items_keep (fun t before => C.trans _ _ _ _ before (Makes.change input t)) (C.refl _ _)

end Documents

end Parse

end TemplateMarkup
