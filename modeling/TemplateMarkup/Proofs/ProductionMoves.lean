import TemplateMarkup.Proofs.CursorMoves
import TemplateMarkup.Proofs.NamespaceBlocks

/-! Every production of the parser goes forward in its frame, and takes a token if it succeeds. -/
namespace TemplateMarkup.Parse

-- The size of an instance grows with the length of a production.
set_option synthInstance.maxSize 100000

variable {α β : Type} {F : Frame} {input : ParseInput} {s s' : ParseState} {more : α → Prop}

section Statements

theorem Takes.of_goes {x : Parse α}
    (goes : ∀ input s, Goes F input s x fun _ t => s.cursor < t.cursor) : Takes F more x where
  moves := ⟨fun input s ended inside => (goes input s ended inside).1⟩
  takes input s a s' ended token run _ :=
    (goes input s ended (Nat.lt_of_succ_lt (ended.lt token))).2 a s' run

variable {more : String → Prop}

instance (lineEnds : Bool) : Takes F more (literal lineEnds) :=
  .of_goes fun _ _ => goes_literal lineEnds

theorem startsProperty_eof {token : Token} (last : token.kind = .eof) :
    startsProperty token = false := by
  simp [startsProperty, Token.isName, TokenKind.isName, last]

instance : StopsAtEnd nameStop :=
  ⟨fun input s last => by
    change EStateM.Result.ok
      (!(input.adjacent s.cursor && startsProperty (input.token s.cursor))) s = _
    rw [startsProperty_eof last, Bool.and_false, Bool.not_false]⟩

theorem goes_propertyName : Goes F input s propertyName fun _ t => s.cursor < t.cursor := by
  refine .still rfl (.still rfl ?_)
  split
  · next starts =>
    refine fun ended inside => Goes.andThen (fun _ s₁ taken _ => .andThen fun _ s₂ _ reaches =>
      .still rfl ?_) ended inside
    have before : s.cursor < s₁.cursor := by
      refine Eats.lt (F := F) inferInstance ended (fun same => ?_) taken
      cases starts.symm.trans (startsProperty_eof same)
    rw [← bind_pure (spanning _ _)]
    exact goes_passed (Nat.lt_of_lt_of_le before reaches.le)
  · exact goes_unexpected

instance : Takes F more propertyName := .of_goes fun _ _ => goes_propertyName

instance : Moves F assignedValue := by
  unfold assignedValue
  infer_instance

instance {more : String × Value → Prop} : Takes F more property := by
  unfold property
  infer_instance

instance {more : DefinitionType → Prop} : Takes F more definitionType := by
  refine .andThen fun token => ?_
  split
  · split <;> infer_instance
  · infer_instance

instance : Strides F definitionKind? := by
  refine .andThen fun kind => ?_
  split <;> infer_instance

instance {more : DeleteDraft → Prop} (draft : DeleteDraft) : Takes F more (deleteItem draft) := by
  refine .andThen fun token => ?_
  dsimp only
  split <;> infer_instance

theorem deleteItem_last (draft : DeleteDraft) (last : (input.token s.cursor).kind = .eof) :
    ∃ e, deleteItem draft input s = .error e s := by
  simp [deleteItem, bind_apply, last, startsProperty_eof last, unexpected_apply]

/-- A step whose entry fails gives nothing to go on with. -/
theorem listStep_ne_some {c : Prop} [Decidable c] {x : Parse α} {f : α → Parse (Option β)} {b : β}
    (fails : ∃ e, x input s = .error e s) :
    (if c then x >>= f else pure none) input s ≠ .ok (some b) s' := by
  obtain ⟨e, failed⟩ := fails
  rw [ite_apply, bind_apply, failed]
  split <;> exact fun same => by cases same

instance (draft : DeleteDraft) : Steps F (deleteStep draft) :=
  have : Strides F (deleteStep draft) := by
    unfold deleteStep
    infer_instance
  .of_strides fun _ _ _ _ last => listStep_ne_some (deleteItem_last draft last)

instance {more : List Edit → Prop} : Takes F more deleteEdits :=
  .first fun _ => .andThen fun _ => inferInstance

instance : Moves F target := by
  unfold target
  infer_instance

instance : Moves F insertPosition := by
  refine .andThen fun kind => ?_
  split <;> infer_instance

instance {more : Edit → Prop} (payload : Parse Payload) [Moves F payload] :
    Takes F more (insertEdit payload) := by
  unfold insertEdit
  infer_instance

instance (properties : OrderedMap String Value) : Steps F (insertedPropertyStep properties) :=
  have : Strides F (insertedPropertyStep properties) := by
    refine .andThen fun kind => ?_
    split <;> infer_instance
  .of_strides fun input s _ _ last => by simp [insertedPropertyStep, bind_apply, last]

instance : Moves F insertedProperties := moves_map _ (loop insertedPropertyStep {})

instance (payload : Parse Payload) (other : Usage → Parse Usage) [Moves F payload]
    [∀ usage, Eats F (other usage)] (usage : Usage) :
    Steps F (usageStep payload other usage) :=
  have : Strides F (usageStep payload other usage) := by
    refine .andThen fun kind => ?_
    split <;> infer_instance
  .of_strides fun input s _ _ last => by simp [usageStep, bind_apply, last]

theorem takes_usageWith {more : Usage → Prop} {type : DefinitionType} {body : Usage → Parse Usage}
    (inside : ∀ usage, Moves F (body usage)) : Takes F more (usageWith type body) := by
  refine .andThen fun kind => .andThen fun token => .first fun found => ?_
  dsimp only
  infer_instance

instance {more : Usage → Prop} (usage : Usage) : Takes F more (filledProperty usage) := by
  unfold filledProperty
  infer_instance

instance {more : Usage → Prop} (type : DefinitionType) : Takes F more (propertyUsage type) :=
  takes_usageWith fun _ => Moves.deeper (moves_loop _ _)

instance {more : SelectorPart → Prop} : Takes F more selectorPart := by
  refine .first fun token => ?_
  split
  iterate 3 infer_instance
  · refine .of_goes fun input s => .still rfl fun ended inside => ?_
    exact Goes.bind (goes_spanning (Nat.le_refl _) (by omega)) (fun _ _ _ _ _ => Moves.goes)
      ended inside
  · infer_instance

instance (start : Nat) (selector : Selector) : Steps F (selectorStep start selector) :=
  have : Strides F (selectorStep start selector) := by
    unfold selectorStep
    infer_instance
  .of_strides fun input s _ _ last => by
    simp [selectorStep, bind_apply, check_apply, atEnd, last]

instance : Moves F selector := by
  refine .andThen fun start => .andThen fun selector => ?_
  infer_instance

variable {i : Nat}

theorem matchingBrace_bounds {close : Nat} (ended : input.Ended)
    (run : matchingBrace i input s = .ok close s') :
    i ≤ close ∧ close + 1 < input.tokens.size ∧ s' = s := by
  obtain ⟨found, same⟩ := matchingBrace_eq_ok run
  obtain ⟨le, -, closes⟩ := ParseInput.closingBrace?_spec found
  exact ⟨le, ended.lt (by simp [closes]), same⟩

/-- A block in braces is passed. -/
theorem goes_braces {f : Unit → Parse α} {post : α → ParseState → Prop}
    (rest : ∀ s', s.cursor < s'.cursor → Goes F input s' (f ()) post) :
    Goes F input s (cursor >>= fun start => matchingBrace start >>= fun close =>
      moveTo (close + 1) >>= f) post := by
  refine .still rfl (.andThen fun close s₁ run _ ended inside => ?_)
  obtain ⟨le, below, rfl⟩ := matchingBrace_bounds ended run
  refine Goes.bind (goes_moveTo (by omega) below) (fun _ s' moved _ _ => ?_) ended inside
  cases moved
  exact rest _ (by dsimp only; omega)

instance (f : Unit → Parse α) [Moves F (f ())] : Moves F (cursor >>= fun start =>
    matchingBrace start >>= fun close => moveTo (close + 1) >>= f) :=
  .of_goes fun _ _ => goes_braces fun _ _ => Moves.goes

instance : StopsAtEnd atRuleStop :=
  ⟨fun input s last => by
    simp only [atRuleStop, bind_apply, peekKind_apply, last]
    rfl⟩

theorem goes_atRule : Goes F input s atRule fun _ t => s.cursor < t.cursor := by
  refine .still rfl (.andThen fun _ s₁ _ reaches => .still rfl ?_)
  have le := reaches.le
  have passed (t : ParseState) (lt : s.cursor < t.cursor) : Goes F input t
      (do spanning s.cursor ((← cursor) - 1)) fun _ t => s.cursor < t.cursor := by
    refine .still rfl ?_
    rw [← bind_pure (spanning _ _)]
    exact goes_passed lt
  split
  · next semicolon =>
    refine fun ended inside => Goes.andThen (fun _ s₂ taken _ => passed s₂ ?_) ended inside
    have before := Eats.lt (F := F) inferInstance ended
      (fun same => by cases semicolon.symm.trans same) taken
    omega
  · exact goes_braces fun s₂ later => passed s₂ (by omega)
  · refine .still rfl ?_
    dsimp only
    split
    · exact .bind goes_unexpected fun _ _ _ (never : False) => never.elim
    · next moved => exact passed s₁ (Nat.lt_of_le_of_ne le fun same => moved (by simp [same]))

instance : Takes F more atRule := .of_goes fun _ _ => goes_atRule

theorem ruleAhead_apply (inside : s.cursor < input.tokens.size) :
    ruleAhead input s = .ok (input.braceAhead s.cursor) s := by
  rw [ruleAhead, bind_ok (cursor_apply ..), bind_ok (tokenAt_apply s inside)]
  rfl

instance : Moves F ruleAhead :=
  .of_goes fun _ _ ended inside =>
    ⟨(Looks.goes (fun _ _ => ⟨_, ruleAhead_apply inside⟩) ended inside).1, fun _ _ _ => trivial⟩

theorem steps_styleStep (rule : Option (Parse StyleItem)) (rules : ∀ r ∈ rule, Eats F r)
    (items : List StyleItem) : Steps F (styleStep rule items) :=
  have : Strides F (styleStep rule items) := by
    refine .andThen fun token => ?_
    split
    iterate 8 infer_instance
    refine .andThen fun ahead => ?_
    split
    · infer_instance
    · split
      · have := rules _ rfl
        infer_instance
      · infer_instance
  .of_strides fun input s _ _ last => by simp [styleStep, bind_apply, last]

instance (items : List StyleItem) : Steps F (styleStep none items) :=
  steps_styleStep none (by simp) items

instance {more : StyleItem → Prop} : Takes F more styleRule :=
  .andThen fun _ => .first fun _ => .andThen fun _ => inferInstance

instance (items : List StyleItem) : Steps F (styleStep (some styleRule) items) := by
  refine steps_styleStep _ ?_ items
  rintro r ⟨⟩
  infer_instance

instance {more : StyleBlock → Prop} : Takes F more styleBlock :=
  .first fun _ => .andThen fun _ => .andThen fun _ => inferInstance

section Scripts

variable {index close : Nat}

/-- A construct of a script has a token of its own. -/
theorem scriptPartAt_forward {part : ScriptPart} {next : Nat} (ended : input.Ended)
    (inside : close < input.tokens.size) (lt : index < close)
    (run : scriptPartAt index close input s = .ok (some (part, next)) s') : index < next := by
  unfold scriptPartAt at run
  rw [bind_ok (tokenAt_apply s (by omega))] at run
  cases kind : (input.token index).kind with
  | leftBrace =>
    simp only [kind] at run
    exact ((findsAt_bracedAt inside run).2 part next rfl).lt
  | block word =>
    simp only [kind] at run
    cases word with
    | origin => exact ((findsAt_originRefAt inside run).2 part next rfl).lt
    | _ => cases run
  | identifier =>
    simp only [kind] at run
    obtain ⟨found, s₁, read, run⟩ := bind_eq_ok run
    cases found with
    | none => cases run
    | some found =>
      obtain ⟨method, s₂, -, run⟩ := bind_eq_ok run
      rw [ite_apply] at run
      split at run <;> cases run
      exact (varRefAt_bounds ended read).1
  | _ =>
    simp only [kind] at run
    cases run

/-- The parts of a script are looked up, one behind the other. -/
theorem scriptParts_looks (ended : input.Ended) (inside : close < input.tokens.size)
    (index : Nat) (draft : ScriptDraft) (s : ParseState) : ∃ later inRange,
      scriptParts close index draft input s = .ok later { s with inRange } := by
  fun_induction scriptParts close index draft generalizing s
  case case1 index draft lt passed taken =>
    obtain ⟨found, r, looked⟩ := Looks.looks (x := scriptPartAt index close) input s
    rw [bind_ok looked]
    cases found with
    | none => exact passed { s with inRange := r }
    | some construct =>
      obtain ⟨part, next⟩ := construct
      have forward := scriptPartAt_forward ended inside lt looked
      obtain ⟨first, r₁, read⟩ := Looks.looks (x := tokenAt index) input { s with inRange := r }
      obtain ⟨code, r₂, sliced⟩ := Looks.looks (x := slice draft.offset first.span.start) input
        { s with inRange := r₁ }
      obtain ⟨last, r₃, read'⟩ := Looks.looks (x := tokenAt (next - 1)) input
        { s with inRange := r₂ }
      simp only [bind_apply, read, sliced, read', dif_pos forward]
      exact taken part next code last forward { s with inRange := r₃ }
  case case2 index draft past => exact ⟨draft, s.inRange, rfl⟩

end Scripts

theorem goes_tokenAt (inside : i < input.tokens.size) :
    Goes F input s (tokenAt i) fun _ t => t.cursor = s.cursor :=
  Looks.goes fun _ _ => ⟨_, tokenAt_apply s inside⟩

instance {more : ScriptBlock → Prop} : Takes F more scriptBlock := by
  refine .first fun _ => .of_goes fun input s => .still rfl fun ended inside => ?_
  refine Goes.andThen (fun token s₁ taken _ => .andThen fun close s₂ run _ => ?_) ended inside
  have brace := kind_of_expect taken
  have apart : s.cursor < close := by
    obtain ⟨le, -, closes⟩ := ParseInput.closingBrace?_spec (matchingBrace_eq_ok run).1
    refine Nat.lt_of_le_of_ne le fun same => ?_
    rw [← same, brace] at closes
    cases closes
  obtain ⟨le, below, rfl⟩ := matchingBrace_bounds ended run
  cases taken.symm.trans (expect_eq_ok _ brace (by omega))
  refine .bind (goes_tokenAt (by omega)) fun first s₃ read here _ => ?_
  have parts {draft : ScriptDraft} {t : ParseState} (laid : input.Laid)
      (run : scriptParts close (s.cursor + 1) { offset := first.span.stop } input s₃ =
        .ok draft t) : t = s₃ ∧ Drawn input close draft := by
    cases read.symm.trans (tokenAt_apply _ (by omega))
    obtain ⟨same, drawn, -⟩ := scriptParts_extends laid (by omega) apart
      ⟨laid.stops _ (by omega), laid.stop_le_start _ _ (Nat.lt_succ_self _) (by omega),
        by simp [ScriptBlock.Finished]⟩ run
    exact ⟨same, drawn⟩
  have inside : close < input.tokens.size := Nat.lt_of_succ_lt below
  refine .bind (goes_of_lookup (fun ended => scriptParts_looks ended inside _ _ s₃)
    fun laid _ => ?_) fun draft s₄ run here' _ => ?_
  · obtain ⟨draft, inRange, run⟩ := scriptParts_looks ended inside (s.cursor + 1)
      { offset := first.span.stop } s₃
    rw [(parts laid run).1] at run
    exact ⟨draft, run⟩
  refine .bind (goes_tokenAt (by omega)) fun last s₅ read' here'' _ =>
    .bind (Looks.goes fun laid _ => ?_) fun code s₆ _ here₆ _ => ?_
  · cases read'.symm.trans (tokenAt_apply s₄ (by omega))
    have drawn := (parts laid run).2
    exact ⟨_, slice_apply s₄ drawn.cut (laid.starts _ (by omega)) drawn.le⟩
  dsimp only at here
  exact .bind (goes_moveTo (by omega) below) fun _ _ _ _ _ => Moves.goes

/-- What stands between two tokens is there, if it is nothing. -/
theorem goes_between {j : Nat} (le : i ≤ j) (inside : j < input.tokens.size) :
    Goes F input s (between i j) fun _ t => t.cursor = s.cursor := by
  refine Looks.goes fun laid _ => ?_
  rcases Nat.lt_or_eq_of_le le with lt | rfl
  · exact ⟨_, between_apply laid s lt inside⟩
  · have cut := laid.stops i inside
    have nothing := slice_apply s cut cut (Nat.le_refl _)
    exact ⟨_, by simpa only [between, bind_apply, tokenAt_apply s inside,
      Nat.max_eq_right (laid.start_le_stop i inside)] using nothing⟩

instance {more : Node → Prop} : Takes F more textBlock := by
  refine .first fun _ => .of_goes fun input s => .still rfl
    (.andThen fun close s₁ run _ ended inside => ?_)
  obtain ⟨le, below, rfl⟩ := matchingBrace_bounds ended run
  have finish (content : String) (t : ParseState) (here : t.cursor = s₁.cursor) (span : Span) :
      Goes F input t (do
        moveTo (close + 1)
        return { kind := .text, content, scope := ← currentScope, span } : Parse Node)
        fun _ _ => True :=
    .bind (goes_moveTo (by omega) below) fun _ _ _ _ _ => Moves.goes
  refine Goes.bind (goes_tokenAt (by omega)) (fun first s₂ _ here _ => ?_) ended inside
  dsimp only
  split
  · exact .still rfl (finish _ s₂ here _)
  · exact .bind (goes_between le (by omega)) fun text s₃ _ here' _ =>
      .still rfl (finish _ s₃ (here'.trans here) _)

instance (name : Option String) : Moves F (originContent? name) := by
  refine .andThen fun braced => @moves_ite _ _ _ _ _ _ (.of_goes fun input s => .still rfl
    (.andThen fun close s₁ run _ ended inside => ?_)) inferInstance
  obtain ⟨le, below, rfl⟩ := matchingBrace_bounds ended run
  exact Goes.bind (goes_between le (by omega)) (fun text s₂ _ here _ =>
    .bind (goes_moveTo (by omega) below) fun _ _ _ _ _ => Moves.goes) ended inside

end Statements

section Nodes

variable {parent : Option NodeId} {room levels : Nat} {node : Node}

/-- A kind of nodes other than elements. -/
class IsPlain (kind : NodeKind) : Prop where
  other : kind ≠ .element

instance : IsPlain .text := ⟨by simp⟩
instance : IsPlain .comment := ⟨by simp⟩
instance (block : StyleBlock) : IsPlain (.style block) := ⟨by simp⟩
instance (block : ScriptBlock) : IsPlain (.script block) := ⟨by simp⟩
instance (kind : DefinitionKind) (type : DefinitionType) : IsPlain (.definition kind type) :=
  ⟨by simp⟩
instance (usage : Usage) : IsPlain (.usage usage) := ⟨by simp⟩
instance (block : OriginBlock) : IsPlain (.origin block) := ⟨by simp⟩
instance (spec : ImportSpec) : IsPlain (.importing spec) := ⟨by simp⟩
instance : IsPlain .scope := ⟨by simp⟩
instance : IsPlain .configuration := ⟨by simp⟩
instance (target : UseTarget) : IsPlain (.activation target) := ⟨by simp⟩
instance (targets : List ConstraintTarget) : IsPlain (.constraint targets) := ⟨by simp⟩

theorem addNode_adds (input : ParseInput) (s : ParseState) (parent : Option NodeId) (node : Node) :
    ∃ document, addNode parent node input s =
        .ok ⟨s.document.forest.slots.size⟩ { s with document } ∧
      s.document.forest.Adds parent node ⟨s.document.forest.slots.size⟩ document.forest := by
  have adds := Forest.adds_insertDetached s.document.forest node
  cases parent with
  | none => exact ⟨_, rfl, adds⟩
  | some p => exact ⟨_, rfl, adds.append⟩

theorem moves_addNode (plain : node.kind ≠ .element) :
    Moves ⟨room, parent, levels⟩ (addNode parent node) := by
  refine ⟨fun input s _ inside => ?_⟩
  obtain ⟨document, run, adds⟩ := addNode_adds input s parent node
  rw [run]
  refine ⟨Nat.le_refl _, inside, fun _ => rfl, rfl, fun _ => rfl, fun n nesting fits => ?_⟩
  have no : node.isElement = false := by
    unfold Node.isElement
    split
    · contradiction
    · rfl
  refine adds.sprouts nesting ?_
  rw [no]
  exact Nat.le_trans (Nat.le_add_right n room) fits

/-- What hangs below nothing may hang anywhere. -/
theorem Moves.widen {G : Frame} {x : Parse α} (moves : Moves F x) (le : F.room ≤ G.room)
    (below : F.parent = none ∨ F.parent = G.parent) (levels : F.levels = G.levels) : Moves G x :=
  ⟨fun input s ended inside => (moves.reaches input s ended inside).widen le below levels⟩

theorem Eats.takes_in {G : Frame} {x : Parse α} (eats : Eats F x) (le : F.room ≤ G.room)
    (below : F.parent = none ∨ F.parent = G.parent) (levels : F.levels = G.levels) :
    Takes G more x :=
  ⟨eats.moves.widen le below levels, fun _ _ _ _ ended token run _ => eats.lt ended token run⟩

instance (kind : NodeKind) [plain : IsPlain kind] (name content : String)
    (attributes properties : OrderedMap String String) (scope : String) (span : Span) :
    Moves ⟨room, parent, levels⟩
      (addNode parent ⟨kind, name, content, attributes, properties, scope, span⟩) :=
  moves_addNode plain.other

instance (kind : NodeKind) [plain : IsPlain kind] (name content : String)
    (attributes properties : OrderedMap String String) (scope : String) (span : Span) :
    Moves F (addNode none ⟨kind, name, content, attributes, properties, scope, span⟩) :=
  Moves.widen (F := ⟨F.room, none, F.levels⟩) inferInstance (Nat.le_refl _) (.inl rfl) rfl

theorem takes_textNode {f : NodeId → Parse α} [∀ id, Moves F (f id)]
    (added : ∀ node : Node, node.kind ≠ .element → Moves F (addNode parent node)) :
    Takes F more (textBlock >>= fun node => addNode parent node >>= f) := by
  have rest {input : ParseInput} {s t : ParseState} {node : Node}
      (run : textBlock input s = .ok node t) : Moves F (addNode parent node >>= f) := by
    have := added node (by simp [(returns_textBlock input s node t run).2])
    infer_instance
  refine ⟨.of_goes fun input s => .andThen fun node t run _ => ?_,
    fun input s a s' ended token run _ => ?_⟩
  · have := rest run
    exact Moves.goes
  · obtain ⟨node, t, here, there⟩ := bind_eq_ok run
    have := rest here
    have inside := Nat.lt_of_succ_lt (ended.lt token)
    have moved := (Moves.run (F := F) ended (Moves.run (F := F) ended inside here).lt there).le
    exact Nat.lt_of_lt_of_le (Eats.lt (F := F) inferInstance ended token here) moved

instance (f : NodeId → Parse α) [∀ id, Moves ⟨room, parent, levels⟩ (f id)] :
    Takes ⟨room, parent, levels⟩ more (textBlock >>= fun node => addNode parent node >>= f) :=
  takes_textNode fun _ => moves_addNode

instance (f : NodeId → Parse α) [∀ id, Moves F (f id)] :
    Takes F more (textBlock >>= fun node => addNode none node >>= f) :=
  takes_textNode fun _ plain =>
    Moves.widen (F := ⟨F.room, none, F.levels⟩) (moves_addNode plain) (Nat.le_refl _)
      (.inl rfl) rfl

/-- A node that others may stand in, with what is read into it. -/
theorem moves_host {f : NodeId → Parse α} (host : node.isHost)
    (rest : ∀ id, Moves ⟨room, some id, levels⟩ (f id)) :
    Moves ⟨room + 1, parent, levels⟩ (addNode parent node >>= f) := by
  refine ⟨fun input s ended inside => ?_⟩
  obtain ⟨document, run, adds⟩ := addNode_adds input s parent node
  rw [bind_ok run]
  have inner := (rest ⟨s.document.forest.slots.size⟩).reaches input { s with document } ended inside
  refine ⟨inner.le, inner.lt, inner.inRange, inner.depth, inner.stalled, fun n nesting fits => ?_⟩
  have below := adds.depth_new nesting
  rw [host] at below
  have one := Bool.toNat_le node.isElement
  dsimp only at fits
  exact (adds.sprouts nesting (by omega)).trans (inner.sprouts _ below (by simp; omega))

/-- An origin block hangs below nothing until it is put in its place. -/
instance {more : NodeId → Prop} : Takes F more originBlock := by
  refine .first fun keyword => .andThen fun token => ?_
  split
  · dsimp only
    refine .andThen fun _ => .andThen fun next => ?_
    split <;>
    · refine .andThen fun _ => .andThen fun _ => .andThen fun _ => .andThen fun _ => ?_
      split <;> infer_instance
  · infer_instance

theorem originBlock_adds {id : NodeId} (run : originBlock input s = .ok id s') : ∃ node : Node,
    node.isElement = false ∧ s.document.forest.Adds none node id s'.document.forest := by
  rcases originBlock_cases input s with
    ⟨e, t, failed, -⟩ | ⟨word, content, t, id', t', -, -, done, records⟩
  · cases failed.symm.trans run
  · cases done.symm.trans run
    rw [records.forest, records.id, document_headEnd]
    exact ⟨_, rfl, Forest.adds_insertDetached _ _⟩

instance {more : Unit → Prop} (p : NodeId) : Takes ⟨room, some p, levels⟩ more (originChild p) := by
  refine ⟨⟨fun input s ended inside => ?_⟩, fun input s _ s' ended token run _ => ?_⟩
  · have block :=
      Moves.reaches (F := ⟨room, some p, levels⟩) (x := originBlock) input s ended inside
    rw [originChild, bind_apply]
    cases run : originBlock input s with
    | error e t => rwa [run] at block
    | ok id t =>
      rw [run] at block
      refine ⟨block.le, block.lt, block.inRange, block.depth, block.stalled,
        fun n nesting fits => ?_⟩
      obtain ⟨node, plain, adds⟩ := originBlock_adds run
      refine adds.append.sprouts nesting ?_
      rw [plain]
      exact Nat.le_trans (Nat.le_add_right n room) fits
  · obtain ⟨id, t, here, there⟩ := bind_eq_ok run
    have before := Eats.lt (F := ⟨room, some p, levels⟩) inferInstance ended token here
    cases there
    exact before

end Nodes

section Elements

instance {more : ConstraintTarget → Prop} : Takes F more constraintTarget := by
  refine .andThen fun token => .choice (fun kind => kind.isSome) (fun kind _ => ?_)
    fun kind none => ?_
  · refine .andThen fun next => ?_
    split
    · refine .andThen fun _ => ?_
      split <;> infer_instance
    · split <;> infer_instance
  · obtain rfl := Option.not_isSome_iff_eq_none.1 none
    refine .andThen fun next => ?_
    split
    · refine .first fun _ => ?_
      split <;> infer_instance
    · infer_instance

theorem constraintTarget_last (last : (input.token s.cursor).kind = .eof) :
    ∃ e, constraintTarget input s = .error e s := by
  obtain ⟨e, fails⟩ := unexpected_apply (α := Token) input s "a tag name"
  have unnamed : (input.token s.cursor).isName = false := by
    simp [Token.isName, TokenKind.isName, last]
  refine ⟨e, ?_⟩
  simp only [constraintTarget, definitionKind?, expectName, bind_apply, peek_apply, peekKind_apply,
    pure_apply, last, unnamed, Bool.false_eq_true, if_false, fails]

instance (draft : ConstraintDraft) : Steps F (constraintStep draft) :=
  have : Strides F (constraintStep draft) := by
    unfold constraintStep
    infer_instance
  .of_strides fun _ _ _ _ last => listStep_ne_some (constraintTarget_last last)

variable {room levels : Nat} {p : NodeId}

variable {more : Unit → Prop}

instance : Takes ⟨room, some p, levels⟩ more (constraint p) :=
  .first fun _ => .andThen fun _ => inferInstance

instance : Takes ⟨room, some p, levels⟩ more (commentChild p) := by
  unfold commentChild commentNode
  infer_instance

instance : Takes ⟨room, some p, levels⟩ more (styleChild p) := by
  unfold styleChild
  infer_instance

instance : Takes ⟨room, some p, levels⟩ more (scriptChild p) := by
  unfold scriptChild
  infer_instance

instance : Takes ⟨room, some p, levels⟩ more (attributeOf p) := by
  have written (name value : String) : Moves ⟨room, some p, levels⟩
      (modifyForest (·.modify p fun node =>
        { node with attributes := node.attributes.insert name value })) := by
    refine ⟨fun _ s _ inside => ⟨Nat.le_refl _, inside, fun _ => rfl, rfl, fun _ => rfl,
      fun _ _ _ => ?_⟩⟩
    exact (Forest.sprouts_modify (fun _ => rfl) : s.document.forest.Sprouts _
      (s.document.forest.modify p fun node =>
        { node with attributes := node.attributes.insert name value }))
  unfold attributeOf
  infer_instance

instance : Takes ⟨room, some p, levels⟩ more (textAttribute p) := by
  unfold textAttribute
  infer_instance

instance {more : NodeId → Prop} (usage : Parse Usage) (parent : Option NodeId)
    [Eats ⟨room, parent, levels⟩ usage] :
    Takes ⟨room, parent, levels⟩ more (usageNode usage parent) := by
  unfold usageNode
  infer_instance

instance {more : NodeId → Prop} (usage : Parse Usage) [Eats F usage] :
    Takes F more (usageNode usage none) := by
  unfold usageNode
  infer_instance

/-- Productions for what may nest, with so much room. -/
class Nested.Fits (levels : Nat) (nested : Nested) : Prop where
  element : ∀ parent, Eats ⟨levels, parent, levels⟩ (nested.element parent)
  usageBody : ∀ usage, Moves ⟨levels, none, levels⟩ (nested.usageBody usage)

section Inside

variable (nested : Nested) [fits : nested.Fits levels] {parent : Option NodeId}

variable {more : NodeId → Prop}

instance : Takes ⟨levels, parent, levels⟩ more (nested.element parent) :=
  (fits.element parent).takes_in (Nat.le_refl _) (.inr rfl) rfl

instance : Takes ⟨levels, parent, levels⟩ more (nested.element none) :=
  (fits.element none).takes_in (Nat.le_refl _) (.inl rfl) rfl

instance {more : Usage → Prop} : Takes ⟨levels, parent, levels⟩ more nested.usage :=
  takes_usageWith fun usage => (fits.usageBody usage).widen (Nat.le_refl _) (.inl rfl) rfl

instance (nodes : List NodeId) :
    Steps ⟨levels, parent, levels⟩ (insertedElementStep nested nodes) :=
  have : Strides ⟨levels, parent, levels⟩ (insertedElementStep nested nodes) := by
    refine .andThen fun token => ?_
    unfold commentNode
    split
    iterate 8 infer_instance
    refine .andThen fun braced => ?_
    infer_instance
  .of_strides fun input s _ _ last => by simp [insertedElementStep, bind_apply, last]

instance : Moves ⟨levels, parent, levels⟩ (insertedElements nested) :=
  moves_map _ (loop (insertedElementStep nested) [])

instance {more : Unit → Prop} : Takes ⟨levels, some p, levels⟩ more (elementItem nested p) := by
  refine .andThen fun token => .andThen fun next => ?_
  dsimp only
  split <;> infer_instance

/-- An element has room for one level less inside it. -/
theorem takes_elementWith :
    Takes ⟨levels + 1, parent, levels⟩ more (elementWith nested parent) := by
  refine .first fun name => .andThen fun input => ?_
  dsimp only
  split
  · exact .andThen fun _ => .andThen fun scope => moves_host rfl fun id => inferInstance
  · exact .andThen fun scope => moves_host rfl fun id => inferInstance

instance (usage : Usage) : Moves ⟨levels, parent, levels⟩ (usageBodyWith nested usage) := by
  unfold usageBodyWith
  infer_instance

end Inside

instance (levels : Nat) : (nested levels).Fits levels := by
  induction levels with
  | zero =>
    exact ⟨fun _ => inferInstanceAs (Eats _ (deeper outOfLevels)),
      fun _ => inferInstanceAs (Moves _ (deeper outOfLevels))⟩
  | succ levels ih =>
    exact ⟨fun parent => (takes_elementWith (nested levels)).deeper, fun usage =>
      .deeper (Moves.widen (F := ⟨levels, none, levels⟩)
        (x := usageBodyWith (nested levels) usage) inferInstance (Nat.le_succ _) (.inl rfl) rfl)⟩

end Elements

section Items

variable {levels : Nat} {p : NodeId}

instance (usage : Parse Usage) (payload : Parse Payload)
    (other : Definition → Token → Parse Definition) [Eats F usage] [Moves F payload]
    [∀ definition token, Eats F (other definition token)] (definition : Definition) :
    Steps F (definitionStep usage payload other definition) :=
  have : Strides F (definitionStep usage payload other definition) := by
    unfold definitionStep requireCustom
    refine .andThen fun token => ?_
    split <;> infer_instance
  .of_strides fun input s _ _ last => by simp [definitionStep, bind_apply, last]

instance (names : List String) : Steps F (valuelessStep names) :=
  have : Strides F (valuelessStep names) := by
    unfold valuelessStep
    infer_instance
  .of_strides fun input s _ _ last => by
    rw [valuelessStep, bind_ok (eat_left (by simp [last]))]
    exact fun same => by cases same

instance (names : List String) : Moves F (moreValueless names) := by
  unfold moreValueless
  infer_instance

instance {more : Definition → Prop} (definition : Definition) (token : Token) :
    Takes F more (definedProperty definition token) := by
  unfold definedProperty requireCustom
  infer_instance

instance (definition : Definition) (token : Token) :
    Eats F (propertyOrComment definition token) := by
  unfold propertyOrComment
  infer_instance

instance (definition : Definition) : Moves F (propertyDefinition definition) := by
  unfold propertyDefinition
  infer_instance

instance {parent : Option NodeId} (definition : Definition) (token : Token) :
    Eats ⟨levels, parent, levels⟩ (definedElement (nested levels) definition token) := by
  refine .andThen fun braced => ?_
  unfold commentNode
  split <;> infer_instance

instance {parent : Option NodeId} (definition : Definition) :
    Moves ⟨levels, parent, levels⟩ (elementDefinition levels definition) := by
  unfold elementDefinition
  infer_instance

variable {more : Unit → Prop}

instance : Takes ⟨levels, some p, levels⟩ more (definitionBlock levels p) := by
  unfold definitionBlock
  infer_instance

instance (word : Keyword) : StopsAtEnd (clauseStop word) :=
  ⟨fun input s last => by
    change EStateM.Result.ok ((input.token s.cursor).kind == _ ||
      (input.token s.cursor).kind.endsStatement) s = _
    rw [last, TokenKind.endsStatement, Bool.or_true]⟩

theorem goes_importPath : Goes F input s importPath fun _ t => s.cursor < t.cursor := by
  refine .still rfl ?_
  split
  · next text string =>
    exact goes_eats fun same => by cases string.symm.trans same
  · refine .still rfl (.andThen fun _ s₁ _ reaches => .still rfl ?_)
    have le := reaches.le
    split
    · exact goes_unexpected
    · next moved =>
      rw [← bind_pure (spanning _ _)]
      exact goes_passed (Nat.lt_of_le_of_ne le fun same => moved (by simp [same]))

instance : Moves F importPath := ⟨fun _ _ ended inside => (goes_importPath ended inside).1⟩

/-- A check that fails goes no further. -/
theorem goes_guard {c : Bool} {what : String} {f : Unit → Parse α} {post : α → ParseState → Prop}
    (rest : c = false → Goes F input s (f ()) post) :
    Goes F input s (if c then unexpected what >>= f else f ()) post := by
  cases c with
  | true => exact .bind goes_unexpected fun _ _ _ (never : False) => never.elim
  | false => exact rest rfl

variable {room : Nat}

instance : Takes ⟨room, some p, levels⟩ more (importStatement p) := by
  refine .first fun keyword => .of_goes fun input s => .still rfl
    (.andThen fun _ s₁ _ reaches => .still rfl (goes_guard fun _ => .still rfl
      (goes_guard fun moved => ?_)))
  have lt : s.cursor < s₁.cursor := Nat.lt_of_le_of_ne reaches.le
    fun same => by simp [same] at moved
  exact fun ended inside => Goes.bind (goes_spanning (by omega) (by omega))
    (fun _ _ _ _ _ => Moves.goes) ended inside

instance {more : String × String → Prop} : Takes F more configEntry := by
  unfold configEntry
  infer_instance

instance (group : String) (config : Config) : Steps F (configGroupStep group config) :=
  have : Strides F (configGroupStep group config) := by
    unfold configGroupStep
    infer_instance
  .of_strides fun input s _ _ last => by
    simp [configGroupStep, bind_apply, check_apply, atEnd, last]

instance {more : Config → Prop} (group : String) (config : Config) :
    Takes F more (configGroup group config) := by
  refine .first fun _ => .andThen fun _ => .andThen fun _ => inferInstance

instance (config : Config) : Steps F (configStep config) :=
  have : Strides F (configStep config) := by
    refine .andThen fun token => ?_
    split
    iterate 5 infer_instance
    refine .first fun entry => ?_
    dsimp only
    split <;> infer_instance
  .of_strides fun input s _ _ last => by simp [configStep, bind_apply, last]

instance : Moves F configName? := by
  unfold configName?
  infer_instance

instance : Takes ⟨room, some p, levels⟩ more (configuration p) := by
  refine .first fun keyword => .andThen fun name => .andThen fun _ => .andThen fun start =>
    .andThen fun config => .andThen fun _ => ?_
  cases name <;> infer_instance

instance : Moves F useTarget := by
  have ask (request : String × Span) : Moves F
      (modify fun s => { s with activations := request :: s.activations } : Parse Unit) :=
    ⟨fun _ _ _ inside => .of_same (Nat.le_refl _) inside (fun _ => rfl) rfl rfl rfl⟩
  unfold useTarget
  infer_instance

instance : Takes ⟨room, some p, levels⟩ more (useStatement p) := by
  unfold useStatement
  infer_instance

instance : Takes F more ignoredBlock := by
  unfold ignoredBlock
  infer_instance

instance (body : Parse Unit) [moves : Moves F body] : Moves F (closing body) := by
  refine ⟨fun input s ended inside => ?_⟩
  have reaches := moves.reaches input s ended inside
  unfold closing
  cases run : body input s <;> rw [run] at reaches <;>
    exact ⟨reaches.le, reaches.lt, reaches.inRange, reaches.depth, reaches.stalled,
      reaches.sprouts⟩

/-- Inside a namespace there is room for one level less. -/
theorem takes_namespaceBlock {body : NodeId → Parse Unit}
    (inner : ∀ id, Moves ⟨levels, some id, levels⟩ (body id)) :
    Takes ⟨levels + 1, some p, levels + 1⟩ more (namespaceBlock body p) := by
  refine .first fun keyword => .andThen fun name => .andThen fun event => ?_
  have inside (id : NodeId) : Moves ⟨levels, some id, levels + 1⟩ (deeper (body id)) :=
    (inner id).deeper
  have rest (scope : String) : Moves ⟨levels + 1, some p, levels + 1⟩ (do
      let id ← addNode (some p) { kind := .scope, name := name.text, scope, span := keyword.span }
      if ← eat .leftBrace then closing (deeper (body id))
      else
        let _ ← eat .semicolon) :=
    moves_host rfl fun id => inferInstance
  cases event <;> infer_instance

instance : Takes ⟨0, some p, 0⟩ more (namespaceBlock (fun _ => outOfLevels) p) := by
  refine .first fun keyword => .andThen fun name => .andThen fun event => ?_
  cases event <;> infer_instance

instance (inNamespace : NodeId → Parse Unit)
    [Takes ⟨levels, some p, levels⟩ more (namespaceBlock inNamespace p)] :
    Takes ⟨levels, some p, levels⟩ more (contentItem levels inNamespace p) := by
  refine .andThen fun token => .andThen fun braced => ?_
  split <;> infer_instance

instance (item : NodeId → Parse Unit) [Eats F (item p)] : Moves F (namespaceBody item p) := by
  unfold namespaceBody
  infer_instance

instance (levels : Nat) (p : NodeId) :
    Takes ⟨levels, some p, levels⟩ more (item levels p) := by
  have content (F : Frame) : Moves F
      (modify fun s => { s with seenContent := true } : Parse Unit) :=
    ⟨fun _ _ _ inside => .of_same (Nat.le_refl _) inside (fun _ => rfl) rfl rfl rfl⟩
  induction levels generalizing more p with
  | zero =>
    unfold item
    refine .andThen fun kind => ?_
    split <;> infer_instance
  | succ levels ih =>
    have block : Takes ⟨levels + 1, some p, levels + 1⟩ more
        (namespaceBlock (namespaceBody (item levels)) p) :=
      takes_namespaceBlock fun _ => inferInstance
    unfold item
    refine .andThen fun kind => ?_
    split <;> infer_instance

end Items

end TemplateMarkup.Parse
