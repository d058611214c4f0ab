import TemplateMarkup.Proofs.ForestCopies
import TemplateMarkup.Proofs.ForestTrees
import TemplateMarkup.Proofs.NamespaceBlocks
import TemplateMarkup.Proofs.OrderedMapLookup
import TemplateMarkup.Proofs.ParsedForests
import TemplateMarkup.Proofs.PlainSources

/-! Parsing the source of plain nodes gives their trees. -/
namespace TemplateMarkup

namespace Forest

variable {f g h : Forest} {parent id : NodeId} {slot : Slot} {ids ids' : List NodeId}
  {trees : List NodeTree}

/-- A node gets more children behind those it has, and no other node that was there changes. -/
structure Bears (f : Forest) (parent : NodeId) (g : Forest) (ids : List NodeId) : Prop where
  grown : g.Grown
  here : ∀ slot, f.slot? parent = some slot →
    g.slot? parent = some { slot with children := slot.children ++ ids }
  others : ∀ k slot, k ≠ parent → f.slot? k = some slot → g.slot? k = some slot

theorem Bears.refl (grown : f.Grown) : f.Bears parent f [] :=
  ⟨grown, by simp, fun _ _ _ found => found⟩

theorem Bears.trans (first : f.Bears parent g ids) (second : g.Bears parent h ids') :
    f.Bears parent h (ids ++ ids') where
  grown := second.grown
  here slot found := by
    rw [second.here _ (first.here slot found), List.append_assoc]
  others k slot other found := second.others k slot other (first.others k slot other found)

theorem ne_of_new {k : NodeId} (new : f.slot? id = none) (found : f.slot? k = some slot) :
    k ≠ id := by
  rintro rfl
  rw [new] at found
  cases found

/-- What stands below a new child is of no concern to the node. -/
theorem Bears.inside (first : f.Bears parent g ids) (new : f.slot? id = none)
    (found : f.slot? parent = some slot) (second : g.Bears id h ids') : f.Bears parent h ids where
  grown := second.grown
  here slot' found' :=
    second.others parent _ (ne_of_new new found) (first.here slot' found')
  others k slot' other found' :=
    second.others k slot' (ne_of_new new found') (first.others k slot' other found')

/-- The trees at the children that were there stay. -/
theorem Bears.shows (bears : f.Bears parent g ids') (grown : f.Grown) (shown : f.Shows ids trees)
    (links : ∀ id ∈ ids, id ∈ f.children parent) : g.Shows ids trees := by
  refine shown.of_spares grown bears.grown fun id member k below => ?_
  obtain ⟨slot, found, -⟩ := grown.exists_slot (links id member)
  obtain ⟨slot', found'⟩ := grown.ordered.exists_slot_of_below found below
  have lt := grown.lt parent id (links id member)
  have le := grown.index_le below
  rw [found']
  refine bears.others k slot' ?_ found'
  rintro rfl
  omega

theorem bears_insertChild (grown : f.Grown) (found : f.slot? parent = some slot) (node : Node) :
    f.Bears parent (f.insertChild parent node).2 [⟨f.slots.size⟩] ∧
      f.slot? ⟨f.slots.size⟩ = none ∧
      (f.insertChild parent node).2.slot? ⟨f.slots.size⟩ =
        some { node, parent := some parent } := by
  have new : f.slot? ⟨f.slots.size⟩ = none := slot?_of_size_le (Nat.le_refl _)
  have ne := ne_of_new new found
  have old {k : NodeId} (other : k ≠ ⟨f.slots.size⟩) :
      (f.insertDetached node).2.slot? k = f.slot? k := by
    rw [slot?_insertDetached, if_neg other]
  have made : (f.insertDetached node).2.slot? ⟨f.slots.size⟩ = some { node } := by
    rw [slot?_insertDetached, if_pos rfl]
  have root : (f.insertDetached node).2.IsRoot ⟨f.slots.size⟩ := ⟨_, made, rfl⟩
  have placed : (f.insertChild parent node).2 = (f.insertDetached node).2.insertAt parent
      ((f.insertDetached node).2.children parent).length ⟨f.slots.size⟩ := rfl
  rw [placed]
  refine ⟨⟨?_, ?_, ?_⟩, new, ?_⟩
  · exact (grown.insertDetached node).insertAt root (lt_size_of_slot? found)
  · intro slot' found'
    rw [slot?_insertAt_parent root ne, old ne, found', children_eq ((old ne).trans found')]
    simp
  · intro k slot' other found'
    have apart := ne_of_new new found'
    rw [slot?_insertAt_other root ne apart other, old apart, found']
  · rw [slot?_insertAt_child root ne, made]
    rfl

theorem Bears.modify (bears : f.Bears parent g ids) (new : f.slot? id = none)
    (found : f.slot? parent = some slot) (change : Node → Node) :
    f.Bears parent (g.modify id change) ids where
  grown := bears.grown.modify id change
  here slot' found' := by
    rw [slot?_modify, if_neg (ne_of_new new found), bears.here slot' found']
  others k slot' other found' := by
    rw [slot?_modify, if_neg (ne_of_new new found'), bears.others k slot' other found']

end Forest

mutual

/-- The tree of a node says what the node says. -/
def PlainNode.Matches : PlainNode → NodeTree → Prop
  | .text content, .mk node branches =>
    node.kind = .text ∧ node.content = content ∧ branches = []
  | .element tag pairs content, .mk node branches =>
    node.kind = .element ∧ node.name = tag.word ∧
      node.attributes.toList = pairs.map (fun (name, value) => (name.word, value)) ∧
      node.properties = {} ∧ PlainNode.MatchesAll content branches

def PlainNode.MatchesAll : List PlainNode → List NodeTree → Prop
  | [], [] => True
  | node :: nodes, tree :: trees => node.Matches tree ∧ PlainNode.MatchesAll nodes trees
  | _, _ => False

end

/-- The state with another cursor and another forest. -/
def ParseState.moved (s : ParseState) (cursor : Nat) (forest : Forest) : ParseState :=
  { s with cursor, document := { s.document with forest } }

theorem ParseInput.closingBrace?_eq {input : ParseInput} {depth index : Nat}
    (inside : index < input.tokens.size) : input.closingBrace? depth index =
      match (input.token index).kind with
      | .leftBrace => input.closingBrace? (depth + 1) (index + 1)
      | .rightBrace =>
        if depth ≤ 1 then some index else input.closingBrace? (depth - 1) (index + 1)
      | _ => input.closingBrace? depth (index + 1) := by
  have same := getElem?_eq_token inside
  rw [Array.getElem?_eq_getElem inside] at same
  rw [← Option.some.inj same, closingBrace?]
  exact dif_pos inside

namespace Parse

variable {input : ParseInput} {s : ParseState} {word : TokenKind × String}
  {words rest : List (TokenKind × String)}

/-- The words that have not been taken. -/
def ahead (input : ParseInput) (s : ParseState) : List (TokenKind × String) :=
  (input.tokens.toList.drop s.cursor).map Token.word

section

variable (here : ahead input s = words)

include here

theorem lt_of_ahead {i : Nat} (h : i < words.length) : s.cursor + i < input.tokens.size := by
  rw [← here, ahead, List.length_map, List.length_drop, Array.length_toList] at h
  omega

theorem word_of_ahead (i : Nat) (h : words[i]? = some word) :
    (input.token (s.cursor + i)).word = word := by
  have inside := lt_of_ahead here (List.getElem?_eq_some_iff.1 h).1
  rw [← here, ahead, List.getElem?_map, List.getElem?_drop, Array.getElem?_toList,
    ParseInput.getElem?_eq_token inside] at h
  exact Option.some.inj h

theorem kind_of_ahead (i : Nat) (h : words[i]? = some word) :
    (input.token (s.cursor + i)).kind = word.1 := congrArg Prod.fst (word_of_ahead here i h)

theorem text_of_ahead (i : Nat) (h : words[i]? = some word) :
    (input.token (s.cursor + i)).text = word.2 := congrArg Prod.snd (word_of_ahead here i h)

end

/-- Taking a token that is not the last. -/
theorem ahead_advanced (here : ahead input s = word :: rest) (more : rest ≠ []) :
    advanced input s = { s with cursor := s.cursor + 1 } ∧
      ahead input { s with cursor := s.cursor + 1 } = rest := by
  have drop : (input.tokens.toList.drop s.cursor).map Token.word = word :: rest := here
  have inside : s.cursor < input.tokens.size - 1 := by
    have length := congrArg List.length drop
    have := List.length_pos_iff.2 more
    simp only [List.length_map, List.length_drop, Array.length_toList, List.length_cons] at length
    omega
  constructor
  · simp only [advanced, advance_apply, stateOf, if_pos inside]
  · change (input.tokens.toList.drop (s.cursor + 1)).map Token.word = rest
    rw [← List.drop_drop, List.map_drop, drop]
    rfl

theorem peekAt_apply (n : Nat) : peekAt n input s = .ok (input.token (s.cursor + n)) s := rfl

variable {value text : String}

theorem literal_string {mark : String}
    (here : ahead input s = (.string value, text) :: (.semicolon, mark) :: rest) :
    literal true input s = .ok value { s with cursor := s.cursor + 1 } := by
  have first : (input.token s.cursor).kind = .string value := kind_of_ahead here 0 rfl
  have next : (input.token (s.cursor + 1)).kind = .semicolon := kind_of_ahead here 1 rfl
  unfold literal
  rw [peek_bind]
  rw [bind_ok (peekAt_apply ..)]
  rw [first, literalEnds, next]
  simp only [TokenKind.endsStatement, Bool.true_or]
  rw [bind_apply, advance_eq, (ahead_advanced here (by simp)).1]
  rfl

theorem attributeOf_apply (id : NodeId) {name colon mark : String}
    (here : ahead input s = (.identifier, name) :: (.colon, colon) :: (.string value, text) ::
      (.semicolon, mark) :: rest) (more : rest ≠ []) :
    attributeOf id input s = .ok () (s.moved (s.cursor + 4) (s.document.forest.modify id
      fun node => { node with attributes := node.attributes.insert name value })) ∧
      ahead input { s with cursor := s.cursor + 4 } = rest := by
  have first : (input.token s.cursor).text = name := text_of_ahead here 0 rfl
  obtain ⟨taken₁, ahead₁⟩ := ahead_advanced here (by simp)
  obtain ⟨taken₂, ahead₂⟩ := ahead_advanced ahead₁ (by simp)
  obtain ⟨taken₃, ahead₃⟩ := ahead_advanced ahead₂ (by simp)
  obtain ⟨taken₄, ahead₄⟩ := ahead_advanced ahead₃ more
  refine ⟨?_, ahead₄⟩
  unfold attributeOf
  rw [advance_bind, taken₁]
  rw [advance_bind, taken₂]
  rw [bind_ok (literal_string ahead₂)]
  rw [bind_ok (eat_taken (kind_of_ahead ahead₃ 0 rfl)), taken₄]
  rw [first]
  rfl

theorem textBlock_apply {word brace close content : String}
    (here : ahead input s = (.keyword .text, word) :: (.leftBrace, brace) ::
      (.string content, text) :: (.rightBrace, close) :: rest) (more : rest ≠ []) :
    ∃ node, textBlock input s = .ok node { s with cursor := s.cursor + 4 } ∧
      node.kind = .text ∧ node.content = content ∧
      ahead input { s with cursor := s.cursor + 4 } = rest := by
  obtain ⟨taken₁, ahead₁⟩ := ahead_advanced here (by simp)
  obtain ⟨taken₂, ahead₂⟩ := ahead_advanced ahead₁ (by simp)
  obtain ⟨taken₃, ahead₃⟩ := ahead_advanced ahead₂ (by simp)
  obtain ⟨taken₄, ahead₄⟩ := ahead_advanced ahead₃ more
  have inside : s.cursor + 3 < input.tokens.size := lt_of_ahead here (by simp)
  have brace : (input.token (s.cursor + 1)).kind = .leftBrace := kind_of_ahead here 1 rfl
  have string : (input.token (s.cursor + 2)).kind = .string content := kind_of_ahead here 2 rfl
  have close : (input.token (s.cursor + 3)).kind = .rightBrace := kind_of_ahead here 3 rfl
  have closed : input.closingBrace? 0 (s.cursor + 1) = some (s.cursor + 3) := by
    rw [ParseInput.closingBrace?_eq (by omega), brace]
    dsimp only
    rw [ParseInput.closingBrace?_eq (by omega), string]
    dsimp only
    rw [ParseInput.closingBrace?_eq inside, close]
    rfl
  refine ⟨{ kind := .text
            content
            scope := s.document.symbols.currentScope
            span := (input.token s.cursor).span }, ?_, rfl, rfl, ahead₄⟩
  unfold textBlock
  rw [advance_bind, taken₁]
  rw [bind_ok (cursor_apply ..)]
  rw [bind_apply]
  unfold matchingBrace
  rw [bind_ok (read_apply ..)]
  rw [closed]
  dsimp only
  rw [pure_apply]
  dsimp only
  rw [bind_ok (tokenAt_apply _ (by omega))]
  rw [string]
  simp
  rfl

/-- Nodes have been read and put below `parent`, and nothing else has changed. -/
structure Put (input : ParseInput) (s : ParseState) (parent : NodeId)
    (rest : List (TokenKind × String)) (nodes : List PlainNode) (s' : ParseState) : Prop where
  moved : ∃ cursor forest, s' = s.moved cursor forest
  ahead : ahead input s' = rest
  grows : ∃ ids trees, s.document.forest.Bears parent s'.document.forest ids ∧
    s'.document.forest.Shows ids trees ∧ PlainNode.MatchesAll nodes trees

variable {parent id : NodeId} {slot : Slot} {node : PlainNode} {nodes : List PlainNode}
  {levels : Nat} {s' : ParseState}

theorem Put.depth (put : Put input s parent rest nodes s') : s'.depth = s.depth := by
  obtain ⟨cursor, forest, rfl⟩ := put.moved
  rfl

/-- Nodes that are read one level deeper are put as they would be here. -/
theorem deeper_put {α : Type} {block : Parse α} {a : α} (room : s.depth < input.maxDepth)
    (run : block input { s with depth := s.depth + 1 } = .ok a s')
    (put : Put input { s with depth := s.depth + 1 } parent rest nodes s') :
    ∃ after, deeper block input s = .ok a after ∧ Put input s parent rest nodes after := by
  obtain ⟨cursor, forest, rfl⟩ := put.moved
  refine ⟨s.moved cursor forest, ?_, ⟨cursor, forest, rfl⟩, put.ahead, put.grows⟩
  unfold deeper
  rw [if_neg (by omega), run]
  rfl

theorem Put.nil (grown : s.document.forest.Grown) (here : Parse.ahead input s = rest) :
    Put input s parent rest [] s :=
  ⟨⟨s.cursor, s.document.forest, rfl⟩, here, [], [], .refl grown, rfl, trivial⟩

theorem Put.cons {middle : ParseState} (first : Put input s parent words [node] middle)
    (second : Put input middle parent rest nodes s')
    (found : s.document.forest.slot? parent = some slot) :
    Put input s parent rest (node :: nodes) s' := by
  obtain ⟨reached, between, rfl⟩ := first.moved
  obtain ⟨ids, trees, bears, shown, same⟩ := first.grows
  obtain ⟨cursor, forest, rfl⟩ := second.moved
  obtain ⟨ids', trees', bears', shown', same'⟩ := second.grows
  have links : ∀ id ∈ ids, id ∈ (s.moved reached between).document.forest.children parent := by
    intro id member
    rw [Forest.children_eq (bears.here slot found)]
    exact List.mem_append_right _ member
  refine ⟨⟨cursor, forest, rfl⟩, second.ahead, ids ++ ids', trees ++ trees', bears.trans bears',
    (bears'.shows bears.grown shown links).append shown', ?_⟩
  match trees, same with
  | [tree], same => exact ⟨same.1, same'⟩

theorem cursor_lt_of_ahead (here : ahead input s = words ++ rest) (taken : words ≠ [])
    (behind : ahead input s' = rest) : s.cursor < s'.cursor := by
  have before := congrArg List.length here
  have after := congrArg List.length behind
  have := List.length_pos_iff.2 taken
  simp only [ahead, List.length_map, List.length_drop, Array.length_toList, List.length_append]
    at before after
  omega

/-- A node is read as an item of an element. -/
def IsItem (input : ParseInput) (levels : Nat) (node : PlainNode) : Prop :=
  ∀ ⦃s : ParseState⦄ ⦃parent : NodeId⦄ ⦃slot : Slot⦄ ⦃rest : List (TokenKind × String)⦄,
    ahead input s = node.words ++ rest → rest ≠ [] → s.document.forest.Grown →
    s.document.forest.slot? parent = some slot → s.depth + levels ≤ input.maxDepth →
    ∃ s', elementItem (nested levels) parent input s = .ok () s' ∧
      Put input s parent rest [node] s'

theorem PlainNode.words_head (node : PlainNode) : ∃ kind text words,
    node.words = (kind, text) :: words ∧ kind ≠ .rightBrace ∧ kind ≠ .eof := by
  cases node with
  | text content => exact ⟨_, _, _, rfl, by simp, by simp⟩
  | element tag pairs content =>
    rw [PlainNode.words]
    exact ⟨_, _, _, rfl, by simp, by simp⟩

/-- An item that takes a token is followed by the next one. -/
theorem repeat_bodyStep {item : Parse Unit} {word : TokenKind × String}
    {words : List (TokenKind × String)} (here : ahead input s = word :: words ++ rest)
    (brace : word.1 ≠ .rightBrace) (eof : word.1 ≠ .eof)
    (run : item input s = .ok () s') (behind : ahead input s' = rest) :
    repeatStep (bodyStep item) input s = repeatStep (bodyStep item) input s' := by
  have kind : (input.token s.cursor).kind = word.1 := kind_of_ahead here 0 rfl
  have inside : s.cursor < input.tokens.size := lt_of_ahead here (i := 0) (by simp)
  conv => lhs; rw [repeatStep_eq]
  rw [bodyStep_apply, if_neg (by simp [kind, brace, eof]), run]
  dsimp only
  rw [if_pos ⟨cursor_lt_of_ahead here (by simp) behind, inside⟩]

theorem repeat_nodes (items : ∀ node ∈ nodes, IsItem input levels node)
    (here : ahead input s = PlainNode.wordsAll nodes ++ rest) (more : rest ≠ [])
    (grown : s.document.forest.Grown) (found : s.document.forest.slot? id = some slot)
    (room : s.depth + levels ≤ input.maxDepth) :
    ∃ s', repeatStep (bodyStep (elementItem (nested levels) id)) input s =
        repeatStep (bodyStep (elementItem (nested levels) id)) input s' ∧
      Put input s id rest nodes s' := by
  induction nodes generalizing s slot with
  | nil => exact ⟨s, rfl, .nil grown here⟩
  | cons node nodes ih =>
    rw [PlainNode.wordsAll, List.append_assoc] at here
    obtain ⟨middle, run, put⟩ := items node (.head _) here (by simp [more]) grown found room
    obtain ⟨kind, text, words, split, brace, eof⟩ := PlainNode.words_head node
    rw [split] at here
    have step := repeat_bodyStep here brace eof run put.ahead
    obtain ⟨ids, trees, bears, -⟩ := put.grows
    obtain ⟨s', run', put'⟩ := ih (fun node member => items node (.tail _ member)) put.ahead
      bears.grown (bears.here slot found) (by rwa [put.depth])
    exact ⟨s', step.trans run', put.cons put' found⟩

/-- The forest with attributes written at a node. -/
def withAttributes (id : NodeId) (pairs : List (PlainName × String)) (forest : Forest) : Forest :=
  pairs.foldl (fun forest (name, value) => forest.modify id fun node =>
    { node with attributes := node.attributes.insert name.word value }) forest

theorem elementItem_attribute {name : PlainName}
    (here : ahead input s = attributeWords (name, value) ++ rest) (more : rest ≠ []) :
    elementItem (nested levels) id input s = .ok ()
      (s.moved (s.cursor + 4) (withAttributes id [(name, value)] s.document.forest)) ∧
      ahead input { s with cursor := s.cursor + 4 } = rest := by
  have first : (input.token s.cursor).kind = .identifier := kind_of_ahead here 0 rfl
  have next : (input.token (s.cursor + 1)).kind = .colon := kind_of_ahead here 1 rfl
  obtain ⟨run, behind⟩ := attributeOf_apply id here more
  refine ⟨?_, behind⟩
  unfold elementItem
  rw [peek_bind]
  rw [bind_ok (peekAt_apply ..)]
  rw [first, next]
  simp only [Bool.and_eq_true, beq_iff_eq, reduceCtorEq, and_self, if_false, TokenKind.isAssign,
    Bool.true_and, Token.isName, TokenKind.isName, first, Bool.and_self, if_true]
  exact run

variable {pairs : List (PlainName × String)}

theorem repeat_attributes (levels : Nat) (id : NodeId)
    (here : ahead input s = pairs.flatMap attributeWords ++ rest) (more : rest ≠ []) :
    ∃ cursor, repeatStep (bodyStep (elementItem (nested levels) id)) input s =
        repeatStep (bodyStep (elementItem (nested levels) id)) input
          (s.moved cursor (withAttributes id pairs s.document.forest)) ∧
      ahead input { s with cursor } = rest := by
  induction pairs generalizing s with
  | nil => exact ⟨s.cursor, rfl, here⟩
  | cons pair pairs ih =>
    rw [List.flatMap_cons, List.append_assoc] at here
    obtain ⟨run, behind⟩ := elementItem_attribute here (by simp [more])
    have step := repeat_bodyStep here (by simp) (by simp) run behind
    obtain ⟨cursor, run', behind'⟩ :=
      ih (s := s.moved (s.cursor + 4) (withAttributes id [pair] s.document.forest)) behind
    exact ⟨cursor, step.trans run', behind'⟩

theorem put_child (here : ahead input s' = rest) {cursor : Nat} (moved : s' = { s with cursor })
    (grown : s.document.forest.Grown) (found : s.document.forest.slot? parent = some slot)
    {child : Node} (same : node.Matches (.mk child [])) :
    ∃ id after, addNode (some parent) child input s' = .ok id after ∧
      Put input s parent rest [node] after := by
  subst moved
  obtain ⟨bears, -, made⟩ := Forest.bears_insertChild grown found child
  refine ⟨_, _, rfl, ⟨cursor, _, rfl⟩, here, [_], [_], bears, ?_, same, trivial⟩
  exact Forest.shows_singleton.2 (bears.grown.tree?_of_slot? made)

theorem isItem_text (content : String) : IsItem input levels (.text content) := by
  intro s parent slot rest here more grown found _
  obtain ⟨child, run, kind, same, behind⟩ := textBlock_apply here more
  have first : (input.token s.cursor).kind = .keyword .text := kind_of_ahead here 0 rfl
  have next : (input.token (s.cursor + 1)).kind = .leftBrace := kind_of_ahead here 1 rfl
  have matches_ : (PlainNode.text content).Matches (.mk child []) := ⟨kind, same, rfl⟩
  obtain ⟨id, after, added, put⟩ := put_child behind rfl grown found matches_
  refine ⟨after, ?_, put⟩
  unfold elementItem
  rw [peek_bind]
  rw [bind_ok (peekAt_apply ..)]
  rw [first, next]
  simp only [beq_self_eq_true, Bool.and_self, if_true]
  rw [bind_ok run]
  rw [bind_apply, added]
  rfl

variable {f : Forest}

theorem slot?_withAttributes (pairs : List (PlainName × String))
    (found : f.slot? id = some slot) : (withAttributes id pairs f).slot? id = some
      { slot with
        node := { slot.node with
          attributes := slot.node.attributes.insertAll
            (pairs.map fun (name, value) => (name.word, value)) } } := by
  induction pairs generalizing f slot with
  | nil => exact found
  | cons pair pairs ih =>
    obtain ⟨name, value⟩ := pair
    have step : (withAttributes id [(name, value)] f).slot? id = some
        { slot with
          node := { slot.node with
            attributes := slot.node.attributes.insert name.word value } } := by
      rw [withAttributes, List.foldl_cons, List.foldl_nil, Forest.slot?_modify, if_pos rfl, found]
      rfl
    exact ih step

theorem grown_withAttributes (pairs : List (PlainName × String)) (grown : f.Grown) :
    (withAttributes id pairs f).Grown := by
  induction pairs generalizing f with
  | nil => exact grown
  | cons pair pairs ih => exact ih (grown.modify id _)

theorem bears_withAttributes {g : Forest} {ids : List NodeId}
    (pairs : List (PlainName × String)) (bears : f.Bears parent g ids) (new : f.slot? id = none)
    (found : f.slot? parent = some slot) : f.Bears parent (withAttributes id pairs g) ids := by
  induction pairs generalizing g with
  | nil => exact bears
  | cons pair pairs ih => exact ih (bears.modify new found _)

theorem repeat_close {item : Parse Unit} (here : ahead input s = (.rightBrace, text) :: rest) :
    repeatStep (bodyStep item) input s = .ok () s := by
  have kind : (input.token s.cursor).kind = .rightBrace := kind_of_ahead here 0 rfl
  rw [repeatStep_eq, bodyStep_apply, if_pos (.inl kind)]

theorem expect_taken {kind : TokenKind} (what : String)
    (here : ahead input s = (kind, text) :: rest) (more : rest ≠ []) :
    expect kind what input s =
      .ok (input.token s.cursor) { s with cursor := s.cursor + 1 } := by
  have same : (input.token s.cursor).kind = kind := kind_of_ahead here 0 rfl
  unfold expect
  rw [bind_ok (check_apply ..)]
  rw [if_pos (beq_iff_eq.2 same), advance_eq, (ahead_advanced here more).1]

/-- The body of an element is read up to its closing brace. -/
theorem body_apply {close : String}
    (items : ∀ node ∈ nodes, IsItem input levels node)
    (here : ahead input s = pairs.flatMap attributeWords ++ (PlainNode.wordsAll nodes ++
      (.rightBrace, close) :: rest))
    (grown : s.document.forest.Grown) (found : s.document.forest.slot? id = some slot)
    (room : s.depth + levels ≤ input.maxDepth) :
    ∃ cursor forest ids trees,
      repeatStep (bodyStep (elementItem (nested levels) id)) input s =
        .ok () (s.moved cursor forest) ∧
      ahead input (s.moved cursor forest) = (.rightBrace, close) :: rest ∧
      (withAttributes id pairs s.document.forest).Bears id forest ids ∧
      forest.Shows ids trees ∧ PlainNode.MatchesAll nodes trees := by
  obtain ⟨cursor, run, behind⟩ := repeat_attributes levels id here (by simp)
  obtain ⟨s', run', put⟩ := repeat_nodes items behind (by simp)
    (s := s.moved cursor (withAttributes id pairs s.document.forest))
    (grown_withAttributes pairs grown) (slot?_withAttributes pairs found) room
  obtain ⟨cursor', forest, rfl⟩ := put.moved
  obtain ⟨ids, trees, bears, shown, same⟩ := put.grows
  exact ⟨cursor', forest, ids, trees, (run.trans run').trans (repeat_close put.ahead), put.ahead,
    bears, shown, same⟩

/-- An element whose content can be read is read. -/
theorem element_apply {tag : PlainName}
    {content : List PlainNode} (lax : input.strict = false)
    (distinct : (pairs.map fun a => a.1.word).Nodup)
    (items : ∀ node ∈ content, IsItem input levels node)
    (here : ahead input s = (PlainNode.element tag pairs content).words ++ rest) (more : rest ≠ [])
    (grown : s.document.forest.Grown) (found : s.document.forest.slot? parent = some slot)
    (room : s.depth + levels ≤ input.maxDepth) :
    ∃ id s', elementWith (nested levels) (some parent) input s = .ok id s' ∧
      Put input s parent rest [.element tag pairs content] s' := by
  rw [PlainNode.words, List.cons_append, List.cons_append, List.append_assoc, List.append_assoc]
    at here
  have text : (input.token s.cursor).text = tag.word := text_of_ahead here 0 rfl
  have kind : (input.token s.cursor).kind = .identifier := kind_of_ahead here 0 rfl
  have isName : (input.token s.cursor).isName := by
    rw [Token.isName, kind]
    rfl
  obtain ⟨taken, behindName⟩ := ahead_advanced here (by simp)
  -- the element is put below its parent before its body is read
  obtain ⟨child, child_eq⟩ : ∃ child : Node, child =
    { kind := .element
      name := tag.word
      scope := s.document.symbols.currentScope
      span := (input.token s.cursor).span } := ⟨_, rfl⟩
  obtain ⟨bears, new, made⟩ := Forest.bears_insertChild grown found child
  generalize placed : s.document.forest.insertChild parent child = pair at bears made
  obtain ⟨id, f⟩ := pair
  have id_eq : id = ⟨s.document.forest.slots.size⟩ := (congrArg Prod.fst placed).symm
  rw [← id_eq] at bears new made
  have opened := (ahead_advanced (s := s.moved (s.cursor + 1) f) behindName (by simp)).2
  obtain ⟨cursor, g, ids, trees, run, behind, inner, shown, same⟩ :=
    body_apply items opened bears.grown made room
  have closing := ahead_advanced behind more
  have whole : s.document.forest.Bears parent g [id] :=
    (bears_withAttributes pairs bears new found).inside new found inner
  have tree := inner.grown.tree?_of_slot? (inner.here _ (slot?_withAttributes pairs made))
  dsimp only at tree
  rw [List.nil_append, shown.filterMap] at tree
  refine ⟨id, s.moved (cursor + 1) g, ?_, ⟨_, _, rfl⟩, closing.2, [id], [_], whole,
    Forest.shows_singleton.2 tree, ?_⟩
  · have added : addNode (some parent) child input { s with cursor := s.cursor + 1 } =
        .ok id (s.moved (s.cursor + 1) f) := by
      change EStateM.Result.ok (s.document.forest.insertChild parent child).1
        (s.moved (s.cursor + 1) (s.document.forest.insertChild parent child).2) = _
      rw [placed]
    unfold elementWith
    rw [bind_ok (expectName_apply _ isName), taken]
    rw [bind_apply, read_apply]
    dsimp only
    rw [lax, Bool.false_and, if_neg (by simp), bind_ok (currentScope_apply ..)]
    rw [text, ← child_eq, bind_ok added]
    rw [bind_ok (expect_taken (s := s.moved (s.cursor + 1) f) _ behindName (by simp))]
    rw [bind_ok run]
    rw [bind_apply, expect_taken _ behind more]
    rfl
  · subst child_eq
    refine ⟨⟨rfl, rfl, ?_, rfl, same⟩, trivial⟩
    refine OrderedMap.toList_insertAll ?_
    rw [List.map_map]
    exact distinct

/-- A name before a brace opens an element. -/
theorem elementItem_name (first : (input.token s.cursor).kind = .identifier)
    (next : (input.token (s.cursor + 1)).kind = .leftBrace) :
    elementItem (nested levels) id input s =
      ((nested levels).element (some id) >>= fun _ => pure ()) input s := by
  unfold elementItem
  rw [peek_bind]
  rw [bind_ok (peekAt_apply ..)]
  rw [first, next]
  simp only [Bool.and_eq_true, beq_iff_eq, reduceCtorEq, and_false, if_false,
    TokenKind.isAssign, Token.isName, TokenKind.isName, first, and_self, if_true]

/-- Every proper node is read as an item. -/
theorem isItem_of_proper (lax : input.strict = false) (proper : node.Proper levels) :
    IsItem input levels node := by
  induction proper with
  | text content => exact isItem_text content
  | @element levels tag pairs content distinct single inside ih =>
    intro s parent slot rest here more grown found room
    obtain ⟨id, s₁, inner, put⟩ := element_apply (s := { s with depth := s.depth + 1 }) lax distinct
      ih here more grown found (by dsimp only; omega)
    obtain ⟨s', run, put⟩ := deeper_put (by omega) inner put
    refine ⟨s', ?_, put⟩
    rw [PlainNode.words] at here
    have first : (input.token s.cursor).kind = .identifier := kind_of_ahead here 0 rfl
    have next : (input.token (s.cursor + 1)).kind = .leftBrace := kind_of_ahead here 1 rfl
    have nestedRun : (nested (levels + 1)).element (some parent) input s = .ok id s' := run
    rw [elementItem_name first next, bind_ok nestedRun]
    rfl

theorem Put.seen (put : Put input s parent rest nodes s') (seenContent : Bool) :
    Put input { s with seenContent } parent rest nodes { s' with seenContent } := by
  obtain ⟨cursor, forest, rfl⟩ := put.moved
  exact ⟨⟨cursor, forest, rfl⟩, put.ahead, put.grows⟩

/-- What opens a text or an element is read as it would be in an element. -/
theorem item_open (opens : (input.token s.cursor).kind = .keyword .text ∨
      (input.token s.cursor).kind = .identifier)
    (next : (input.token (s.cursor + 1)).kind = .leftBrace) :
    item levels parent input s =
      elementItem (nested levels) parent input { s with seenContent := true } := by
  rw [item_eq, bind_ok (peekKind_apply ..)]
  rcases opens with first | first
  all_goals
    rw [first]
    dsimp only
    rw [bind_apply]
    change contentItem levels (bodyAt levels) parent input { s with seenContent := true } = _
    unfold contentItem elementItem
    rw [peek_bind, peek_bind, bind_ok (nextIs_apply ..), bind_ok (peekAt_apply ..)]
    rw [first, next]
    simp [Token.isName, TokenKind.isName, TokenKind.isAssign, first]

/-- A proper node is read as an item of a document. -/
theorem item_put (lax : input.strict = false) (proper : node.Proper levels)
    (here : ahead input s = node.words ++ rest) (more : rest ≠ [])
    (grown : s.document.forest.Grown) (found : s.document.forest.slot? parent = some slot)
    (room : s.depth + levels ≤ input.maxDepth) :
    ∃ s', item levels parent input s = .ok () s' ∧
      Put input { s with seenContent := true } parent rest [node] s' := by
  have opens : ((input.token s.cursor).kind = .keyword .text ∨
      (input.token s.cursor).kind = .identifier) ∧
      (input.token (s.cursor + 1)).kind = .leftBrace := by
    cases proper with
    | text => exact ⟨.inl (kind_of_ahead here 0 rfl), kind_of_ahead here 1 rfl⟩
    | element =>
      rw [PlainNode.words] at here
      exact ⟨.inr (kind_of_ahead here 0 rfl), kind_of_ahead here 1 rfl⟩
  rw [item_open opens.1 opens.2]
  exact isItem_of_proper lax proper (s := { s with seenContent := true }) here more grown found room

/-- Proper nodes are read one after the other, up to the end. -/
theorem items_put (errors : List ParseError) {last : String} (lax : input.strict = false)
    (proper : ∀ node ∈ nodes, node.Proper input.maxDepth)
    (here : ahead input s = PlainNode.wordsAll nodes ++ [(.eof, last)])
    (grown : s.document.forest.Grown) (found : s.document.forest.slot? Forest.root = some slot)
    (outside : s.depth = 0) :
    ∃ s', items errors input s = (errors, s') ∧
      Put input s Forest.root [(.eof, last)] nodes { s' with seenContent := s.seenContent } := by
  induction nodes generalizing s slot with
  | nil =>
    have eof : (input.token s.cursor).kind = .eof := kind_of_ahead here 0 rfl
    refine ⟨s, ?_, .nil grown here⟩
    rw [items, eof]
    rfl
  | cons node nodes ih =>
    rw [PlainNode.wordsAll, List.append_assoc] at here
    obtain ⟨middle, run, put⟩ := item_put lax (proper node (.head _)) here (by simp) grown found
      (by omega)
    obtain ⟨ids, trees, bears, -⟩ := put.grows
    obtain ⟨s', run', put'⟩ := ih (fun node member => proper node (.tail _ member)) put.ahead
      bears.grown (bears.here slot found) (put.depth.trans outside)
    have first := put.seen s.seenContent
    have second := put'.seen s.seenContent
    refine ⟨s', ?_, first.cons second found⟩
    obtain ⟨kind, text, words, split, brace, eof⟩ := PlainNode.words_head node
    rw [split] at here
    have kind_eq : (input.token s.cursor).kind = kind := kind_of_ahead here 0 rfl
    have inside : s.cursor < input.tokens.size := lt_of_ahead here (i := 0) (by simp)
    rw [items, kind_eq, if_neg (by simpa using eof), run]
    dsimp only
    rw [if_pos ⟨cursor_lt_of_ahead here (by simp) put.ahead, inside⟩, run']

end Parse

variable {tokens : List Token}

/-- Simple tokens that end with the end are all kept. -/
theorem ParseInput.tokens_ofTokens (source : String)
    {words : List (TokenKind × String)}
    (simple : ∀ token ∈ tokens, token.kind.isSimple = true)
    (ends : tokens.map Token.word = words ++ [(.eof, "")]) (options : ParseOptions) :
    (ParseInput.ofTokens source tokens options).tokens.toList = tokens := by
  have kept : tokens.filter (fun token => !token.kind.isPlainComment) = tokens := by
    refine List.filter_eq_self.2 fun token member => ?_
    have := simple token member
    revert this
    cases token.kind <;> simp [TokenKind.isSimple, TokenKind.isPlainComment]
  obtain ⟨front, back, rfl, -, same⟩ := List.map_eq_append_iff.1 ends
  obtain ⟨last, rfl, eof⟩ := List.map_eq_singleton_iff.1 same
  simp only [ofTokens, kept]
  rw [closed_append_eof _ _ (congrArg Prod.fst eof)]

theorem ParseInput.ahead_ofTokens (source : String)
    {words : List (TokenKind × String)}
    (simple : ∀ token ∈ tokens, token.kind.isSimple = true)
    (ends : tokens.map Token.word = words ++ [(.eof, "")]) (options : ParseOptions)
    (s : ParseState) (start : s.cursor = 0) :
    Parse.ahead (ParseInput.ofTokens source tokens options) s = words ++ [(.eof, "")] := by
  rw [Parse.ahead, tokens_ofTokens source simple ends, start, List.drop_zero, ends]

/-- A parse that activates nothing gives what its items give. -/
theorem ParseResult.ofTokens_of_items {source : String}
    {symbols : SymbolTable} {options : ParseOptions} {errors : List ParseError} {s : ParseState}
    (run : Parse.items [] (ParseInput.ofTokens source tokens options) { document := { symbols } } =
      (errors, s)) (quiet : s.activations = []) :
    ParseResult.ofTokens source tokens symbols options =
      { document := { s.document with symbols := s.document.symbols.exitAll }
        errors := errors.reverse
        warnings := s.warnings.reverse
        inRange := s.inRange
        stalled := s.stalled } := by
  unfold ParseResult.ofTokens
  dsimp only
  rw [run]
  dsimp only
  rw [quiet, List.reverse_nil, Parse.activateAll, List.foldl_nil, List.append_nil]

/-- The words of proper nodes are parsed without a complaint, and the trees of the document are
those of the nodes. -/
theorem ParseResult.ofTokens_words {nodes : List PlainNode} (source : String)
    (simple : ∀ token ∈ tokens, token.kind.isSimple = true)
    (words : tokens.map Token.word = PlainNode.wordsAll nodes ++ [(.eof, "")])
    (options : ParseOptions) (lax : options.strict = false)
    (proper : ∀ node ∈ nodes, node.Proper options.maxDepth) (config : Config) :
    let parsed := ParseResult.ofTokens source tokens { config } options
    parsed.errors = [] ∧ parsed.warnings = [] ∧ parsed.document.symbols.html5 = false ∧
      ∃ trees, parsed.document.forest.tree? Forest.root =
          some (.mk { kind := .document } trees) ∧ PlainNode.MatchesAll nodes trees := by
  let start : ParseState := { document := { symbols := { config } } }
  have sound : start.document.Sound [Forest.root] [] := Document.sound_empty rfl rfl
  have here := ParseInput.ahead_ofTokens source simple words options start rfl
  obtain ⟨s', run, put⟩ := Parse.items_put [] lax proper here sound.grown rfl rfl
  obtain ⟨cursor, forest, same⟩ := put.moved
  obtain ⟨ids, trees, bears, shown, said⟩ := put.grows
  have warnings : s'.warnings = [] := congrArg ParseState.warnings same
  have activations : s'.activations = [] := congrArg ParseState.activations same
  have symbols : s'.document.symbols = { config } := congrArg (·.document.symbols) same
  intro parsed
  have parsed_eq : parsed = _ := ParseResult.ofTokens_of_items run activations
  have tree := bears.grown.tree?_of_slot? (bears.here _ rfl)
  dsimp only at tree
  rw [List.nil_append, shown.filterMap] at tree
  rw [parsed_eq, warnings, symbols]
  exact ⟨rfl, rfl, rfl, trees, tree, said⟩

end TemplateMarkup
