import TemplateMarkup.Proofs.ForestWalks
import TemplateMarkup.Proofs.NestedSources

/-! Elements in one another, as deep as the limit or deeper. Up to the limit their source is parsed
and compiled as it stands; beyond it the first element too deep is the one error, and the rest of
the source is passed over. -/
namespace TemplateMarkup

namespace Parse

open NestedDocument

variable {input : ParseInput} {s : ParseState} {rest words : List (TokenKind × String)}
  {word : TokenKind × String} {depth : Int}

section Recovery

/-- Where recovery comes to from a token of a kind. -/
def resumeAt (input : ParseInput) (depth : Int) (index : Nat) : TokenKind → Nat
  | .eof => index
  | .leftBrace => resume input (depth + 1) (index + 1)
  | .rightBrace => if depth ≤ 1 then index + 1 else resume input (depth - 1) (index + 1)
  | .semicolon => if depth ≤ 0 then index + 1 else resume input depth (index + 1)
  | _ => resume input depth (index + 1)

theorem resume_eq (here : ahead input s = word :: rest) (more : rest ≠ []) :
    resume input depth s.cursor = resumeAt input depth s.cursor word.1 := by
  have kind : (input.token s.cursor).kind = word.1 := kind_of_ahead here 0 rfl
  have inside : s.cursor + 1 < input.tokens.size :=
    lt_of_ahead here (i := 1) (by simpa using List.length_pos_iff.2 more)
  rw [resume, dif_pos inside, kind]
  rfl

theorem ahead_behind (here : ahead input s = words ++ rest) :
    ahead input { s with cursor := s.cursor + words.length } = rest := by
  have drop : (input.tokens.toList.drop s.cursor).map Token.word = words ++ rest := here
  change (input.tokens.toList.drop (s.cursor + words.length)).map Token.word = rest
  rw [← List.drop_drop, List.map_drop, drop, List.drop_left]

theorem resume_opening (depth : Int) (here : ahead input s = openingWords ++ rest)
    (more : rest ≠ []) :
    resume input depth s.cursor = resume input (depth + 1) (s.cursor + 2) := by
  rw [resume_eq here (by simp)]
  exact resume_eq (ahead_advanced here (by simp)).2 more

theorem resume_close (here : ahead input s = (.rightBrace, "\x7d") :: rest) (more : rest ≠ [])
    (inside : 1 ≤ depth) :
    resume input (depth + 1) s.cursor = resume input depth (s.cursor + 1) := by
  rw [resume_eq here more, resumeAt, if_neg (by omega), Int.add_sub_cancel]

/-- Recovery passes over elements in one another that stand in a block. -/
theorem resume_tower (n : Nat) (here : ahead input s = (tower n).words ++ rest) (more : rest ≠ [])
    (inside : 1 ≤ depth) :
    resume input depth s.cursor = resume input depth (s.cursor + (tower n).words.length) := by
  induction n generalizing s rest depth with
  | zero =>
    rw [tower, PlainNode.words] at here ⊢
    have word := (ahead_advanced here (by simp)).2
    have brace := (ahead_advanced word (by simp)).2
    have string := (ahead_advanced brace (by simp)).2
    rw [resume_eq here (by simp)]
    refine (resume_eq word (by simp)).trans ?_
    refine (resume_eq brace (by simp)).trans ?_
    exact resume_close string more inside
  | succ n ih =>
    rw [words_tower_succ, List.append_assoc, List.append_assoc] at here
    have inner := ahead_behind here
    have behind := ahead_behind inner
    have deeper : 1 ≤ depth + 1 := by omega
    rw [length_tower_succ, ← Nat.add_assoc, ← Nat.add_assoc, resume_opening depth here (by simp)]
    exact (ih inner (by simp) deeper).trans (resume_close behind more inside)

theorem resume_closings (n : Nat)
    (here : ahead input s = List.replicate (n + 1) (.rightBrace, "\x7d") ++ rest)
    (more : rest ≠ []) : resume input (n + 1) s.cursor = s.cursor + (n + 1) := by
  induction n generalizing s with
  | zero =>
    rw [resume_eq here more]
    rfl
  | succ n ih =>
    rw [List.replicate_succ, List.cons_append] at here
    have behind := (ahead_advanced here (by simp)).2
    have inside : 1 ≤ (n : Int) + 1 := by omega
    have step := resume_close here (by simp) inside
    have rest := ih (s := { s with cursor := s.cursor + 1 }) behind
    rw [Int.natCast_add]
    refine step.trans (rest.trans ?_)
    dsimp only
    omega

/-- Behind a failure in elements in one another, parsing goes on behind the outermost of them. -/
theorem resume_failed (opened : Nat) {n : Nat} (pos : 0 < n) (here : ahead input s =
      (tower n).words ++ (List.replicate opened (.rightBrace, "\x7d") ++ rest))
    (more : rest ≠ []) :
    resume input opened s.cursor = s.cursor + ((tower n).words.length + opened) := by
  cases opened with
  | zero =>
    obtain ⟨n, rfl⟩ : ∃ m, n = m + 1 := ⟨n - 1, by omega⟩
    rw [words_tower_succ, List.append_assoc, List.append_assoc] at here
    have inner := ahead_behind here
    have behind := ahead_behind inner
    rw [length_tower_succ, resume_opening _ here (by simp)]
    refine (resume_tower n inner (by simp) (Int.le_refl 1)).trans ((resume_eq behind more).trans ?_)
    dsimp only [resumeAt, List.length_cons, List.length_nil]
    rw [if_pos (Int.le_refl _)]
    omega
  | succ opened =>
    have inside : 1 ≤ ((opened + 1 : Nat) : Int) := by omega
    rw [resume_tower n here (by simp) inside]
    refine (resume_closings opened (ahead_behind here) more).trans ?_
    dsimp only
    omega

theorem braceBalance_openings (n : Nat) {tokens : List Token}
    (words : tokens.map Token.word = (List.range n).flatMap fun _ => openingWords) :
    braceBalance tokens = n := by
  induction n generalizing tokens with
  | zero =>
    rw [List.map_eq_nil_iff.1 words]
    rfl
  | succ n ih =>
    rw [List.range_succ, List.flatMap_append, List.flatMap_singleton] at words
    obtain ⟨front, back, rfl, first, last⟩ := List.map_eq_append_iff.1 words
    obtain ⟨name, back, rfl, word, last⟩ := List.map_eq_cons_iff.1 last
    obtain ⟨brace, rfl, word'⟩ := List.map_eq_singleton_iff.1 last
    have name_kind : name.kind = .identifier := congrArg Prod.fst word
    have brace_kind : brace.kind = .leftBrace := congrArg Prod.fst word'
    have before := ih first
    rw [braceBalance] at before
    rw [braceBalance, List.foldl_append, before]
    simp [name_kind, brace_kind]

theorem recovery_tower {opened n : Nat} (pos : 0 < n)
    (here : ahead input s = (List.range opened).flatMap (fun _ => openingWords) ++
      ((tower n).words ++ (List.replicate opened (.rightBrace, "\x7d") ++ rest)))
    (more : rest ≠ []) :
    recovery input s.cursor (s.cursor + 2 * opened) =
      s.cursor + (2 * opened + ((tower n).words.length + opened)) := by
  have length : ((List.range opened).flatMap fun _ => openingWords).length = 2 * opened := by
    simp [Nat.mul_comm]
  have inner := ahead_behind here
  rw [length] at inner
  have taken : (input.tokens.toList.extract s.cursor (s.cursor + 2 * opened)).map Token.word =
      (List.range opened).flatMap fun _ => openingWords := by
    have drop : (input.tokens.toList.drop s.cursor).map Token.word = _ := here
    rw [List.extract_eq_take_drop, Nat.add_sub_cancel_left, List.map_take, drop, ← length,
      List.take_left]
  rw [recovery, braceBalance_openings opened taken, if_neg, resume_failed opened pos inner more]
  · dsimp only
    omega
  · simp only [Bool.and_eq_true, decide_eq_true_eq]
    omega

end Recovery

section Failing

variable {α : Type}

/-- The error at an element that stands too deep, and what has not changed before it. -/
def Stops (input : ParseInput) (s : ParseState) (index : Nat)
    (result : EStateM.Result ParseError ParseState α) : Prop :=
  ∃ s', result = .error ⟨.nestingTooDeep input.maxDepth, (input.token index).span⟩ s' ∧
    s'.cursor = index ∧ s'.warnings = s.warnings ∧ s'.activations = s.activations

variable {index : Nat} {t : ParseState}

theorem Stops.bind {β : Type} {x : Parse α} (f : α → Parse β)
    (stops : Stops input s index (x input t)) : Stops input s index ((x >>= f) input t) := by
  obtain ⟨s', run, kept⟩ := stops
  refine ⟨s', ?_, kept⟩
  rw [bind_apply, run]

theorem exists_addNode (input : ParseInput) (s : ParseState) (parent : Option NodeId)
    (node : Node) (cursor : Nat) : ∃ id forest,
    addNode parent node input { s with cursor } = .ok id (s.moved cursor forest) := by
  cases parent with
  | none | some => exact ⟨_, _, rfl⟩

theorem repeatStep_stops {step : Parse Bool} (stops : Stops input s index (step input t)) :
    Stops input s index (repeatStep step input t) := by
  obtain ⟨s', run, kept⟩ := stops
  refine ⟨s', ?_, kept⟩
  rw [repeatStep_eq, run]

variable {levels : Nat}

theorem bodyStep_stops {item : Parse Unit}
    (more : (input.token t.cursor).kind ≠ .rightBrace ∧ (input.token t.cursor).kind ≠ .eof)
    (stops : Stops input s index (item input t)) :
    Stops input s index (bodyStep item input t) := by
  obtain ⟨s', run, kept⟩ := stops
  refine ⟨s', ?_, kept⟩
  rw [bodyStep_apply, if_neg (by simp [more]), run]

theorem deeper_stops {block : Parse α} (room : t.depth < input.maxDepth)
    (stops : Stops input s index (block input { t with depth := t.depth + 1 })) :
    Stops input s index (deeper block input t) := by
  obtain ⟨s', run, kept⟩ := stops
  refine ⟨{ s' with depth := s'.depth - 1 }, ?_, kept⟩
  unfold deeper
  rw [if_neg (by omega), run]

theorem elementWith_stops {parent : Option NodeId}
    (here : ahead input s = openingWords ++ word :: rest)
    (item : word.1 ≠ .rightBrace ∧ word.1 ≠ .eof)
    (stops : ∀ id forest, Stops input s index
      (elementItem (nested levels) id input (s.moved (s.cursor + 2) forest))) :
    Stops input s index (elementWith (nested levels) parent input s) := by
  have text : (input.token s.cursor).text = "div" := text_of_ahead here 0 rfl
  have kind : (input.token s.cursor).kind = .identifier := kind_of_ahead here 0 rfl
  have isName : (input.token s.cursor).isName := by
    rw [Token.isName, kind]
    rfl
  have known : Tags.isKnown "div" = true := by decide
  have first : (input.token (s.cursor + 2)).kind = word.1 := kind_of_ahead here 2 rfl
  obtain ⟨taken, behind⟩ := ahead_advanced here (by simp)
  obtain ⟨id, forest, added⟩ := exists_addNode input s parent
    { kind := .element
      name := "div"
      scope := s.document.symbols.currentScope
      span := (input.token s.cursor).span } (s.cursor + 1)
  unfold elementWith
  rw [bind_ok (expectName_apply _ isName), taken]
  rw [bind_apply, read_apply]
  dsimp only
  rw [text, known, Bool.not_true, Bool.and_false, if_neg (by simp), bind_ok (currentScope_apply ..)]
  rw [bind_ok added]
  rw [bind_apply, expect_taken (s := s.moved (s.cursor + 1) forest) _ behind (by simp)]
  apply Stops.bind
  apply repeatStep_stops
  apply bodyStep_stops
  · change (input.token (s.cursor + 2)).kind ≠ _ ∧ (input.token (s.cursor + 2)).kind ≠ _
    rw [first]
    exact item
  · exact stops id forest

/-- Of elements in one another, the first that is too deep is the one that is told of. -/
theorem element_stops {n : Nat} (lt : levels < n) (parent : Option NodeId)
    (room : s.depth + levels = input.maxDepth) (here : ahead input s = (tower n).words ++ rest) :
    Stops input s (s.cursor + 2 * levels) ((nested levels).element parent input s) := by
  induction levels generalizing s n parent rest with
  | zero =>
    refine ⟨s, ?_, rfl, rfl, rfl⟩
    change deeper outOfLevels input s = _
    unfold deeper
    rw [if_pos (by omega)]
    rfl
  | succ levels ih =>
    obtain ⟨n, rfl⟩ : ∃ m, n = m + 2 := ⟨n - 2, by omega⟩
    have inner := here
    rw [words_tower_succ, List.append_assoc, List.append_assoc] at inner
    rw [words_tower_succ, words_tower_succ] at here
    apply deeper_stops (by omega)
    refine elementWith_stops (s := { s with depth := s.depth + 1 }) here (by simp)
      fun id forest => ?_
    have behind : ahead input (s.moved (s.cursor + 2) forest) = _ := ahead_behind inner
    have first : (input.token (s.cursor + 2)).kind = .identifier := kind_of_ahead here 2 rfl
    have next : (input.token (s.cursor + 2 + 1)).kind = .leftBrace := kind_of_ahead here 3 rfl
    rw [elementItem_name first next]
    apply Stops.bind
    have index : s.cursor + 2 * (levels + 1) = s.cursor + 2 + 2 * levels := by omega
    rw [index]
    exact ih (s := { s.moved (s.cursor + 2) forest with depth := s.depth + 1 }) (by omega)
      (some id) (by dsimp only; omega) behind

/-- The one error is at the first element too deep, and parsing goes on at the end. -/
theorem items_tooDeep {n : Nat} {last : String} (lt : input.maxDepth < n) (outside : s.depth = 0)
    (here : ahead input s = (tower n).words ++ [(.eof, last)]) :
    ∃ s', items [] input s = ([⟨.nestingTooDeep input.maxDepth,
        (input.token (s.cursor + 2 * input.maxDepth)).span⟩], s') ∧
      s'.warnings = s.warnings ∧ s'.activations = s.activations := by
  obtain ⟨more, rfl⟩ : ∃ more, n = more + 1 + input.maxDepth := ⟨n - input.maxDepth - 1, by omega⟩
  have words := words_tower (List.range input.maxDepth) (more + 1)
  rw [List.length_range] at words
  have whole := here
  rw [words, List.append_assoc, List.append_assoc] at here
  have outer := whole
  rw [show more + 1 + input.maxDepth = more + input.maxDepth + 1 by omega, words_tower_succ] at outer
  have first : (input.token s.cursor).kind = .identifier := kind_of_ahead outer 0 rfl
  have next : (input.token (s.cursor + 1)).kind = .leftBrace := kind_of_ahead outer 1 rfl
  obtain ⟨s', run, cursor, warnings, activations⟩ := Stops.bind (fun _ => pure ())
    (element_stops (s := { s with seenContent := true }) lt (some Forest.root) (by simp [outside])
      whole)
  have recovered := recovery_tower (Nat.succ_pos more) here (by simp)
  have inside : s.cursor < input.tokens.size := lt_of_ahead whole (i := 0) (by simp)
  have eof := ahead_behind whole
  have length : (tower (more + 1 + input.maxDepth)).words.length =
      2 * input.maxDepth + ((tower (more + 1)).words.length + input.maxDepth) := by
    simp [words, Nat.mul_comm]
  rw [← length] at recovered
  have forward : s.cursor < s.cursor + (tower (more + 1 + input.maxDepth)).words.length := by
    rw [length, words_tower_succ]
    simp only [List.length_append, List.length_cons]
    omega
  have kind : (input.token (s.cursor + (tower (more + 1 + input.maxDepth)).words.length)).kind =
      .eof := kind_of_ahead eof 0 rfl
  refine ⟨{ s' with cursor := s.cursor + (tower (more + 1 + input.maxDepth)).words.length },
    ?_, warnings, activations⟩
  rw [items, first, if_neg (by simp), item_open (.inr first) next,
    elementItem_name (s := { s with seenContent := true }) first next, run]
  dsimp only
  rw [cursor, recovered, if_pos ⟨forward, inside⟩, items]
  dsimp only
  rw [kind]
  rfl

end Failing

end Parse

namespace NestedDocument

section Trees

variable {n depth : Nat} {tree : NodeTree}

theorem nodes_tower (said : (tower n).Matches tree) :
    (tree.nodes.filter Node.isElement).length = n ∧
      (tree.nodes.filterMap fun node => if node.isText then some node.content else none) =
        ["leaf"] := by
  induction n generalizing tree with
  | zero =>
    obtain ⟨node, branches⟩ := tree
    obtain ⟨kind, content, rfl⟩ := said
    simp [NodeTree.nodes, NodeTree.nodesAll, Node.isElement, Node.isText, kind, content]
  | succ n ih =>
    obtain ⟨node, branches⟩ := tree
    obtain ⟨kind, -, -, -, inside⟩ := said
    cases branches with
    | nil => exact inside.elim
    | cons branch branches =>
      cases branches with
      | cons _ _ => exact inside.2.elim
      | nil =>
        obtain ⟨count, text⟩ := ih inside.1
        have element : node.isElement = true := by simp [Node.isElement, kind]
        have other : node.isText = false := by simp [Node.isText, kind]
        simp [NodeTree.nodes, NodeTree.nodesAll, element, other, count, text]

theorem markup_tower (n : Nat) : (tower n).markup =
    String.join (List.replicate n "<div>") ++ "leaf" ++ String.join (List.replicate n "</div>") := by
  induction n with
  | zero => decide
  | succ n ih =>
    have isVoid : Tags.isVoid div.word = false := by decide
    have tag : div.word = "div" := rfl
    have closing : String.join (List.replicate (n + 1) "</div>") =
        String.join (List.replicate n "</div>") ++ ("</" ++ "div" ++ ">") := by
      rw [List.replicate_succ', String.join_append]
      rfl
    have opening : String.join (List.replicate (n + 1) "<div>") =
        "<" ++ "div" ++ ">" ++ String.join (List.replicate n "<div>") := by
      rw [List.replicate_succ, String.join_cons]
      rfl
    rw [tower, PlainNode.markup, PlainNode.markupAll, PlainNode.markupAll, ih, isVoid, tag,
      opening, closing]
    simp [String.append_assoc]

theorem markupAll_content (depth : Nat) : PlainNode.markupAll (content depth) =
    String.join (List.replicate depth "<div>") ++ (if depth = 0 then "" else "leaf") ++
      String.join (List.replicate depth "</div>") := by
  cases depth with
  | zero => rfl
  | succ depth =>
    rw [content, if_neg (Nat.succ_ne_zero depth), if_neg (Nat.succ_ne_zero depth),
      PlainNode.markupAll, PlainNode.markupAll, markup_tower, String.append_empty]

end Trees

section Documents

variable {depth limit : Nat} {stream : TokenStream}

/-- Up to the limit the elements are there, and the text in them. -/
theorem parsed_of_le (le : depth ≤ limit)
    (words : stream.tokens.map Token.word = PlainNode.wordsAll (content depth) ++ [(.eof, "")])
    (simple : ∀ token ∈ stream.tokens, token.kind.isSimple = true) :
    let parsed := ParseResult.ofTokens (source depth) stream.tokens {} { maxDepth := limit }
    parsed.errors = [] ∧ parsed.document.forest.elementCount Forest.root = depth ∧
      parsed.document.forest.textContent Forest.root = if depth = 0 then "" else "leaf" := by
  intro parsed
  obtain ⟨errors, -, -, trees, tree, said⟩ := ParseResult.ofTokens_words (source depth) simple
    words { maxDepth := limit } rfl (proper_content le) {}
  have grown := (ParseResult.sound_ofTokens (source depth) stream.tokens {}
    { maxDepth := limit }).grown
  refine ⟨errors, ?_⟩
  change Forest.tree? parsed.document.forest Forest.root = _ at tree
  rw [Forest.Grown.elementCount_eq grown tree, Forest.Grown.textContent_eq grown tree,
    NodeTree.nodes]
  cases depth with
  | zero =>
    cases trees with
    | nil => exact ⟨rfl, rfl⟩
    | cons _ _ => exact said.elim
  | succ depth =>
    cases trees with
    | nil => exact said.elim
    | cons tree trees =>
      cases trees with
      | cons _ _ => exact said.2.elim
      | nil =>
        obtain ⟨count, text⟩ := nodes_tower said.1
        have document : ({ kind := .document } : Node).isElement = false ∧
          ({ kind := .document } : Node).isText = false := ⟨rfl, rfl⟩
        simp [NodeTree.nodesAll, document, count, text]

/-- Beyond the limit the first element too deep is the one error. -/
theorem parsed_of_lt (lt : limit < depth)
    (tokenizes : TokenStream.ofSource (source depth) = .ok stream)
    (words : stream.tokens.map Token.word = PlainNode.wordsAll (content depth) ++ [(.eof, "")])
    (simple : ∀ token ∈ stream.tokens, token.kind.isSimple = true) :
    let parsed := ParseResult.ofTokens (source depth) stream.tokens {} { maxDepth := limit }
    ∃ e, parsed.errors = [e] ∧ e.problem = .nestingTooDeep limit ∧
      e.span.line = limit + 1 ∧ e.span.column = 2 * limit + 1 ∧ parsed.warnings = [] := by
  intro parsed
  have kept := ParseInput.tokens_ofTokens (source depth) simple words { maxDepth := limit }
  have here := ParseInput.ahead_ofTokens (source depth) simple words { maxDepth := limit }
    { document := {} } rfl
  rw [content, if_neg (by omega), PlainNode.wordsAll, PlainNode.wordsAll, List.append_nil] at here
  obtain ⟨s', run, warnings, activations⟩ := Parse.items_tooDeep lt rfl here
  have parsed_eq : parsed = _ := ParseResult.ofTokens_of_items run activations
  obtain ⟨token, found, line, column⟩ := token_beyond lt tokenizes
  have bound : (ParseInput.ofTokens (source depth) stream.tokens
      { maxDepth := limit }).maxDepth = limit := rfl
  have inside : 2 * limit < (ParseInput.ofTokens (source depth) stream.tokens
      { maxDepth := limit }).tokens.size := by
    rw [← Array.length_toList, kept]
    exact (List.getElem?_eq_some_iff.1 found).1
  have same := ParseInput.getElem?_eq_token inside
  rw [← Array.getElem?_toList, kept, found] at same
  rw [parsed_eq, warnings]
  refine ⟨_, rfl, rfl, ?_, ?_, rfl⟩
  all_goals dsimp only
  all_goals rw [Nat.zero_add, bound, ← Option.some.inj same]
  · exact line
  · exact column

theorem compile_of_error {source : String} {e : ParseError}
    (tokenizes : TokenStream.ofSource source = .ok stream)
    (failed : (ParseResult.ofTokens source stream.tokens {} {}).errors = [e]) :
    (Compiler.compile {} source).success = false := by
  obtain ⟨warnings, run⟩ : ∃ warnings, Compiler.run {} source = .error (.parse e, warnings) := by
    unfold Compiler.run
    rw [tokenizes]
    dsimp only
    rw [ParseResult.error?, failed, List.head?_cons]
    exact ⟨_, rfl⟩
  rw [Compiler.compile, run]
  rfl

end Documents

/-- Elements in one another are parsed just when they are no more than the limit allows. Otherwise
the first that is too deep is the one error and nothing else is told. They are compiled just when
they are no more than 128. -/
theorem success_iff_le_limit (depth limit : Nat) :
    ∃ stream, TokenStream.ofSource (source depth) = .ok stream ∧
      let parsed := ParseResult.ofTokens (source depth) stream.tokens {} { maxDepth := limit }
      let output := Compiler.compile {} (source depth)
      (parsed.success = true ↔ depth ≤ limit) ∧
      (depth ≤ limit → parsed.document.forest.elementCount Forest.root = depth ∧
        parsed.document.forest.textContent Forest.root = if depth = 0 then "" else "leaf") ∧
      (limit < depth → ∃ e, parsed.errors = [e] ∧ e.problem = .nestingTooDeep limit ∧
        e.span.line = limit + 1 ∧ e.span.column = 2 * limit + 1 ∧ parsed.warnings = []) ∧
      (output.success = true ↔ depth ≤ 128) ∧
      (depth ≤ 128 → output.html = String.join (List.replicate depth "<div>") ++
        (if depth = 0 then "" else "leaf") ++ String.join (List.replicate depth "</div>")) := by
  obtain ⟨stream, tokenizes, words, simple, skipped⟩ := (spells_source depth).ofSource
  refine ⟨stream, tokenizes, ?_⟩
  intro parsed output
  refine ⟨?_, fun le => (parsed_of_le le words simple).2,
    fun lt => parsed_of_lt lt tokenizes words simple, ?_, ?_⟩
  · rcases Nat.lt_or_ge limit depth with lt | le
    · obtain ⟨e, errors, -⟩ := parsed_of_lt lt tokenizes words simple
      have failed : parsed.success = false := by rw [ParseResult.success, errors]; rfl
      simp [failed, lt]
    · have done : parsed.success = true := by
        rw [ParseResult.success, (parsed_of_le le words simple).1]
        rfl
      simp [done, le]
  · rcases Nat.lt_or_ge 128 depth with lt | le
    · obtain ⟨e, errors, -⟩ := parsed_of_lt lt tokenizes words simple
      have failed : output.success = false := compile_of_error tokenizes errors
      simp [failed, lt]
    · have done := Compiler.compile_words tokenizes words simple skipped (proper_content le) {}
      simp [output, done, le]
  · intro le
    have done := Compiler.compile_words tokenizes words simple skipped (proper_content le) {}
    have html : output.html = PlainNode.markupAll (content depth) := by
      simp only [output, done]
    rw [html, markupAll_content]

/-- Three elements where two are allowed. -/
theorem success_iff_le_limit_three :
    2 < 3 ∧ 3 ≤ 128 ∧ ∃ stream, TokenStream.ofSource (source 3) = .ok stream ∧
      (∃ e, (ParseResult.ofTokens (source 3) stream.tokens {} { maxDepth := 2 }).errors = [e] ∧
        e.span.line = 3 ∧ e.span.column = 5) ∧
      (Compiler.compile {} (source 3)).html = "<div><div><div>leaf</div></div></div>" := by
  obtain ⟨stream, tokenizes, -, -, failed, -, html⟩ := success_iff_le_limit 3 2
  obtain ⟨e, errors, -, line, column, -⟩ := failed (by decide)
  refine ⟨by decide, by decide, stream, tokenizes, ⟨e, errors, line, column⟩, ?_⟩
  rw [html (by decide)]
  decide

end NestedDocument

end TemplateMarkup
