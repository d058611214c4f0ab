import TemplateMarkup.Proofs.ParseProgress
import TemplateMarkup.Writing.Documents

/-! A parse asks for no token that is not there, and cuts no text where it cannot be cut. -/
namespace TemplateMarkup

open SourceText

namespace Lexeme

/-- What is cut off the text of a word: its mark, or the brackets around it. -/
def Enclosed (kind : TokenKind) (text : List Char) : Prop :=
  match kind with
  | .atWord _ => ∃ word, text = '@' :: word
  | .block _ => ∃ word, text = '[' :: (word ++ [']'])
  | .bracketWord => ∃ word, text = '[' :: (word ++ [']'])
  | _ => True

variable {kind : TokenKind}

theorem enclosed_bracket {cs : List Char} {n : Nat} (h : bracket cs = (.token kind, n)) :
    Enclosed kind ('[' :: cs.take n) := by
  have closed (ends : (cs.drop (nameRun Char.isAlpha isBracketWordPart cs)).head? = some ']') :
      ∃ word, '[' :: cs.take (nameRun Char.isAlpha isBracketWordPart cs + 1) =
        '[' :: (word ++ [']']) := by
    rw [List.take_add, List.take_one, ends]
    exact ⟨_, rfl⟩
  unfold bracket at h
  dsimp only at h
  split at h
  · cases h
    trivial
  · split at h
    · next ends =>
      split at h <;> cases h <;> exact closed ends
    · repeat' split at h
      all_goals cases h
      trivial

/-- A word with a mark or brackets. -/
def isWord : TokenKind → Bool
  | .atWord _ => true
  | .block _ => true
  | .bracketWord => true
  | _ => false

theorem enclosed_of_not_word {text : List Char} (h : isWord kind = false) : Enclosed kind text := by
  cases kind <;> trivial

theorem isWord_punctuation {c : Char} (h : punctuation? c = some kind) : isWord kind = false := by
  unfold punctuation? at h
  repeat' split at h
  all_goals
    cases h
    try rfl

/-- Nothing else is taken for a word. -/
theorem not_word_of_first {c : Char} {cs : List Char} (opening : c ≠ '[') (sign : c ≠ '@')
    (kind : TokenKind) : (first c cs).1 = .token kind → isWord kind = false := by
  unfold first identifier markedName
  simp only [if_neg opening, if_neg sign]
  repeat' split
  all_goals rintro ⟨⟩
  any_goals rfl
  next mark => exact isWord_punctuation mark

theorem enclosed_of_first {c : Char} {cs : List Char} {n : Nat}
    (h : first c cs = (.token kind, n)) : Enclosed kind (c :: cs.take n) := by
  by_cases opening : c = '['
  · subst opening
    exact enclosed_bracket h
  by_cases sign : c = '@'
  · subst sign
    replace h : (if nameRun startsAsciiName isBracketWordPart cs = 0 then _ else _) = _ := h
    split at h <;> cases h
    · trivial
    · exact ⟨_, rfl⟩
  exact enclosed_of_not_word (not_word_of_first opening sign kind (congrArg Prod.fst h))

end Lexeme

namespace TokenStream

/-- What reading keeps to: every word stands in its marks. -/
def Progress.Words (p : Progress) : Prop :=
  ∀ token ∈ p.tokens, Lexeme.Enclosed token.kind token.text.toList

theorem Progress.Words.push {p : Progress} (h : p.Words) {kind : TokenKind} {text : List Char}
    (here : Lexeme.Enclosed kind text) : (p.push kind text).Words := by
  intro token member
  rcases List.mem_cons.1 member with rfl | member
  · rwa [String.toList_ofList]
  · exact h token member

theorem words_of_read {cs : List Char} {p p' : Progress} (h : p.Words)
    (run : read cs p = .ok p') : p'.Words := by
  fun_induction read cs p generalizing p'
  case case1 =>
    cases run
    exact h
  case case2 ih | case3 ih => exact ih h run
  case case4 | case6 => cases run
  case case5 ih | case9 ih | case10 ih => exact ih (h.push trivial) run
  case case7 inner _ ihLine ih =>
    exact ih (ihLine ((h.push (by trivial)).push (by trivial)) inner) run
  case case8 ih => exact ih (((h.push (by trivial)).push (by trivial)).push (by trivial)) run
  case case11 lexeme ih => exact ih (h.push (Lexeme.enclosed_of_first lexeme)) run

end TokenStream

/-- The marks of a token can be cut off it. -/
structure Token.Cuts (token : Token) : Prop where
  mark : (token.kind.mark?.isSome ∨ ∃ word, token.kind = .atWord word) →
    slice? token.text.toList 1 (byteLength token.text.toList) = some token.tailText
  brackets : ((∃ word, token.kind = .block word) ∨ token.kind = .bracketWord) →
    ∃ word, slice? token.text.toList 1 (byteLength token.text.toList - 1) = some word

theorem Token.cuts_of_marks {token : Token} (marked : token.Marked)
    (words : Lexeme.Enclosed token.kind token.text.toList) : token.Cuts where
  mark h := by
    obtain ⟨mark, name, text, size⟩ :
        ∃ mark name, token.text.toList = mark :: name ∧ mark.utf8Size = 1 := by
      rcases h with named | ⟨word, kind⟩
      · obtain ⟨mark, found⟩ := Option.isSome_iff_exists.1 named
        obtain ⟨name, text⟩ := marked mark found
        refine ⟨mark, name, text, ?_⟩
        cases same : token.kind <;> rw [same] at found <;> cases found <;> rfl
      · rw [kind] at words
        obtain ⟨name, text⟩ := words
        exact ⟨'@', name, text, rfl⟩
    have whole := slice?_append [mark] name []
    simp only [byteLength_cons, size, byteLength_nil, List.append_nil, Nat.add_zero,
      List.singleton_append] at whole
    rw [Token.tailText, text, byteLength_cons, size]
    exact whole
  brackets h := by
    obtain ⟨word, text⟩ : ∃ word, token.text.toList = '[' :: (word ++ [']']) := by
      rcases h with ⟨block, kind⟩ | kind <;> rw [kind] at words <;> exact words
    refine ⟨String.ofList word, ?_⟩
    have whole := slice?_append ['['] word [']']
    rw [text]
    simpa [byteLength_append, byteLength_cons, show '['.utf8Size = 1 from rfl,
      show ']'.utf8Size = 1 from rfl, Nat.add_comm] using whole

theorem TokenStream.cuts_ofSource {source : String} {stream : TokenStream}
    (tokenizes : ofSource source = .ok stream) : ∀ token ∈ stream.tokens, token.Cuts := by
  intro token member
  have marked := (opened_ofSource tokenizes).1 token member
  obtain ⟨p, run, rfl⟩ := exists_read tokenizes
  have words : (p.push .eof []).Words :=
    (words_of_read (by simp [Progress.Words]) run).push trivial
  exact token.cuts_of_marks marked (words token (List.mem_reverse.1 member))

namespace ParseInput

/-- Tokens of a source in their order are laid out in it, with or without the last of them. -/
theorem laid_of_sublist {source : String} {stream : TokenStream} {tokens : List Token}
    (tokenizes : TokenStream.ofSource source = .ok stream) (given : tokens.Sublist stream.tokens)
    (options : ParseOptions) : (ofTokens source tokens options).Laid := by
  obtain ⟨p, steps, rfl⟩ := TokenStream.exists_reads tokenizes
  have kept := (List.filter_sublist (p := fun token => !token.kind.isPlainComment)).trans given
  generalize same : tokens.filter (fun token => !token.kind.isPlainComment) = meant at kept
  have ordered := steps.ordered.sublist kept
  have inside (token : Token) (member : token ∈ meant) :=
    steps.placed_eof.inside token (by
      rw [← List.mem_reverse, TokenStream.Progress.tokens_push_eof]
      exact kept.subset member)
  obtain ⟨front, last, whole, eof, ends⟩ := exists_closed (byteLength source.toList) meant
  have tokens : (ofTokens source tokens options).tokens.toList = front ++ [last] := by
    rw [← whole, ← same]
    rfl
  rcases ends with rfl | ⟨rfl, start, stop⟩
  · refine laid_of_tokens tokens eof ordered fun token member => ?_
    obtain ⟨starts, stops, le, -⟩ := inside token member
    exact ⟨starts, stops, le⟩
  · refine laid_of_tokens tokens eof ?_ fun token member => ?_
    · refine List.pairwise_append.2 ⟨ordered, List.pairwise_singleton _ _,
        fun a member b final => ?_⟩
      rw [List.mem_singleton.1 final, start]
      exact (inside a member).2.2.2
    · rcases List.mem_append.1 member with member | final
      · obtain ⟨starts, stops, le, -⟩ := inside token member
        exact ⟨starts, stops, le⟩
      · rw [List.mem_singleton.1 final, start, stop]
        have cut : IsCut source.toList (byteLength source.toList) := ⟨_, [], by simp, rfl⟩
        exact ⟨cut, cut, Nat.le_refl _⟩

end ParseInput

namespace Parse

/-- What looks back at the token before the cursor when it is done has taken one. -/
def LooksBack {α : Type} (input : ParseInput) (x : Parse α) : Prop :=
  ∀ s a t, s.cursor < input.tokens.size → x input s = .ok a t → s.cursor < t.cursor

/-- The indexes that a parse finds ahead or goes back to are those of tokens. A selector goes back
to a string that it has just taken, and a script to the token before a name that stands right
behind it. -/
structure WithinTokens (input : ParseInput) : Prop where
  brace : ∀ depth i close, input.closingBrace? depth i = some close →
    i ≤ close ∧ close + 1 < input.tokens.size
  reference : ∀ i shape, varRefShape? input i = some shape →
    i + 2 < shape.close ∧ shape.close + 1 < input.tokens.size
  adjacent : ∀ i, input.adjacent i = true → 0 < i ∧ i < input.tokens.size
  script : ∀ s index close part next t, close < input.tokens.size → index < close →
    scriptPartAt index close input s = .ok (some (part, next)) t → index < next ∧ next ≤ close
  selector : ∀ s start selector next t, s.cursor < input.tokens.size →
    selectorStep start selector input s = .ok (some next) t → s.cursor < t.cursor
  propertyName : LooksBack input propertyName
  value : LooksBack input value
  literal : ∀ lineEnds, LooksBack input (literal lineEnds)
  atRule : LooksBack input atRule
  importPath : LooksBack input importPath

theorem adjacent_bounds {input : ParseInput} {i : Nat} (adjacent : input.adjacent i = true) :
    0 < i ∧ i < input.tokens.size := by
  unfold ParseInput.adjacent at adjacent
  cases found : input.tokens[i]? with
  | none =>
    rw [found] at adjacent
    cases adjacent
  | some token =>
    obtain ⟨inside, -⟩ := Array.getElem?_eq_some_iff.1 found
    refine ⟨Nat.pos_of_ne_zero ?_, inside⟩
    rintro rfl
    rw [found] at adjacent
    cases adjacent

theorem withinTokens {input : ParseInput} (laid : input.Laid) : WithinTokens input where
  brace depth i close found := by
    obtain ⟨le, -, closes⟩ := ParseInput.closingBrace?_spec found
    exact ⟨le, ParseInput.Ended.lt laid.ends (by simp [closes])⟩
  reference i shape found := by
    have closes := varRefShape?_closes found
    exact ⟨(ParseInput.varRefShape?_bounds found).1,
      ParseInput.Ended.lt laid.ends (by simp [closes])⟩
  adjacent _ := adjacent_bounds
  script s index close part next t inside lt run := by
    have construct := (scriptPartAt_eq_ok laid inside lt run).2 part next rfl
    exact ⟨construct.lt, construct.le⟩
  selector s start selector next t inside :=
    Steps.forward ⟨0, none, 0⟩ input s next t laid.ends inside
  propertyName s a t inside := (goes_propertyName (F := ⟨0, none, 0⟩) laid.ends inside).2 a t
  value s a t _ run := (value_shown laid run).1
  literal lineEnds s a t inside :=
    (goes_literal (F := ⟨0, none, 0⟩) lineEnds laid.ends inside).2 a t
  atRule s a t inside := (goes_atRule (F := ⟨0, none, 0⟩) laid.ends inside).2 a t
  importPath s a t inside := (goes_importPath (F := ⟨0, none, 0⟩) laid.ends inside).2 a t

end Parse

namespace ParseResult

/-- A parse of a source that has tokens stays within them and within the source, whatever of the
tokens is handed to it. The tokens that an item has passed are there to be gone through again
when it fails, and what is cut off the text of a token is there to be cut off. -/
theorem ofTokens_inRange {source : String} {stream : TokenStream} {tokens : List Token}
    (tokenizes : TokenStream.ofSource source = .ok stream) (given : tokens.Sublist stream.tokens)
    (symbols : SymbolTable) (options : ParseOptions) :
    let input := ParseInput.ofTokens source tokens options
    let result := ofTokens source tokens symbols options
    result.inRange = true ∧ Parse.WithinTokens input ∧
    (∃ s, Parse.Runs input { document := { symbols } } result.errors s) ∧
    ∀ token ∈ stream.tokens, token.Cuts := by
  have laid := ParseInput.laid_of_sublist tokenizes given options
  obtain ⟨s, runs, -, inRange, -⟩ := exists_runs source tokens symbols options
  refine ⟨inRange.trans ?_, Parse.withinTokens laid, ⟨s, runs⟩,
    TokenStream.cuts_ofSource tokenizes⟩
  exact (runs.reaches laid.ends (ParseInput.ofTokens source tokens options).nonempty).inRange laid

/-- Text of more than one byte a character is cut out of a selector, a value, a script and a text
block, also where the token that ends the source is left out. -/
theorem ofTokens_inRange_multibyte :
    let source := "[Template] @Var Size \x7b small: 3em; \x7d box \x7b style \x7b .card \"é\" " ++
      "\x7b width: calc(Size(small) + 1ü); \x7d \x7d script \x7b \"größe\"; \x7b\x7b.card\x7d\x7d; " ++
      "x(Size(small)); \x7d text \x7b schön \x7d \x7d"
    ∃ stream, TokenStream.ofSource source = .ok stream ∧
    let tokens := stream.tokens.dropLast
    let input := ParseInput.ofTokens source tokens {}
    let result := ofTokens source tokens {} {}
    let written := WriteResult.ofDocument result.document
    (written.css = ".card \"é\"\x7bwidth:calc(3em+ 1ü);\x7d" ∧
      written.js = "\"größe\"; \x7b\x7b.card\x7d\x7d; x(3em);" ∧
      written.html = "<box class=\"card\">schön</box>") ∧
    result.inRange = true ∧ Parse.WithinTokens input ∧
    (∃ s, Parse.Runs input { document := { symbols := {} } } result.errors s) ∧
    ∀ token ∈ stream.tokens, token.Cuts := by
  intro source
  have run : (TokenStream.ofSource source).toOption.map (fun stream =>
        let result := ofTokens source stream.tokens.dropLast {} {}
        let written := WriteResult.ofDocument result.document
        (written.css, written.js, written.html)) =
      some (".card \"é\"\x7bwidth:calc(3em+ 1ü);\x7d", "\"größe\"; \x7b\x7b.card\x7d\x7d; x(3em);",
        "<box class=\"card\">schön</box>") := by decide +kernel
  obtain ⟨stream, found, texts⟩ := Option.map_eq_some_iff.1 run
  have tokenizes := TokenStream.ofSource_of_toOption found
  obtain ⟨css, rest⟩ := Prod.mk.inj texts
  exact ⟨stream, tokenizes, ⟨css, Prod.mk.inj rest⟩,
    ofTokens_inRange tokenizes (List.dropLast_sublist _) {} {}⟩

end ParseResult

end TemplateMarkup
