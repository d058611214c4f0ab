import TemplateMarkup.Proofs.BraceReading
import TemplateMarkup.Proofs.DocumentChanges
import TemplateMarkup.Proofs.OriginSites
import TemplateMarkup.Proofs.ParsedDocuments

/-! What a document keeps of the origin blocks of its source. -/
namespace TemplateMarkup
open SourceText

namespace Parse

/-- Every comment of a document is made of a token. -/
def Commented (input : ParseInput) (document : Document) : Prop :=
  ∀ id node, document.forest.get? id = some node → node.CommentsOn input

theorem Commented.keeps {input : ParseInput} {document : Document} {forest : Forest}
    (known : Commented input document) (keeps : document.forest.KeepsMarks input forest) :
    Commented input { document with forest } := by
  intro id node there
  rcases keeps id node there with ⟨-, comments⟩ | ⟨old, found, sameKind, sameSpan, sameContent⟩
  · exact comments
  · intro kind
    rw [← sameSpan, ← sameContent]
    exact known id old found (sameKind.trans kind)

theorem originBlock_commented {input : ParseInput} {s : ParseState}
    (known : Commented input s.document) :
    Commented input (stateOf (originBlock input s)).document := by
  rcases originBlock_cases input s with
    ⟨e, s', failed, same⟩ | ⟨word, content, t, id, s', -, -, run, records⟩
  · rw [failed]
    simpa only [stateOf, same] using known
  · rw [run]
    intro id node there
    rw [stateOf, records.forest, document_headEnd, Forest.get?_insertDetached] at there
    split at there
    · cases there
      simp [Node.CommentsOn, originNode]
    · exact known id node there

/-- The change that leaves only contents that come from a site among the tokens, and only comments
that are made of one. -/
def telling : Change where
  holds input a b := (input.Laid → a.Origins input.Tells → b.Origins input.Tells) ∧
    (Commented input a → Commented input b)
  refl _ _ := ⟨fun _ known => known, id⟩
  trans _ _ _ _ first second :=
    ⟨fun laid known => second.1 laid (first.1 laid known), fun known => second.2 (first.2 known)⟩
  forest input document forest keeps := by
    refine ⟨fun _ known => ⟨fun id node content there foreign => ?_, known.named⟩,
      fun known => known.keeps keeps⟩
    rcases keeps id node there with ⟨other, -⟩ | ⟨old, found, sameKind, sameSpan, -⟩
    · rw [Node.foreign?_other other] at foreign
      cases foreign
    · rw [← sameSpan]
      exact known.nodes id old content found ((Node.foreign?_congr sameKind).trans foreign)
  symbols input document symbols _ origins _ :=
    ⟨fun _ known => ⟨known.nodes, fun key content there =>
      known.named key content (origins ▸ there)⟩, id⟩
  origin input s keyword :=
    ⟨fun laid known => originBlock_tells laid keyword known, originBlock_commented⟩

section Items

-- The size of an instance grows with the length of a production.
set_option synthInstance.maxSize 100000

variable {α : Type}

theorem telling_symbols {input : ParseInput} {document : Document} {symbols : SymbolTable}
    (same : symbols.origins = document.symbols.origins) :
    telling.holds input document { document with symbols } :=
  ⟨fun _ known => ⟨known.nodes, fun key content there =>
    known.named key content (same ▸ there)⟩, id⟩

theorem tells_withSymbols {f : SymbolTable → α × SymbolTable}
    (same : ∀ table, (f table).2.origins = table.origins) : Makes telling (withSymbols f) :=
  ⟨fun _ s => telling_symbols (same s.document.symbols)⟩

theorem origins_register (table : SymbolTable) (definition : Definition) :
    (table.register definition).2.origins = table.origins := by
  unfold SymbolTable.register
  split <;> rfl

instance : telling.Whole where
  definition levels parent := by
    have register (definition : Definition) : Makes telling (withSymbols (·.register definition)) :=
      tells_withSymbols fun table => origins_register table definition
    unfold definitionBlock
    infer_instance
  enter _ := tells_withSymbols fun _ => rfl
  close _ _ := telling_symbols rfl

end Items

end Parse

theorem ParseResult.telling_ofTokens (source : String) (tokens : List Token)
    (options : ParseOptions) (config : Config) :
    Parse.telling.holds (ParseInput.ofTokens source tokens options) { symbols := { config } }
      (ofTokens source tokens { config } options).document := by
  let input := ParseInput.ofTokens source tokens options
  let start : ParseState := { document := { symbols := { config } } }
  let s := (Parse.items [] input start).2
  have same := Parse.activateAll_eq s.activations.reverse s.document.symbols.exitAll
  have origins : (Parse.activateAll s.activations.reverse
      s.document.symbols.exitAll).1.origins = s.document.symbols.origins := by
    rw [same]
    rfl
  have read : Parse.telling.holds input start.document s.document := Parse.change_items
  exact Parse.telling.trans _ _ _ _ read (Parse.telling_symbols origins)

/-- What is parsed keeps only contents of origin blocks among the tokens. -/
theorem ParseResult.origins_tell {source : String} {tokens : List Token} {options : ParseOptions}
    (laid : (ParseInput.ofTokens source tokens options).Laid) (config : Config) :
    (ofTokens source tokens { config } options).document.Origins
      (ParseInput.ofTokens source tokens options).Tells := by
  refine (telling_ofTokens source tokens options config).1 laid ?_
  constructor
  · intro id node content there foreign
    change Forest.empty.get? id = some node at there
    rw [Forest.get?, Forest.slot?_empty] at there
    split at there
    · cases there
      cases foreign
    · cases there
  · intro key content there
    cases there

/-- Every comment of what is parsed is made of a token. -/
theorem ParseResult.commented (source : String) (tokens : List Token) (options : ParseOptions)
    (config : Config) : Parse.Commented (ParseInput.ofTokens source tokens options)
      (ofTokens source tokens { config } options).document := by
  refine (telling_ofTokens source tokens options config).2 fun id node there => ?_
  change Forest.empty.get? id = some node at there
  rw [Forest.get?, Forest.slot?_empty] at there
  split at there
  · cases there
    simp [Node.CommentsOn]
  · cases there

namespace OriginSite
open TokenStream

variable {tokens : List Token} (site : OriginSite tokens)

/-- No comment stands between the word of the block and its brace. -/
def IsPlain : Prop := ∀ token ∈ site.head, token.kind.isPlainComment = false

/-- What is read of the text behind the brace. -/
def reach (rest : List Char) : List Char :=
  TokenStream.reach site.opening.span.line (site.front ++ site.keyword :: site.head) rest

/-- How the body of an origin block is found in a source, where `before` stands before its brace
and `rest` behind it: up to the brace that balances, character by character, if no comment stands
before the body and the text that is being read has such a brace; otherwise the body is read token
by token like the rest of the source. -/
structure Found (source before rest : List Char) : Prop where
  split : source = before ++ '\x7b' :: rest
  start : site.opening.span.start = byteLength before
  verbatim : ∀ n, site.IsPlain → bodyLength? 0 (site.reach rest) = some n →
    bodyLength? 0 rest = some n ∧ site.text source = String.ofList (rest.take n)
  raw_iff : (∃ raw behind, site.back = raw :: behind ∧ raw.kind = .rawText) ↔
    site.IsPlain ∧ ∃ n, bodyLength? 0 (site.reach rest) = some n

end OriginSite

section Opening
open TokenStream

variable {tokens front front' head head' : List Token} {keyword keyword' type name : Token}
  {word : AtWord}

/-- Between the word of an origin block and its brace there is no other word, and no comment. -/
theorem isOriginHead_mem {kinds : List TokenKind} {kind : TokenKind}
    (head : isOriginHead kinds = true) (member : kind ∈ kinds) :
    kind ≠ .block .origin ∧ kind.isPlainComment = false := by
  unfold isOriginHead at head
  split at head
  · cases List.mem_singleton.1 member
    exact ⟨by simp, rfl⟩
  · rcases List.mem_cons.1 member with rfl | member
    · exact ⟨by simp, rfl⟩
    · cases List.mem_singleton.1 member
      refine ⟨?_, (Parse.endsStatement_of_isName head).2⟩
      rintro rfl
      cases head
  · cases head

theorem opensBody_type (origin : keyword.kind = .block .origin) (kind : type.kind = .atWord word) :
    opensBody (front ++ [keyword, type]) = true := by
  simp [opensBody, Progress.opensOrigin, origin, kind]

theorem opensBody_name (origin : keyword.kind = .block .origin) (kind : type.kind = .atWord word)
    (named : name.kind.isName = true) : opensBody (front ++ [keyword, type, name]) = true := by
  simp only [opensBody, Progress.opensOrigin, List.reverse_append, List.reverse_cons,
    List.reverse_nil, List.nil_append, List.cons_append, List.take_succ_cons, List.map_cons,
    origin, kind]
  exact named

/-- A brace opens the body of an origin block right behind the head of one. -/
theorem opensBody_iff : opensBody tokens = true ↔ ∃ front keyword head,
    tokens = front ++ keyword :: head ∧ keyword.kind = .block .origin ∧
      isOriginHead (head.map Token.kind) = true := by
  constructor
  · intro opens
    have turned : tokens = tokens.reverse.reverse := by simp
    unfold opensBody Progress.opensOrigin at opens
    dsimp only at opens
    generalize tokens.reverse = last at opens turned
    split at opens
    · next kinds =>
      obtain ⟨type, rest, taken, kind, others⟩ := List.map_eq_cons_iff.1 kinds
      obtain ⟨keyword, rest', rfl, origin, -⟩ := List.map_eq_cons_iff.1 others
      refine ⟨(rest' ++ last.drop 3).reverse, keyword, [type], ?_, origin, ?_⟩
      · calc tokens = (last.take 3 ++ last.drop 3).reverse := by
              rw [List.take_append_drop, turned]
          _ = _ := by simp [taken]
      · simp [kind, isOriginHead]
    · next kinds =>
      obtain ⟨name, rest, taken, rfl, others⟩ := List.map_eq_cons_iff.1 kinds
      obtain ⟨type, rest', rfl, kind, others'⟩ := List.map_eq_cons_iff.1 others
      obtain ⟨keyword, rest'', rfl, origin, -⟩ := List.map_eq_cons_iff.1 others'
      refine ⟨(rest'' ++ last.drop 3).reverse, keyword, [type, name], ?_, origin, ?_⟩
      · calc tokens = (last.take 3 ++ last.drop 3).reverse := by
              rw [List.take_append_drop, turned]
          _ = _ := by simp [taken]
      · rw [List.map_cons, kind]
        exact opens
    · cases opens
  · rintro ⟨front, keyword, head, rfl, origin, isHead⟩
    unfold isOriginHead at isHead
    split at isHead
    · next kinds =>
      obtain ⟨type, rfl, kind⟩ := List.map_eq_singleton_iff.1 kinds
      exact opensBody_type origin kind
    · next kinds =>
      obtain ⟨type, rest, rfl, kind, kinds⟩ := List.map_eq_cons_iff.1 kinds
      obtain ⟨name, rfl, rfl⟩ := List.map_eq_singleton_iff.1 kinds
      exact opensBody_name origin kind isHead
    · cases isHead

theorem head_unique (same : front ++ keyword :: head = front' ++ keyword' :: head')
    (origin : keyword.kind = .block .origin) (origin' : keyword'.kind = .block .origin)
    (none : ∀ token ∈ head, token.kind ≠ .block .origin)
    (none' : ∀ token ∈ head', token.kind ≠ .block .origin) : head = head' := by
  rcases List.append_eq_append_iff.1 same with ⟨more, -, later⟩ | ⟨more, -, later⟩
  · cases more with
    | nil => exact (List.cons.inj later).2
    | cons token more =>
      obtain ⟨-, rfl⟩ := List.cons.inj later
      exact absurd origin' (none keyword' (by simp))
  · cases more with
    | nil => exact (List.cons.inj later).2.symm
    | cons token more =>
      obtain ⟨-, rfl⟩ := List.cons.inj later
      exact absurd origin (none' keyword (by simp))

theorem OriginSite.opensBody_iff_isPlain (site : OriginSite tokens) :
    opensBody (site.front ++ site.keyword :: site.head) = true ↔ site.IsPlain := by
  have none : ∀ token ∈ site.head, token.kind ≠ .block .origin := by
    intro token member kind
    have kept : token ∈ meaningful site.head := List.mem_filter.2 ⟨member, by rw [kind]; rfl⟩
    exact (isOriginHead_mem site.isHead (List.mem_map_of_mem kept)).1 kind
  rw [opensBody_iff]
  constructor
  · rintro ⟨front, keyword, head, same, origin, isHead⟩ token member
    have others (token : Token) (member : token ∈ head) :=
      isOriginHead_mem isHead (List.mem_map_of_mem member)
    rw [head_unique same site.keyword_kind origin none fun t h => (others t h).1] at member
    exact (others token member).2
  · intro plain
    have kept : meaningful site.head = site.head :=
      List.filter_eq_self.2 fun token member => by simp [plain token member]
    have isHead := site.isHead
    rw [kept] at isHead
    exact ⟨site.front, site.keyword, site.head, rfl, site.keyword_kind, isHead⟩

end Opening

theorem bodyLength?_of_reach {line n : Nat} {tokens : List Token} {rest : List Char}
    (found : TokenStream.bodyLength? 0 (TokenStream.reach line tokens rest) = some n) :
    TokenStream.bodyLength? 0 rest = some n := by
  unfold TokenStream.reach at found
  split at found
  · have whole := TokenStream.bodyLength?_append (rest.dropWhile (· ≠ '\n')) found
    rwa [List.takeWhile_append_dropWhile] at whole
  · exact found

theorem segment_behind (before rest : List Char) (n : Nat) :
    SourceText.segment (before ++ '\x7b' :: rest) (byteLength before + 1)
      (byteLength before + 1 + byteLength (rest.take n)) = String.ofList (rest.take n) := by
  have slice := slice?_append (before ++ ['\x7b']) (rest.take n) (rest.drop n)
  have front : byteLength (before ++ ['\x7b']) = byteLength before + 1 := byteLength_append ..
  rw [front, List.append_assoc, List.append_assoc, List.take_append_drop] at slice
  rw [SourceText.segment]
  exact congrArg (Option.getD · "") slice

theorem OriginSite.exists_found {source : String} {stream : TokenStream}
    (tokenizes : TokenStream.ofSource source = .ok stream) (site : OriginSite stream.tokens) :
    ∃ before rest, site.Found source.toList before rest := by
  have split := site.split.trans
    (List.append_assoc site.front (site.keyword :: site.head) (site.opening :: site.back)).symm
  obtain ⟨before, rest, cut, opens⟩ :=
    TokenStream.opens_of_leftBrace tokenizes split site.opening_kind
  refine ⟨before, rest, cut, opens.start, fun n plain found => ?_, ?_, ?_⟩
  · obtain ⟨raw, closing, behind, back, kind, brace, start⟩ :=
      opens.raw n (site.opensBody_iff_isPlain.2 plain) found
    have closes := site.closes
    rw [back, closingToken?_other (by simp [kind]) (by simp [kind]), closingToken?_right brace]
      at closes
    refine ⟨bodyLength?_of_reach found, ?_⟩
    rw [OriginSite.text, ← Option.some.inj closes, start, opens.stop, cut]
    exact segment_behind before rest n
  · rintro ⟨raw, behind, back, kind⟩
    have starts : ¬TokenStream.StartsPlain site.back := fun plain => plain raw (by simp [back]) kind
    by_cases plain : site.IsPlain
    · refine ⟨plain, ?_⟩
      cases found : TokenStream.bodyLength? 0 (site.reach rest) with
      | none => exact absurd (opens.plain fun _ => found) starts
      | some n => exact ⟨n, rfl⟩
    · exact absurd (opens.plain fun yes => absurd (site.opensBody_iff_isPlain.1 yes) plain) starts
  · rintro ⟨plain, n, found⟩
    obtain ⟨raw, closing, behind, back, kind, -⟩ :=
      opens.raw n (site.opensBody_iff_isPlain.2 plain) found
    exact ⟨raw, closing :: behind, back, kind⟩

/-- Whatever a document keeps of an origin block is the text between two braces of its source,
without the indentation that its lines share: the brace behind the head of the block, and the
first one behind it at which the brace tokens balance. That is the first one at which the
characters balance if no comment stands in the head and the text that is being read, which ends
with the line behind two hyphens, has such a brace. -/
theorem ParseResult.origins_found {source : String} {stream : TokenStream}
    (tokenizes : TokenStream.ofSource source = .ok stream) (config : Config)
    (options : ParseOptions) :
    (ofTokens source stream.tokens { config } options).document.Origins fun span content =>
      ∃ site : OriginSite stream.tokens, site.keyword.span = span ∧
        content = Origin.dedent (site.text source.toList) ∧
        ∃ before rest, site.Found source.toList before rest := by
  have kept := ParseInput.tokens_ofSource tokenizes options
  refine (origins_tell (ParseInput.laid_ofSource tokenizes options) config).imp ?_
  rintro span content ⟨site, rfl, rfl⟩
  obtain ⟨whole, keyword, opening, closing⟩ := site.exists_of_meaningful kept
  refine ⟨whole, by rw [keyword], ?_, whole.exists_found tokenizes⟩
  rw [OriginSite.text, OriginSite.text, opening, closing]
  rfl

/-- Behind a comment, a brace in a comment of the body does not close it. -/
theorem ParseResult.origins_found_commented :
    let source := "[Origin] @Html /* c */ \x7b // \x7d div \x7b\n\x7d"
    ∃ stream, TokenStream.ofSource source = .ok stream ∧
      ∃ site : OriginSite stream.tokens,
        "// \x7d div \x7b" = Origin.dedent (site.text source.toList) ∧
        ∃ before rest, site.Found source.toList before rest := by
  intro source
  have run : (TokenStream.ofSource source).toOption.bind (fun stream =>
      ((ofTokens source stream.tokens {} {}).document.forest.get? ⟨1⟩).bind Node.foreign?) =
      some "// \x7d div \x7b" := by decide +kernel
  obtain ⟨stream, tokens, run⟩ := Option.bind_eq_some_iff.1 run
  obtain ⟨node, found, foreign⟩ := Option.bind_eq_some_iff.1 run
  have tokenizes := TokenStream.ofSource_of_toOption tokens
  obtain ⟨site, -, content, read⟩ :=
    (origins_found tokenizes {} {}).nodes ⟨1⟩ node _ found foreign
  exact ⟨stream, tokenizes, site, content, read⟩

end TemplateMarkup
