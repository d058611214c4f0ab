import TemplateMarkup.Proofs.ForestLinks
import TemplateMarkup.Proofs.OrderedMapLookup
import TemplateMarkup.Proofs.OriginBlocks
import TemplateMarkup.Proofs.ValueText

/-! Where the body of an origin block stands among the tokens. -/
namespace TemplateMarkup
open SourceText

/-- What stands between the word of an origin block and its brace: a type, and a name or none. -/
def isOriginHead : List TokenKind → Bool
  | [.atWord _] => true
  | [.atWord _, name] => name.isName
  | _ => false

/-- The brace that closes a body with `depth` braces open inside it. -/
def closingToken? (depth : Nat) : List Token → Option Token
  | [] => none
  | token :: tokens =>
    match token.kind with
    | .leftBrace => closingToken? (depth + 1) tokens
    | .rightBrace =>
      match depth with
      | 0 => some token
      | depth + 1 => closingToken? depth tokens
    | _ => closingToken? depth tokens

/-- Tokens without the comments that mean nothing. -/
def meaningful (tokens : List Token) : List Token :=
  tokens.filter fun token => !token.kind.isPlainComment

/-- An origin block with a body among some tokens. -/
structure OriginSite (tokens : List Token) where
  front : List Token
  keyword : Token
  head : List Token
  opening : Token
  back : List Token
  closing : Token
  split : tokens = front ++ keyword :: (head ++ opening :: back)
  keyword_kind : keyword.kind = .block .origin
  isHead : isOriginHead ((meaningful head).map Token.kind) = true
  opening_kind : opening.kind = .leftBrace
  closes : closingToken? 0 back = some closing

/-- The source between the braces of an origin block. -/
def OriginSite.text {tokens : List Token} (site : OriginSite tokens) (source : List Char) : String :=
  segment source site.opening.span.stop site.closing.span.start

section Tokens

section Closing

variable {token : Token} {tokens : List Token} {depth : Nat}

theorem closingToken?_left (kind : token.kind = .leftBrace) :
    closingToken? depth (token :: tokens) = closingToken? (depth + 1) tokens := by
  rw [closingToken?.eq_def]
  simp only [kind]

theorem closingToken?_right (kind : token.kind = .rightBrace) :
    closingToken? 0 (token :: tokens) = some token := by
  rw [closingToken?.eq_def]
  simp only [kind]

theorem closingToken?_inner (kind : token.kind = .rightBrace) :
    closingToken? (depth + 1) (token :: tokens) = closingToken? depth tokens := by
  rw [closingToken?.eq_def]
  simp only [kind]

theorem closingToken?_other (left : token.kind ≠ .leftBrace) (right : token.kind ≠ .rightBrace) :
    closingToken? depth (token :: tokens) = closingToken? depth tokens := by
  rw [closingToken?.eq_def]
  dsimp only
  split
  case h_1 | h_2 => contradiction
  · rfl

end Closing

theorem closingToken?_meaningful (depth : Nat) (tokens : List Token) :
    closingToken? depth (meaningful tokens) = closingToken? depth tokens := by
  induction tokens generalizing depth with
  | nil => rfl
  | cons token tokens ih =>
    by_cases comment : token.kind.isPlainComment = true
    · have left : meaningful (token :: tokens) = meaningful tokens :=
        List.filter_cons_of_neg (by simp [comment])
      have other (kind : TokenKind) (plain : kind.isPlainComment = false) : token.kind ≠ kind := by
        rintro rfl
        rw [plain] at comment
        cases comment
      rw [left, ih, closingToken?_other (other _ rfl) (other _ rfl)]
    · have kept : meaningful (token :: tokens) = token :: meaningful tokens :=
        List.filter_cons_of_pos (by simp [comment])
      rw [kept, closingToken?.eq_def, closingToken?.eq_def depth (token :: tokens)]
      simp only [ih]

theorem meaningful_meaningful (tokens : List Token) :
    meaningful (meaningful tokens) = meaningful tokens := by
  simp [meaningful]

/-- A site among the tokens that mean something is one among all tokens. -/
theorem OriginSite.exists_of_meaningful {tokens kept : List Token}
    (same : kept = meaningful tokens) (site : OriginSite kept) :
    ∃ whole : OriginSite tokens, whole.keyword = site.keyword ∧ whole.opening = site.opening ∧
      whole.closing = site.closing := by
  obtain ⟨front, behind, whole, -, kept⟩ := List.filter_eq_append_iff.1 (same.symm.trans site.split)
  obtain ⟨skipped, rest, parts, -, -, kept⟩ := List.filter_eq_cons_iff.1 kept
  obtain ⟨head, body, inner, headKept, kept⟩ := List.filter_eq_append_iff.1 kept
  obtain ⟨skipped', back, ends, comments, -, backKept⟩ := List.filter_eq_cons_iff.1 kept
  have inside : meaningful (head ++ skipped') = site.head := by
    rw [meaningful, List.filter_append, headKept, List.filter_eq_nil_iff.2 comments,
      List.append_nil]
  have closes : closingToken? 0 back = some site.closing := by
    rw [← closingToken?_meaningful, meaningful, backKept, site.closes]
  have isHead := site.isHead
  rw [← inside, meaningful_meaningful] at isHead
  exact ⟨⟨front ++ skipped, site.keyword, head ++ skipped', site.opening, back, site.closing,
    by simp [whole, parts, inner, ends], site.keyword_kind, isHead, site.opening_kind, closes⟩, rfl, rfl, rfl⟩

theorem ParseInput.drop_eq {input : ParseInput} {index : Nat} (inside : index < input.tokens.size) :
    input.tokens.toList.drop index = input.token index :: input.tokens.toList.drop (index + 1) := by
  have bound : index < input.tokens.toList.length := by simpa using inside
  rw [List.drop_eq_getElem_cons bound, Array.getElem_toList, getElem_eq_token inside]

theorem closingToken?_of_closingBrace? {input : ParseInput} {depth index close : Nat}
    (found : input.closingBrace? (depth + 1) index = some close) :
    closingToken? depth (input.tokens.toList.drop index) = some (input.token close) := by
  induction left : input.tokens.size - index using Nat.strongRecOn generalizing depth index with
  | _ left ih =>
  rw [ParseInput.closingBrace?] at found
  split at found
  · next inside =>
    rw [ParseInput.getElem_eq_token inside] at found
    rw [ParseInput.drop_eq inside]
    split at found
    · next brace =>
      rw [closingToken?_left brace]
      exact ih _ (by omega) found rfl
    · next brace =>
      cases depth with
      | zero =>
        cases found
        exact closingToken?_right brace
      | succ depth =>
        rw [if_neg (by omega)] at found
        rw [closingToken?_inner brace]
        exact ih _ (by omega) found rfl
    · next left right =>
      rw [closingToken?_other left right]
      exact ih _ (by omega) found rfl
  · cases found

end Tokens

/-- A content of an origin block, with the place of its word, comes from a site among the tokens. -/
def ParseInput.Tells (input : ParseInput) (span : Span) (content : String) : Prop :=
  ∃ site : OriginSite input.tokens.toList, site.keyword.span = span ∧
    content = Origin.dedent (site.text input.source)

/-- The foreign text that a node holds. -/
def Node.foreign? (node : Node) : Option String :=
  match node.kind with
  | .origin block => block.content
  | _ => none

theorem Node.foreign?_congr {a b : Node} (same : a.kind = b.kind) : a.foreign? = b.foreign? := by
  rw [foreign?, foreign?, same]

theorem Node.foreign?_other {node : Node} (other : ∀ block, node.kind ≠ .origin block) :
    node.foreign? = none := by
  unfold foreign?
  split
  · next block kind => exact absurd kind (other block)
  · rfl

/-- What a document keeps of origin blocks: in its nodes, and under their names. -/
structure Document.Origins (P : Span → String → Prop) (document : Document) : Prop where
  nodes : ∀ id node content, document.forest.get? id = some node →
    node.foreign? = some content → P node.span content
  named : ∀ key content, document.symbols.origins.get? key = some content →
    ∃ span, P span content

theorem Document.Origins.imp {P Q : Span → String → Prop} {document : Document}
    (known : document.Origins P) (weaker : ∀ span content, P span content → Q span content) :
    document.Origins Q where
  nodes id node content there foreign :=
    weaker _ _ (known.nodes id node content there foreign)
  named key content there :=
    (known.named key content there).imp fun span holds => weaker span content holds

namespace Parse

variable {input : ParseInput} {s t : ParseState} {name : Option String} {content : String}

theorem cursor_advanced (laid : input.Laid)
    (opens : (input.token s.cursor).kind.endsStatement = false) :
    (advanced input s).cursor = s.cursor + 1 := by
  have inside := lt_of_open laid opens
  simp only [advanced, advance_apply, stateOf]
  rw [if_pos (by omega)]

theorem originContent?_some (laid : input.Laid)
    (run : originContent? name input s = .ok (some content) t) :
    (input.token s.cursor).kind = .leftBrace ∧
      ∃ close, input.closingBrace? 0 s.cursor = some close ∧ content = Origin.dedent
        (segment input.source (input.token s.cursor).span.stop (input.token close).span.start) := by
  unfold originContent? at run
  rw [bind_ok (check_apply ..)] at run
  by_cases brace : (input.token s.cursor).kind = .leftBrace
  · rw [if_pos (by simpa using brace), bind_ok (cursor_apply ..)] at run
    obtain ⟨close, middle, matched, run⟩ := bind_eq_ok run
    obtain ⟨found, same⟩ := matchingBrace_eq_ok matched
    obtain ⟨le, inside, closes⟩ := ParseInput.closingBrace?_spec found
    have lt : s.cursor < close := by
      refine Nat.lt_of_le_of_ne le fun same => ?_
      rw [same, closes] at brace
      cases brace
    rw [bind_apply, same, between_apply laid _ lt inside] at run
    cases run
    exact ⟨brace, close, found, rfl⟩
  · rw [if_neg (by simpa using brace), ite_apply] at run
    split at run
    · obtain ⟨e, failed⟩ := unexpected_apply (α := Option String) input s
        "an origin name or '\x7b'"
      cases failed.symm.trans run
    · cases run

/-- A token that serves as a name ends no statement and is no comment. -/
theorem endsStatement_of_isName {kind : TokenKind} (name : kind.isName = true) :
    kind.endsStatement = false ∧ kind.isPlainComment = false := by
  cases kind <;> first | exact ⟨rfl, rfl⟩ | cases name

section Heads

variable {type token : Token} {word : AtWord} (kind : type.kind = .atWord word)
include kind

theorem isPlainComment_type : type.kind.isPlainComment = false := by
  rw [kind]
  rfl

theorem isOriginHead_type : isOriginHead ((meaningful [type]).map Token.kind) = true := by
  have kept : meaningful [type] = [type] := by simp [meaningful, isPlainComment_type kind]
  rw [kept, List.map_singleton, kind]
  rfl

theorem isOriginHead_name (named : token.isName = true) :
    isOriginHead ((meaningful [type, token]).map Token.kind) = true := by
  have plain := (endsStatement_of_isName named).2
  have kept : meaningful [type, token] = [type, token] := by
    simp [meaningful, isPlainComment_type kind, plain]
  rw [kept, List.map_cons, kind]
  exact named

end Heads

theorem exists_site {head : List Token} {first last : Nat} (laid : input.Laid)
    (keyword : (input.token first).kind = .block .origin)
    (between : input.tokens.toList.drop (first + 1) = head ++ input.tokens.toList.drop last)
    (isHead : isOriginHead ((meaningful head).map Token.kind) = true) (here : s.cursor = last)
    (body : originContent? name input s = .ok (some content) t) :
    input.Tells (input.token first).span content := by
  subst here
  obtain ⟨brace, close, found, rfl⟩ := originContent?_some laid body
  have before := lt_of_open laid (show (input.token first).kind.endsStatement = false by
    rw [keyword]; rfl)
  have inside := lt_of_open laid (show (input.token s.cursor).kind.endsStatement = false by
    rw [brace]; rfl)
  rw [ParseInput.closingBrace?, dif_pos (by omega),
    ParseInput.getElem_eq_token (by omega), brace] at found
  have split : input.tokens.toList = input.tokens.toList.take first ++ input.token first ::
      (head ++ input.token s.cursor :: input.tokens.toList.drop (s.cursor + 1)) := by
    rw [← ParseInput.drop_eq (by omega), ← between, ← ParseInput.drop_eq (by omega),
      List.take_append_drop]
  exact ⟨⟨_, _, head, _, _, _, split, keyword, isHead, brace,
    closingToken?_of_closingBrace? found⟩, rfl, rfl⟩

theorem originBody_tells {word : AtWord} (laid : input.Laid)
    (keyword : (input.token s.cursor).kind = .block .origin)
    (type : (input.token (s.cursor + 1)).kind = .atWord word)
    (body : originContent? name input (headEnd input s) = .ok (some content) t) :
    input.Tells (input.token s.cursor).span content := by
  have ends : (input.token s.cursor).kind.endsStatement = false := by rw [keyword]; rfl
  have first := cursor_advanced laid ends
  have ends' : (input.token (s.cursor + 1)).kind.endsStatement = false := by rw [type]; rfl
  have second : (advanced input (advanced input s)).cursor = s.cursor + 2 := by
    rw [cursor_advanced laid (by rwa [first]), first]
  have inside := lt_of_open laid ends'
  have drops := ParseInput.drop_eq (show s.cursor + 1 < input.tokens.size by omega)
  unfold headEnd at body
  dsimp only at body
  rw [second] at body
  by_cases named : (input.token (s.cursor + 2)).isName = true
  · have ends'' := (endsStatement_of_isName named).1
    have third : (advanced input (advanced input (advanced input s))).cursor = s.cursor + 3 := by
      rw [cursor_advanced laid (by rwa [second]), second]
    rw [if_pos named] at body
    rw [ParseInput.drop_eq inside] at drops
    exact exists_site laid keyword drops (isOriginHead_name type named) third body
  · rw [if_neg named] at body
    exact exists_site laid keyword drops (isOriginHead_type type) second body

theorem Records.origins {P : Span → String → Prop} {block : OriginBlock} {span : Span}
    {id : NodeId} (records : Records s block span id t) (known : s.document.Origins P)
    (holds : ∀ content, block.content = some content → P span content) :
    t.document.Origins P := by
  constructor
  · intro place node content there foreign
    rw [records.forest, Forest.get?_insertDetached] at there
    split at there
    · cases there
      exact holds content foreign
    · exact known.nodes place node content there foreign
  · intro key content there
    rcases records.symbols with same | ⟨name, text, -, body, registered⟩
    · rw [same] at there
      exact known.named key content there
    · rw [registered, SymbolTable.registerOrigin] at there
      split at there
      · exact known.named key content there
      · rw [OrderedMap.get?_insert] at there
        split at there
        · cases there
          exact ⟨span, holds content body⟩
        · exact known.named key content there

theorem originBlock_tells (laid : input.Laid)
    (keyword : (input.token s.cursor).kind = .block .origin)
    (known : s.document.Origins input.Tells) :
    (stateOf (originBlock input s)).document.Origins input.Tells := by
  rcases originBlock_cases input s with
    ⟨e, s', failed, same⟩ | ⟨word, content, t, id, s', type, body, run, records⟩
  · rw [failed]
    simpa only [stateOf, same] using known
  · rw [run]
    refine records.origins (by simpa only [document_headEnd] using known) fun text same => ?_
    cases same
    exact originBody_tells laid keyword type body

end Parse

end TemplateMarkup
