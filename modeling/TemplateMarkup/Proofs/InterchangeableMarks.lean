import Mathlib.Data.List.Chain
import Mathlib.Data.List.Forall2
import TemplateMarkup.Parsing.Documents
import TemplateMarkup.Proofs.BlindParses
import TemplateMarkup.Proofs.OriginBlocks

/-! A colon and an equals sign are interchangeable. No statement of the language tells them apart,
and neither does the search for the place where parsing goes on after an error. -/
namespace TemplateMarkup

namespace Parse

variable {α β : Type}

-- The size of an instance grows with the length of a production.
set_option synthInstance.maxSize 100000

section Statements

instance : Blind definitionType := by
  refine .peek (fun token => ?_) fun _ _ => rfl
  split
  · split <;> infer_instance
  · infer_instance

instance : Blind definitionKind? := by
  refine .peekKind (fun kind => ?_) rfl
  split <;> infer_instance

instance (draft : DeleteDraft) : Blind (deleteItem draft) := by
  refine .peek (fun token => ?_) fun _ _ => rfl
  dsimp only
  split <;> infer_instance

instance : Blind deleteEdits := by
  refine .advance (fun _ => .bind (.loop fun draft => ?_) fun draft => ?_) fun _ _ => rfl
  · exact .ite inferInstance inferInstance
  · infer_instance

instance : Blind target := by
  unfold target
  infer_instance

instance : Blind insertPosition := by
  refine .peekKind (fun kind => ?_) rfl
  split <;> infer_instance

instance (payload : Parse Payload) [Blind payload] : Blind (insertEdit payload) := by
  unfold insertEdit
  infer_instance

instance : Blind insertedProperties := by
  refine .bind (.loop fun properties => .peekKind (fun kind => ?_) rfl) fun _ =>
    ⟨fun _ _ _ => rfl⟩
  split <;> infer_instance

theorem blind_usageStep {payload : Parse Payload} {other : Usage → Parse Usage} [Blind payload]
    (others : ∀ usage, Blind (other usage)) (usage : Usage) :
    Blind (usageStep payload other usage) := by
  refine .peekKind (fun kind => ?_) rfl
  split <;> infer_instance

theorem blind_usageWith {type : DefinitionType} {body : Usage → Parse Usage}
    (inside : ∀ usage, Blind (body usage)) : Blind (usageWith type body) := by
  refine .andThen fun kind => .peek (fun token => ?_) fun _ _ => rfl
  infer_instance

instance (type : DefinitionType) : Blind (propertyUsage type) := by
  refine blind_usageWith fun _ => .deeper (.loop fun usage => ?_)
  exact blind_usageStep (fun _ => .andThen fun _ => inferInstance) usage

end Statements

section Styles

instance : Blind selectorPart := by
  refine .advance (fun token => ?_) fun _ _ => rfl
  split <;> infer_instance

instance (start : Nat) (selector : Selector) : Blind (selectorStep start selector) := by
  unfold selectorStep
  infer_instance

instance : Blind selector := by
  refine .andThen fun start => .andThen fun selector => ?_
  infer_instance

instance : Blind atRule := by
  have stop : Blind atRuleStop := .peekKind (fun _ => inferInstance) rfl
  refine .andThen fun start => .andThen fun _ => .peekKind (fun kind => ?_) rfl
  split <;> infer_instance

instance : Blind ruleAhead := by
  refine .andThen fun here => .tokenAt (fun _ => ?_) fun _ _ => rfl
  exact .read (fun _ => inferInstance) fun input => by simp

theorem blind_styleStep {rule : Option (Parse StyleItem)}
    (inside : ∀ r ∈ rule, Blind r) (items : List StyleItem) :
    Blind (styleStep rule items) := by
  refine .peek (fun token => ?_) fun _ _ => rfl
  split
  iterate 8 infer_instance
  refine .andThen fun ahead => .ite (.andThen fun _ => inferInstance) ?_
  cases ahead with
  | false => exact inferInstanceAs (Blind (unexpected _))
  | true =>
    cases rule with
    | none => exact inferInstanceAs (Blind (unexpected _))
    | some rule => exact .bind (inside rule rfl) fun _ => inferInstance

instance : Blind styleRule :=
  .andThen fun _ => .andThen fun _ => .bind (.loop (blind_styleStep (by simp)))
    fun _ => inferInstance

instance : Blind styleBlock := by
  refine .advance (fun _ => .andThen fun _ => .bind (.loop (blind_styleStep ?_))
    fun _ => inferInstance) fun _ _ => rfl
  rintro r ⟨⟩
  infer_instance

end Styles

section Scripts

instance (index close : Nat) : Blind (bracedAt index close) := by
  refine .ite (.tokenAt (fun inner => ?_) fun _ _ => rfl) inferInstance
  refine .tokenAt (fun middle => ?_) fun _ _ => rfl
  refine .tokenAt (fun inner' => ?_) fun _ _ => rfl
  refine .tokenAt (fun outer' => ?_) fun _ _ => rfl
  exact .read (fun _ => inferInstance) fun input => by simp

theorem originNameAt?_plain (input : ParseInput) (index : Nat) :
    originNameAt? input.plain index = originNameAt? input index := by
  simp only [originNameAt?, ParseInput.getElem?_plain]
  cases input.tokens[index + 1]? with
  | none => rfl
  | some tag =>
    rcases tag with ⟨kind, text, span⟩
    cases kind <;> first | rfl | simp [Option.bind_map, TokenKind.plain]

instance (index close : Nat) : Blind (originRefAt index close) := by
  refine .read (fun input => ?_) fun input => by rw [originNameAt?_plain]
  cases originNameAt? input index with
  | none => infer_instance
  | some origin =>
    dsimp only
    exact .ite (.tokenAt (fun _ => inferInstance) fun _ _ => rfl) (.ite inferInstance inferInstance)

instance (index : Nat) : Blind (isMethod index) := by
  refine .read (fun input => .ite ?_ inferInstance) fun input => by simp
  exact .tokenAt (fun _ => inferInstance) fun _ _ => rfl

instance (index close : Nat) : Blind (scriptPartAt index close) := by
  refine .tokenAt (fun token => ?_) fun _ _ => rfl
  split
  case h_1 | h_2 | h_4 => infer_instance
  · refine .andThen fun found => ?_
    split <;> infer_instance

instance (close index : Nat) (draft : ScriptDraft) : Blind (scriptParts close index draft) := by
  fun_induction scriptParts close index draft
  case case1 index draft inside ih more =>
    refine .andThen fun found => ?_
    split
    · exact ih
    · next part next =>
      refine .tokenAt (fun _ => .andThen fun code => ?_) fun _ _ => rfl
      refine .tokenAt (fun last => ?_) fun _ _ => rfl
      dsimp only
      split
      · next later => exact more part next code last later
      · infer_instance
  case case2 => infer_instance

instance : Blind scriptBlock := by
  refine .advance (fun _ => .andThen fun start => .andThen fun _ => .andThen fun close => ?_)
    fun _ _ => rfl
  refine .tokenAt (fun first => .andThen fun draft => ?_) fun _ _ => rfl
  exact .tokenAt (fun _ => inferInstance) fun _ _ => rfl

end Scripts

section Elements

instance (name : Option String) : Blind (originContent? name) := by
  unfold originContent?
  infer_instance

instance (type : OriginType) (name : Option String) (span : Span) :
    Blind (originRest type name span) := by
  refine .andThen fun content => .andThen fun _ => .andThen fun scope => ?_
  dsimp only
  split <;> infer_instance

instance : Blind originBlock := by
  refine .advance (fun keyword => .peek (fun token => ?_) fun _ _ => rfl) fun _ _ => rfl
  split
  · have rest (type : OriginType) (name : Option String) :
        Blind (originRest type name keyword.span) := inferInstance
    refine .advance (fun _ => .peek (fun next => ?_) fun _ _ => rfl) fun _ _ => rfl
    exact .ite (.advance (fun _ => .andThen (rest _)) fun _ _ => rfl) (.andThen (rest _))
  · infer_instance

instance (parent : NodeId) : Blind (originChild parent) := by
  unfold originChild
  infer_instance

instance : Blind constraintTarget := by
  refine .peek (fun token => .andThen fun kind => .peekKind (fun next => ?_) rfl) fun _ _ => rfl
  split
  · refine .advance (fun _ => ?_) fun _ _ => rfl
    split
    · refine .peek (fun name => ?_) fun _ _ => rfl
      exact .ite (.advance (fun _ => inferInstance) fun _ _ => rfl) inferInstance
    case h_2 | h_3 => infer_instance
  · split <;> infer_instance

instance (element : NodeId) : Blind (constraint element) := by
  refine .advance (fun keyword => .bind (.loop fun draft => ?_) fun draft => ?_) fun _ _ => rfl
  · exact .ite inferInstance inferInstance
  · infer_instance

instance : Blind textBlock := by
  refine .advance (fun keyword => .andThen fun start => .andThen fun close => ?_) fun _ _ => rfl
  refine .tokenAt (fun first => ?_) fun _ _ => rfl
  split <;> infer_instance

instance (parent : NodeId) : Blind (commentChild parent) :=
  .advance (fun _ => inferInstance) fun _ _ => rfl

instance (parent : NodeId) : Blind (styleChild parent) :=
  .peek (fun _ => inferInstance) fun _ _ => rfl

instance (parent : NodeId) : Blind (scriptChild parent) :=
  .peek (fun _ => inferInstance) fun _ _ => rfl

instance (element : NodeId) : Blind (attributeOf element) :=
  .advance (fun _ => inferInstance) fun _ _ => rfl

instance (element : NodeId) : Blind (textAttribute element) :=
  .peek (fun _ => inferInstance) fun _ _ => rfl

instance (usage : Parse Usage) (parent : Option NodeId) [Blind usage] :
    Blind (usageNode usage parent) :=
  .peek (fun _ => inferInstance) fun _ _ => rfl

/-- Productions for what may nest that do not tell the marks apart. -/
class Nested.IsBlind (nested : Nested) : Prop where
  element : ∀ parent, Blind (nested.element parent)
  usageBody : ∀ usage, Blind (nested.usageBody usage)

variable (nested : Nested) [isBlind : nested.IsBlind]

instance (parent : Option NodeId) : Blind (nested.element parent) := isBlind.element parent

instance : Blind nested.usage := blind_usageWith isBlind.usageBody

instance : Blind (insertedElements nested) := by
  refine .bind (.loop fun nodes => .peek (fun token => ?_) fun _ _ => rfl) fun _ =>
    ⟨fun _ _ _ => rfl⟩
  split
  iterate 8 infer_instance
  exact .andThen fun _ => .ite inferInstance (.ite inferInstance inferInstance)

instance (element : NodeId) : Blind (elementItem nested element) := by
  refine .peek (fun token => .peekAt (fun next => ?_) fun _ _ => rfl) fun _ _ => rfl
  dsimp only
  split
  iterate 7 infer_instance
  exact .ite inferInstance (.ite inferInstance (.ite inferInstance (.ite inferInstance
    (.ite inferInstance (.ite inferInstance inferInstance)))))

theorem blind_elementWith (parent : Option NodeId) : Blind (elementWith nested parent) := by
  refine .andThen fun name => .read (fun input => ?_) fun _ => rfl
  infer_instance

theorem blind_usageBodyWith (usage : Usage) : Blind (usageBodyWith nested usage) :=
  .loop fun usage => blind_usageStep (fun _ => inferInstance) usage

end Elements

instance : Blind (outOfLevels : Parse α) := by
  unfold outOfLevels
  infer_instance

instance (levels : Nat) : (nested levels).IsBlind := by
  induction levels with
  | zero =>
    have none {α : Type} : Blind (deeper (outOfLevels : Parse α)) := inferInstance
    exact ⟨fun _ => none, fun _ => none⟩
  | succ levels ih =>
    exact ⟨fun parent => (blind_elementWith (nested levels) parent).deeper,
      fun usage => (blind_usageBodyWith (nested levels) usage).deeper⟩

section Definitions

instance (definition : Definition) (token : Token) : Blind (requireCustom definition token) := by
  unfold requireCustom
  infer_instance

instance (names : List String) : Blind (moreValueless names) := by
  unfold moreValueless valuelessStep
  infer_instance

instance (definition : Definition) (token : Token) : Blind (definedProperty definition token) := by
  refine .andThen fun name => .peek (fun next => .ite inferInstance (.ite inferInstance ?_))
    fun _ _ => rfl
  dsimp only
  infer_instance

theorem blind_definitionStep {usage : Parse Usage} {payload : Parse Payload}
    {other : Definition → Token → Parse Definition} [Blind usage] [Blind payload]
    (others : ∀ definition token, Blind (other definition token))
    (swap : ∀ definition text span,
      other definition ⟨.equals, text, span⟩ = other definition ⟨.colon, text, span⟩)
    (definition : Definition) : Blind (definitionStep usage payload other definition) := by
  refine .peek (fun token => ?_) fun text span => ?_
  · split <;> infer_instance
  · dsimp only
    rw [swap]

instance (definition : Definition) : Blind (propertyDefinition definition) := by
  refine .loop (blind_definitionStep (fun definition token => ?_) fun _ _ _ => rfl)
  exact .ite inferInstance inferInstance

instance (levels : Nat) (definition : Definition) :
    Blind (elementDefinition levels definition) := by
  refine .loop (blind_definitionStep (fun definition token => ?_) fun _ _ _ => rfl)
  refine .andThen fun braced => ?_
  split
  case h_1 | h_2 => infer_instance
  · exact .ite inferInstance (.ite inferInstance inferInstance)

instance (levels : Nat) (parent : NodeId) : Blind (definitionBlock levels parent) := by
  refine .advance (fun keyword => ?_) fun _ _ => rfl
  infer_instance

end Definitions

section Directives

instance (word : Keyword) : Blind (clauseStop word) :=
  .andThen fun _ => .peekKind (fun _ => inferInstance) rfl

instance : Blind importPath := by
  refine .peekKind (fun kind => ?_) rfl
  split <;> infer_instance

instance (parent : NodeId) : Blind (importStatement parent) := by
  refine .advance (fun keyword => ?_) fun _ _ => rfl
  infer_instance

instance : Blind configEntry := by
  refine .andThen fun key => ?_
  exact .peek (fun _ => inferInstance) fun _ _ => rfl

instance (group : String) (config : Config) : Blind (configGroup group config) := by
  refine .advance (fun _ => .andThen fun _ => .bind (.loop fun config => ?_) fun config => ?_)
    fun _ _ => rfl
  · refine .andThen fun _ => .andThen fun _ => ?_
    split
    · infer_instance
    · refine .andThen fun _ => ?_
      split
      · infer_instance
      · exact .andThen fun _ => inferInstance
  · infer_instance

instance (config : Config) : Blind (configStep config) := by
  refine .peek (fun token => ?_) fun _ _ => rfl
  split
  iterate 5 infer_instance
  refine .andThen fun entry => ?_
  obtain ⟨key, value⟩ := entry
  dsimp only
  split <;> infer_instance

instance : Blind configName? := by
  refine .andThen fun _ => .ite inferInstance ?_
  refine .peek (fun _ => ?_) fun _ _ => rfl
  exact .ite (.advance (fun _ => inferInstance) fun _ _ => rfl) inferInstance

instance (parent : NodeId) : Blind (configuration parent) := by
  refine .advance (fun keyword => .andThen fun name => .andThen fun _ => .andThen fun start =>
    .andThen fun config => .andThen fun _ => ?_) fun _ _ => rfl
  cases name <;> infer_instance

instance : Blind useTarget := by
  unfold useTarget
  infer_instance

instance (parent : NodeId) : Blind (useStatement parent) := by
  refine .peek (fun keyword => .andThen fun s => ?_) fun _ _ => rfl
  dsimp only
  infer_instance

end Directives

section Documents

instance : Blind ignoredBlock := by
  refine .advance (fun token => .andThen fun _ => .andThen fun braced => ?_) fun _ _ => rfl
  dsimp only
  infer_instance

instance (body : Parse Unit) [inside : Blind body] : Blind (closing body) where
  same input s spaced := by
    unfold closing
    rw [inside.same input s spaced]

theorem blind_namespaceBlock {body : NodeId → Parse Unit} (inside : ∀ id, Blind (body id))
    (parent : NodeId) : Blind (namespaceBlock body parent) := by
  refine .advance (fun keyword => .andThen fun name => .andThen fun event => ?_) fun _ _ => rfl
  cases event <;> infer_instance

theorem blind_namespaceBody {item : NodeId → Parse Unit} (inside : ∀ id, Blind (item id))
    (id : NodeId) : Blind (namespaceBody item id) := by
  unfold namespaceBody
  infer_instance

theorem blind_contentItem (levels : Nat) {inNamespace : NodeId → Parse Unit}
    (inside : ∀ id, Blind (inNamespace id)) (parent : NodeId) :
    Blind (contentItem levels inNamespace parent) := by
  have block := blind_namespaceBlock inside parent
  refine .peek (fun token => .andThen fun braced => ?_) fun _ _ => rfl
  split
  iterate 8 infer_instance
  exact .ite inferInstance (.ite inferInstance (.ite inferInstance
    (.ite inferInstance inferInstance)))

instance (levels : Nat) (parent : NodeId) : Blind (item levels parent) := by
  induction levels generalizing parent with
  | zero =>
    unfold item
    have deep (id : NodeId) : Blind (outOfLevels : Parse Unit) := inferInstance
    have content := blind_contentItem 0 deep parent
    refine .peekKind (fun kind => ?_) rfl
    split <;> infer_instance
  | succ levels ih =>
    unfold item
    have content := blind_contentItem (levels + 1) (blind_namespaceBody ih) parent
    refine .peekKind (fun kind => ?_) rfl
    split <;> infer_instance

theorem braceBalance_plain (tokens : List Token) :
    braceBalance (tokens.map Token.plain) = braceBalance tokens := by
  unfold braceBalance
  rw [List.foldl_map]
  congr
  funext depth token
  rcases token with ⟨kind, text, span⟩
  cases kind <;> rfl

theorem resume_plain (input : ParseInput) (depth : Int) (index : Nat) :
    resume input.plain depth index = resume input depth index := by
  induction left : input.tokens.size - index using Nat.strongRecOn generalizing depth index with
  | ind left ih =>
    unfold resume
    by_cases inside : index + 1 < input.tokens.size
    · have next (depth : Int) := ih _ (by omega) depth (index + 1) rfl
      rw [dif_pos inside, dif_pos (by rwa [ParseInput.size_plain]), ParseInput.token_plain,
        Token.kind_plain]
      cases (input.token index).kind <;> simp only [TokenKind.plain, next]
    · rw [dif_neg inside, dif_neg (by rwa [ParseInput.size_plain])]

theorem recovery_plain (input : ParseInput) (start stop : Nat) :
    recovery input.plain start stop = recovery input start stop := by
  have balance : braceBalance (input.plain.tokens.toList.extract start stop) =
      braceBalance (input.tokens.toList.extract start stop) := by
    rw [← braceBalance_plain (input.tokens.toList.extract start stop)]
    simp [ParseInput.plain, List.extract_eq_take_drop]
  simp only [recovery, balance, resume_plain, ParseInput.token_plain, Token.kind_plain, plain_beq]

theorem items_plain {input : ParseInput} (spaced : input.Spaced) (errors : List ParseError)
    (s : ParseState) : items errors input.plain s = items errors input s := by
  induction left : input.tokens.size - s.cursor using Nat.strongRecOn generalizing errors s with
  | ind left ih =>
    have one := Blind.same (x := item input.maxDepth Forest.root) input s spaced
    unfold items
    simp only [ParseInput.token_plain, Token.kind_plain, plain_beq, ParseInput.maxDepth_plain, one,
      recovery_plain, ParseInput.size_plain]
    cases item input.maxDepth Forest.root input s with
    | ok _ s' =>
      dsimp only
      split
      · rfl
      · split
        · exact ih _ (by omega) errors s' rfl
        · rfl
    | error e s' =>
      dsimp only
      split
      · rfl
      · split
        · exact ih _ (by simp only; omega) (e :: errors) _ rfl
        · rfl

end Documents

end Parse

/-- A token and itself, or one mark and the other in its place. -/
def Token.Swaps (token other : Token) : Prop :=
  other = token ∨
    token.isAssign ∧ other.isAssign ∧ other.text = token.text ∧ other.span = token.span

theorem Token.Swaps.plain_eq {token other : Token} (swaps : token.Swaps other) :
    other.plain = token.plain := by
  rcases swaps with rfl | ⟨mark, mark', text, span⟩
  · rfl
  · have colon (t : Token) (mark : t.isAssign) : t.kind.plain = .colon := by
      unfold Token.isAssign at mark
      generalize t.kind = kind at mark
      cases kind <;> first | rfl | cases mark
    rw [Token.plain, Token.plain, colon token mark, colon other mark', text, span]

theorem Token.map_plain_of_swaps {tokens tokens' : List Token}
    (swaps : List.Forall₂ Token.Swaps tokens tokens') :
    tokens'.map Token.plain = tokens.map Token.plain := by
  induction swaps with
  | nil => rfl
  | cons first _ ih => rw [List.map_cons, List.map_cons, first.plain_eq, ih]

namespace ParseInput

theorem spaced_plain {input : ParseInput} : input.plain.Spaced ↔ input.Spaced := by
  simp [Spaced]

variable (source : String) (tokens : List Token) (options : ParseOptions)

theorem closed_map_plain (length : Nat) :
    closed length (tokens.map Token.plain) = (closed length tokens).map Token.plain := by
  unfold closed
  rw [List.getLast?_map]
  cases tokens.getLast? with
  | none => rfl
  | some last =>
    simp only [Option.map_some, Token.kind_plain, Parse.plain_beq]
    split
    · rfl
    · rw [List.map_append]
      rfl

theorem plain_ofTokens :
    (ofTokens source tokens options).plain = ofTokens source (tokens.map Token.plain) options := by
  have kept (token : Token) : token.plain.kind.isPlainComment = token.kind.isPlainComment :=
    TokenKind.of_plain TokenKind.isPlainComment rfl token.kind
  have filtered : (tokens.map Token.plain).filter (fun token => !token.kind.isPlainComment) =
      (tokens.filter fun token => !token.kind.isPlainComment).map Token.plain := by
    rw [List.filter_map]
    congr 1
    apply List.filter_congr
    intro token _
    simp only [Function.comp_apply, kept]
  simp only [ofTokens, plain, filtered, closed_map_plain, List.map_toArray]

theorem isChain_closed (length : Nat) {tokens : List Token}
    (apart : tokens.IsChain fun token next => ¬(token.isAssign ∧ next.isAssign)) :
    (closed length tokens).IsChain fun token next => ¬(token.isAssign ∧ next.isAssign) := by
  unfold closed
  split
  · exact .singleton _
  · split
    · exact apart
    · refine apart.append (.singleton _) fun _ _ next behind => ?_
      cases behind
      rintro ⟨-, mark⟩
      cases mark

theorem exists_getLast?_closed (length : Nat) (tokens : List Token) :
    ∃ last, (closed length tokens).getLast? = some last ∧ last.kind = .eof := by
  unfold closed
  split
  · exact ⟨_, rfl, rfl⟩
  · next last final =>
    split
    · next ended => exact ⟨last, final, eq_of_beq ended⟩
    · exact ⟨_, List.getLast?_concat .., rfl⟩

/-- The last token is the end, so marks that do not follow one another in the tokens do not do so
in the input. -/
theorem spaced_of_tokens {input : ParseInput} {all : List Token} {last : Token}
    (tokens : input.tokens.toList = all) (final : all.getLast? = some last)
    (ended : last.kind = .eof)
    (apart : all.IsChain fun token next => ¬(token.isAssign ∧ next.isAssign)) : input.Spaced := by
  intro index mark
  by_cases inside : index + 1 < input.tokens.size
  · obtain ⟨_, here⟩ := token_eq_getElem tokens (show index < input.tokens.size by omega)
    obtain ⟨within, next⟩ := token_eq_getElem tokens inside
    have apart := List.isChain_iff_getElem.1 apart index within
    rw [here] at mark
    rw [next]
    simpa [mark] using apart
  · have positive := input.nonempty
    obtain ⟨within, here⟩ := token_eq_getElem tokens
      (show input.tokens.size - 1 < input.tokens.size by omega)
    have size : input.tokens.size = all.length := by rw [← tokens, Array.length_toList]
    rw [List.getLast?_eq_getElem?, ← size, List.getElem?_eq_getElem within] at final
    rw [token_of_size_le (by omega), here, Option.some.inj final, Token.isAssign, ended]
    rfl

theorem spaced_ofTokens
    (apart : (tokens.filter fun token => !token.kind.isPlainComment).IsChain
      fun token next => ¬(token.isAssign ∧ next.isAssign)) :
    (ofTokens source tokens options).Spaced := by
  obtain ⟨last, final, ended⟩ := exists_getLast?_closed (SourceText.byteLength source.toList)
    (tokens.filter fun token => !token.kind.isPlainComment)
  exact spaced_of_tokens (List.toList_toArray ..) final ended (isChain_closed _ apart)

end ParseInput

/-- The two marks mean the same: a source parses to the same document, with the same errors and
warnings, whichever of them stands where. Only two of them in a row would be told apart. -/
theorem ParseResult.ofTokens_eq_of_swaps (source : String) {tokens tokens' : List Token}
    (symbols : SymbolTable) (options : ParseOptions)
    (swaps : List.Forall₂ Token.Swaps tokens tokens')
    (apart : (tokens.filter fun token => !token.kind.isPlainComment).IsChain
      fun token next => ¬(token.isAssign ∧ next.isAssign)) :
    ParseResult.ofTokens source tokens' symbols options =
      ParseResult.ofTokens source tokens symbols options := by
  have plain {tokens : List Token} (spaced : (ParseInput.ofTokens source tokens options).Spaced) :
      ParseResult.ofTokens source (tokens.map Token.plain) symbols options =
        ParseResult.ofTokens source tokens symbols options := by
    simp only [ofTokens, ← ParseInput.plain_ofTokens, Parse.items_plain spaced]
  have same := Token.map_plain_of_swaps swaps
  have spaced := ParseInput.spaced_ofTokens source tokens options apart
  have spaced' : (ParseInput.ofTokens source tokens' options).Spaced := by
    rwa [← ParseInput.spaced_plain, ParseInput.plain_ofTokens, same, ← ParseInput.plain_ofTokens,
      ParseInput.spaced_plain]
  rw [← plain spaced', same, plain spaced]

/-- The other mark in the place of a mark. -/
def Token.flip (token : Token) : Token :=
  match token.kind with
  | .colon => { token with kind := .equals }
  | .equals => { token with kind := .colon }
  | _ => token

theorem Token.swaps_flip (token : Token) : token.Swaps token.flip := by
  rcases token with ⟨kind, text, span⟩
  cases kind with
  | colon | equals => exact .inr ⟨rfl, rfl, rfl, rfl⟩
  | _ => exact .inl rfl

/-- All marks of a source with an error in it are exchanged. -/
theorem ParseResult.ofTokens_eq_of_swaps_flip :
    let source := "[Template] @Var T \x7b c = red; \x7d div \x7b id: a; text = \"b\"; " ++
      "style \x7b color: T(c = blue) /* = */ = ; \x7d \x7d p \x7b = \x7d"
    ∃ stream, (TokenStream.ofSource source).toOption = some stream ∧
      stream.tokens.map Token.flip ≠ stream.tokens ∧
      ((stream.tokens.filter fun token => !token.kind.isPlainComment).IsChain
        fun token next => ¬(token.isAssign ∧ next.isAssign)) ∧
      ParseResult.ofTokens source (stream.tokens.map Token.flip) {} {} =
        ParseResult.ofTokens source stream.tokens {} {} := by
  intro source
  have run : (TokenStream.ofSource source).toOption.map (fun stream =>
        (stream.tokens.map Token.flip == stream.tokens,
          decide ((stream.tokens.filter fun token => !token.kind.isPlainComment).IsChain
            fun token next => ¬(token.isAssign ∧ next.isAssign)))) =
      some (false, true) := by decide +kernel
  obtain ⟨stream, tokens, run⟩ := Option.map_eq_some_iff.1 run
  simp only [Prod.mk.injEq, beq_eq_false_iff_ne, decide_eq_true_eq] at run
  obtain ⟨other, apart⟩ := run
  have swaps : List.Forall₂ Token.Swaps stream.tokens (stream.tokens.map Token.flip) := by
    rw [List.forall₂_map_right_iff, List.forall₂_same]
    exact fun token _ => token.swaps_flip
  exact ⟨stream, tokens, other, apart,
    ParseResult.ofTokens_eq_of_swaps source {} {} swaps apart⟩

end TemplateMarkup
