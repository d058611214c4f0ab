import TemplateMarkup.Proofs.OpenNamespaces
import TemplateMarkup.Proofs.ParsedDocuments
import TemplateMarkup.Proofs.TokenPlaces

/-! The names of definitions. Each is a name among the tokens, which holds no colon, so that what
is written for a qualified name tells the name. -/
namespace TemplateMarkup

/-- A name among the tokens. -/
def ParseInput.IsWord (input : ParseInput) (text : String) : Prop :=
  ∃ index, (input.token index).isName ∧ (input.token index).text = text

namespace Parse

/-- Every definition that is new has a name among the tokens. -/
def Names (input : ParseInput) (s s' : ParseState) : Prop :=
  ∀ key, (definitionsOf s').contains key →
    (definitionsOf s).contains key ∨ input.IsWord key.name.name

variable {α β : Type} {input : ParseInput} {s s' s'' : ParseState}

theorem Names.refl : Names input s s := fun _ found => .inl found

theorem Names.trans (first : Names input s s') (second : Names input s' s'') :
    Names input s s'' := fun key found => (second key found).elim (first key) .inr

/-- The state that a settled parse leaves is as good as the one before it. -/
theorem names_of_eq (same : definitionsOf s' = definitionsOf s) : Names input s s' := by
  intro key found
  rw [same] at found
  exact .inl found

section Definitions

/-- What a definition leaves behind: the open namespaces, and more definitions. -/
def Registers (input : ParseInput) (s s' : ParseState) : Prop :=
  scopesOf s' = scopesOf s ∧ Names input s s'

/-- Goes on after a settled parse, with what it gave. -/
theorem Registers.andThen {x : Parse α} {f : α → Parse β} [Settled x]
    (rest : ∀ a s', x input s = .ok a s' → Registers input s' (stateOf (f a input s'))) :
    Registers input s (stateOf ((x >>= f) input s)) := by
  have same := Settled.both (x := x) input s
  rw [bind_apply]
  cases run : x input s with
  | error e s' =>
    rw [run] at same
    exact ⟨same.1, names_of_eq same.2⟩
  | ok a s' =>
    rw [run] at same
    obtain ⟨scopes, names⟩ := rest a s' run
    exact ⟨scopes.trans same.1, (names_of_eq same.2).trans names⟩

theorem registers_register {definition : Definition} (word : input.IsWord definition.key.name.name)
    {f : Bool → Parse β} (rest : ∀ a, Settled (f a)) :
    Registers input s (stateOf ((withSymbols (·.register definition) >>= f) input s)) := by
  have later (fresh : Bool) (s' : ParseState) (scopes : scopesOf s' = scopesOf s)
      (names : Names input s s') : Registers input s (stateOf (f fresh input s')) := by
    obtain ⟨scopes', definitions⟩ := (rest fresh).both input s'
    exact ⟨scopes'.trans scopes, names.trans (names_of_eq definitions)⟩
  rw [bind_apply]
  dsimp only [withSymbols]
  refine later _ _ ?_ ?_
  · simp only [scopesOf, SymbolTable.register]
    split <;> rfl
  · intro key found
    simp only [definitionsOf, SymbolTable.register] at found
    split at found
    · exact .inl found
    · by_cases same : key = definition.key
      · exact .inr (same ▸ word)
      · left
        simpa [definitionsOf, OrderedMap.contains, same] using found

theorem isWord_of_expectName {what : String} {token : Token}
    (run : expectName what input s = .ok token s') : input.IsWord token.text := by
  unfold expectName at run
  rw [peek_bind] at run
  rw [ite_apply] at run
  split at run
  · next isName =>
    rw [advance_apply] at run
    cases run
    exact ⟨s.cursor, isName, rfl⟩
  · obtain ⟨e, failed⟩ := unexpected_apply (α := Token) input s what
    rw [failed] at run
    cases run

theorem definitionBlock_registers (levels : Nat) (parent : NodeId) :
    Registers input s (stateOf (definitionBlock levels parent input s)) := by
  refine .andThen fun keyword s _ => .andThen fun type s _ => .andThen fun name s named =>
    .andThen fun _ s _ => .andThen fun scope s _ => ?_
  dsimp only
  have word := isWord_of_expectName named
  have rest (kind : DefinitionKind) (definition : Definition) (s : ParseState)
      (draft : IsDraft ⟨kind, type, ⟨scope, name.text⟩⟩ definition) :
      Registers input s (stateOf ((do
        let _ ← expect .rightBrace "'\x7d' to close definition body"
        let _ ← addNode (some parent)
          { kind := .definition kind type, name := name.text, scope := ← currentScope,
            span := keyword.span }
        if !(← withSymbols (·.register definition)) then
          warn (.duplicateDefinition ⟨kind, type, ⟨scope, name.text⟩⟩) name.span) input s)) := by
    refine .andThen fun _ s _ => .andThen fun _ s _ => .andThen fun _ s _ => ?_
    exact registers_register (by rw [draft.1]; exact word) fun _ => inferInstance
  rw [ite_apply]
  split
  · refine .andThen fun definition s read => rest _ definition s ?_
    exact returns_elementDefinition levels _ ⟨rfl, rfl⟩ input _ definition s read
  · refine .andThen fun definition s read => rest _ definition s ?_
    exact returns_propertyDefinition _ ⟨rfl, rfl⟩ input _ definition s read

end Definitions

/-- The change that only adds definitions with names among the tokens. -/
def naming : Change where
  holds input a b := Names input { document := a } { document := b }
  refl _ _ := .refl
  trans _ _ _ _ := .trans
  forest _ _ _ _ := names_of_eq rfl
  symbols _ _ _ definitions _ _ := names_of_eq definitions
  origin input s _ := names_of_eq (sameNames_originBlock input s).2

instance : naming.Whole where
  definition levels parent := ⟨fun _ _ => (definitionBlock_registers levels parent).2⟩
  enter _ := ⟨fun _ _ => names_of_eq rfl⟩
  close _ _ := names_of_eq rfl

theorem names_items {errors : List ParseError} : Names input s (items errors input s).2 :=
  change_items (C := naming)

end Parse

/-- A name among the tokens that are parsed is among those that are given. -/
theorem ParseInput.token_mem_ofTokens {source : String} {tokens : List Token}
    {options : ParseOptions} {index : Nat}
    (isName : ((ofTokens source tokens options).token index).isName) :
    (ofTokens source tokens options).token index ∈ tokens := by
  generalize same : (ofTokens source tokens options).token index = token at isName
  have member : token ∈ (ofTokens source tokens options).tokens := by
    rw [← same]
    unfold ParseInput.token
    exact Array.getElem_mem _
  simp only [ofTokens, List.mem_toArray] at member
  unfold closed at member
  split at member
  · rw [List.mem_singleton.1 member] at isName
    cases isName
  · split at member
    · exact (List.mem_filter.1 member).1
    · rcases List.mem_append.1 member with early | last
      · exact (List.mem_filter.1 early).1
      · rw [List.mem_singleton.1 last] at isName
        cases isName

/-- No definition that is read has a colon in its name. -/
theorem ParseResult.colon_notMem_name {source : String} {stream : TokenStream}
    (tokenizes : TokenStream.ofSource source = .ok stream) (config : Config)
    (options : ParseOptions) {key : DefinitionKey}
    (found : (ofTokens source stream.tokens { config }
      options).document.symbols.definitions.contains key) :
    ':' ∉ key.name.name.toList := by
  let input := ParseInput.ofTokens source stream.tokens options
  let s := (Parse.items [] input { document := { symbols := { config } } }).2
  have definitions : (ofTokens source stream.tokens { config }
      options).document.symbols.definitions = Parse.definitionsOf s := by
    have same := Parse.activateAll_eq s.activations.reverse s.document.symbols.exitAll
    change (Parse.activateAll s.activations.reverse
      s.document.symbols.exitAll).1.definitions = _
    rw [same]
    rfl
  rw [definitions] at found
  have names : Parse.Names input { document := { symbols := { config } } } s := Parse.names_items
  rcases names key found with start | ⟨index, isName, text⟩
  · cases start
  · rw [← text]
    exact TokenStream.colon_notMem_of_isName tokenizes (ParseInput.token_mem_ofTokens isName) isName

namespace QualifiedName

variable {name : QualifiedName}

theorem cutFrom_append {front passed rest : List Char} (plain : ':' ∉ front) :
    cutFrom passed (front ++ ':' :: ':' :: rest) =
      some ⟨String.ofList rest.reverse, String.ofList (front.reverse ++ passed)⟩ := by
  induction front generalizing passed with
  | nil => rfl
  | cons c front ih =>
    obtain ⟨differs, plain⟩ := not_or.1 (List.mem_cons.not.1 plain)
    have step : cutFrom passed (c :: (front ++ ':' :: ':' :: rest)) =
        cutFrom (c :: passed) (front ++ ':' :: ':' :: rest) := by
      rw [cutFrom]
      rintro _ rfl _
      exact differs rfl
    rw [List.cons_append, step, ih plain]
    simp

theorem cutFrom_eq_none {front passed : List Char} (plain : ':' ∉ front) :
    cutFrom passed front = none := by
  induction front generalizing passed with
  | nil => rfl
  | cons c front ih =>
    obtain ⟨differs, plain⟩ := not_or.1 (List.mem_cons.not.1 plain)
    rw [cutFrom, ih plain]
    rintro _ rfl _
    exact differs rfl

/-- What is written for a name in a namespace is read as that name. -/
theorem ofText?_label (plain : ':' ∉ name.name.toList) :
    ofText? name.label = if name.scope.isEmpty then none else some name := by
  unfold ofText? label
  split
  · exact cutFrom_eq_none (by simpa using plain)
  · have text : (name.scope ++ "::" ++ name.name).toList.reverse =
        name.name.toList.reverse ++ ':' :: ':' :: name.scope.toList.reverse := by simp
    rw [text, cutFrom_append (by simpa using plain)]
    simp

theorem label_injective {other : QualifiedName} (plain : ':' ∉ name.name.toList)
    (plain' : ':' ∉ other.name.toList) (same : name.label = other.label) : name = other := by
  have read : (if name.scope.isEmpty then none else some name) =
      if other.scope.isEmpty then none else some other := by
    rw [← ofText?_label plain, ← ofText?_label plain', same]
  obtain ⟨scope, text⟩ := name
  obtain ⟨scope', text'⟩ := other
  by_cases outer : scope.isEmpty
  · by_cases outer' : scope'.isEmpty
    · cases String.isEmpty_iff.1 outer
      cases String.isEmpty_iff.1 outer'
      cases (show text = text' from same)
      rfl
    · simp [outer, outer'] at read
  · by_cases outer' : scope'.isEmpty
    · simp [outer, outer'] at read
    · simpa [outer, outer'] using read

end QualifiedName

end TemplateMarkup
