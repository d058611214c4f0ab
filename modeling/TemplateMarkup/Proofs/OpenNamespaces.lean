import TemplateMarkup.Proofs.DocumentChanges
import TemplateMarkup.Proofs.OriginBlocks

/-! The open namespaces and the definitions while a document is read. Only an item that is a
namespace opens or closes any, and only a definition adds one; all that stands in elements and
statements leaves both as they are. -/
namespace TemplateMarkup.Parse

/-- The paths of the open namespaces, innermost first. -/
def scopesOf (s : ParseState) : List String := s.document.symbols.openScopes

def definitionsOf (s : ParseState) : OrderedMap DefinitionKey Definition :=
  s.document.symbols.definitions

/-- The same namespaces are open, and the same definitions known. -/
def SameNames (a b : Document) : Prop :=
  b.symbols.openScopes = a.symbols.openScopes ∧ b.symbols.definitions = a.symbols.definitions

theorem sameNames_originBlock (input : ParseInput) (s : ParseState) :
    SameNames s.document (stateOf (originBlock input s)).document := by
  rcases originBlock_cases input s with
    ⟨e, s', failed, same⟩ | ⟨word, content, t, id, s', -, -, run, records⟩
  · rw [failed]
    simp [stateOf, same, SameNames]
  · rw [run]
    rcases records.symbols with same | ⟨name, text, -, -, registered⟩
    · simp [stateOf, same, SameNames]
    · rw [SymbolTable.registerOrigin_eq] at registered
      simp [stateOf, registered, SameNames]

/-- The change that leaves the open namespaces and the definitions as they are. -/
def settling : Change where
  holds _ := SameNames
  refl _ _ := ⟨rfl, rfl⟩
  trans _ _ _ _ first second := ⟨second.1.trans first.1, second.2.trans first.2⟩
  forest _ _ _ _ := ⟨rfl, rfl⟩
  symbols _ _ _ definitions _ scopes := ⟨scopes, definitions⟩
  origin input s _ := sameNames_originBlock input s

/-- A parse that leaves the open namespaces and the definitions as they are, also where it
fails. -/
abbrev Settled {α : Type} (x : Parse α) : Prop := Makes settling x

theorem Settled.both {α : Type} {x : Parse α} [settled : Settled x] (input : ParseInput)
    (s : ParseState) : scopesOf (stateOf (x input s)) = scopesOf s ∧
      definitionsOf (stateOf (x input s)) = definitionsOf s :=
  settled.change input s

instance : Settled originBlock := ⟨sameNames_originBlock⟩

instance (parent : NodeId) : Settled (commentChild parent) := by
  have added (token : Token) : Settled (addNode (some parent) (commentNode token)) :=
    ⟨fun _ _ => ⟨rfl, rfl⟩⟩
  unfold commentChild
  infer_instance

instance (parent : NodeId) : Settled (originChild parent) := by
  have linked (id : NodeId) : Settled (modifyForest (·.append parent id)) :=
    ⟨fun _ _ => ⟨rfl, rfl⟩⟩
  unfold originChild
  infer_instance

end TemplateMarkup.Parse
