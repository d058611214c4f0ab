import TemplateMarkup.Proofs.EditedTrees
import TemplateMarkup.Proofs.ResolveSteps

/-! What definitions mean, told from a document in which nothing has been worked out. -/
namespace TemplateMarkup

namespace TreeContent

/-- Gives properties the values that a usage has for them. -/
def fill (fills : OrderedMap String Value) (content : TreeContent) : TreeContent :=
  fills.toList.foldl (fun content e =>
    { content with
      valueless := content.valueless.filter (· ≠ e.1)
      properties := content.properties.insert e.1 e.2 }) content

/-- What a usage receives of a definition with some content; `trees` gives the trees that its
insertions bring. Only custom definitions can be edited. -/
def received (trees : List NodeId → List NodeTree) (first : Nat) (usage : Usage)
    (kind : DefinitionKind) (content : TreeContent) : TreeContent :=
  let filled := fill usage.fills { content with type := usage.type }
  if kind = .custom then filled.applyAll trees first usage.edits else filled

def merge (content parent : TreeContent) : TreeContent :=
  { content with
    properties := content.properties.insertAll parent.properties.toList
    valueless := Resolve.addNames content.valueless parent.valueless
    elements := content.elements ++ parent.elements }

/-- A definition's own content behind what it inherits. Its own elements stand first. -/
def withOwn (inherited own : TreeContent) : TreeContent :=
  let properties := inherited.properties.insertAll own.properties.toList
  { inherited with
    properties
    valueless := (Resolve.addNames inherited.valueless own.valueless).filter fun name =>
      !properties.contains name
    elements := own.elements ++ inherited.elements }

end TreeContent

namespace Document

variable (document : Document)

/-- What stands in the body of a definition. -/
def bodyOf (definition : Definition) : TreeContent :=
  { type := definition.key.type
    properties := definition.properties
    elements := document.forest.treesOf definition.elements
    valueless := definition.valueless }

/-- Adds a parent to what is inherited so far, where `meaning` gives the content of definitions. A
parent that is not defined is left out. -/
def inheritFrom (meaning : DefinitionKey → Option TreeContent) (key : DefinitionKey)
    (content : TreeContent) (inheritance : Inheritance) : Option TreeContent :=
  let usage := Resolve.parentUsage key inheritance.parent
  match document.symbols.usageKey usage with
  | none => some content
  | some parent => (meaning parent).map fun received =>
      content.merge (received.received document.forest.treesOf
        document.symbols.config.indexInitialCount usage parent.kind)

/-- What becomes of the inherited content in a definition. -/
def completed (definition : Definition) (inherited : TreeContent) : TreeContent :=
  (inherited.withOwn (document.bodyOf definition)).applyAll document.forest.treesOf
    document.symbols.config.indexInitialCount
    (definition.edits.filter fun edit => !Resolve.isParentDeletion edit)

/-- The content of a definition, if no more than `fuel` definitions stand above one another. -/
def meaning : Nat → DefinitionKey → Option TreeContent
  | 0, _ => none
  | fuel + 1, key => do
    let definition ← document.symbols.definition? key
    let inherited ← (Resolve.leftParents definition.edits definition.parents).foldlM
      (document.inheritFrom (meaning fuel) key) { type := key.type }
    some (document.completed definition inherited)

def Means (key : DefinitionKey) (content : TreeContent) : Prop :=
  ∃ fuel, document.meaning fuel key = some content

variable {document}

variable {key : DefinitionKey} {content : TreeContent}

theorem inheritFrom_mono {less more : DefinitionKey → Option TreeContent}
    (le : ∀ key content, less key = some content → more key = some content)
    {result : TreeContent} {inheritance : Inheritance}
    (h : document.inheritFrom less key content inheritance = some result) :
    document.inheritFrom more key content inheritance = some result := by
  unfold inheritFrom at h ⊢
  dsimp only at h ⊢
  revert h
  cases document.symbols.usageKey (Resolve.parentUsage key inheritance.parent) with
  | none =>
    exact id
  | some parent =>
    intro h
    dsimp only at h ⊢
    obtain ⟨received, known, rfl⟩ := Option.map_eq_some_iff.1 h
    rw [le parent received known, Option.map_some]

theorem inheritAll_mono {less more : DefinitionKey → Option TreeContent}
    (le : ∀ key content, less key = some content → more key = some content)
    {result : TreeContent} {parents : List Inheritance}
    (h : parents.foldlM (document.inheritFrom less key) content = some result) :
    parents.foldlM (document.inheritFrom more key) content = some result := by
  induction parents generalizing content with
  | nil => exact h
  | cons inheritance parents ih =>
    rw [List.foldlM_cons] at h ⊢
    obtain ⟨next, step, rest⟩ := Option.bind_eq_some_iff.1 h
    exact Option.bind_eq_some_iff.2 ⟨next, inheritFrom_mono le step, ih rest⟩

theorem meaning_eq_some {fuel : Nat} :
    document.meaning (fuel + 1) key = some content ↔
      ∃ definition inherited, document.symbols.definition? key = some definition ∧
        (Resolve.leftParents definition.edits definition.parents).foldlM
          (document.inheritFrom (document.meaning fuel) key) { type := key.type } =
            some inherited ∧
        document.completed definition inherited = content := by
  simp only [meaning, Option.bind_eq_bind, Option.bind_eq_some_iff, Option.some.injEq]
  constructor
  · rintro ⟨definition, found, inherited, run, same⟩
    exact ⟨definition, inherited, found, run, same⟩
  · rintro ⟨definition, inherited, found, run, same⟩
    exact ⟨definition, found, inherited, run, same⟩

theorem meaning_succ {fuel : Nat}
    (h : document.meaning fuel key = some content) :
    document.meaning (fuel + 1) key = some content := by
  induction fuel generalizing key content with
  | zero => cases h
  | succ fuel ih =>
    obtain ⟨definition, inherited, found, run, same⟩ := meaning_eq_some.1 h
    exact meaning_eq_some.2
      ⟨definition, inherited, found, inheritAll_mono (fun _ _ => ih) run, same⟩

theorem meaning_mono {n m : Nat} (le : n ≤ m)
    (h : document.meaning n key = some content) : document.meaning m key = some content := by
  induction le with
  | refl => exact h
  | step _ ih => exact meaning_succ ih

/-- A definition has one meaning. -/
theorem Means.unique {content' : TreeContent}
    (h : document.Means key content) (h' : document.Means key content') : content = content' := by
  obtain ⟨n, known⟩ := h
  obtain ⟨m, known'⟩ := h'
  have both := (meaning_mono (Nat.le_add_right n m) known).symm.trans
    (meaning_mono (Nat.le_add_left m n) known')
  exact Option.some.inj both

theorem Means.registered
    (means : document.Means key content) :
    ∃ definition, document.symbols.definition? key = some definition := by
  obtain ⟨fuel, known⟩ := means
  cases fuel with
  | zero => cases known
  | succ fuel =>
    obtain ⟨definition, _, found, -⟩ := meaning_eq_some.1 known
    exact ⟨definition, found⟩

end Document

end TemplateMarkup
