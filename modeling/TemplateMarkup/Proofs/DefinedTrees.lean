import TemplateMarkup.Proofs.InheritanceGraph
import TemplateMarkup.Proofs.StoredContent

/-! The trees that definitions mean. Inheriting and editing put trees beside one another and never
into one another, so each of them belongs to a definition or is brought by an edit in the document
as it was read. -/
namespace TemplateMarkup

namespace TreeContent

variable {content : TreeContent} {trees : List NodeId → List NodeTree} {P : NodeTree → Prop}

/-- Every element of some content has a property. -/
def All (P : NodeTree → Prop) (content : TreeContent) : Prop := ∀ tree ∈ content.elements, P tree

section

variable (all : All P content)

include all

theorem All.fill (fills : OrderedMap String Value) : All P (content.fill fills) := by
  unfold TreeContent.fill
  exact List.foldlRecOn fills.toList _ all fun _ kept _ _ => kept

theorem All.merge {parent : TreeContent} (more : All P parent) :
    All P (content.merge parent) := fun tree member =>
  (List.mem_append.1 member).elim (all tree) (more tree)

theorem All.withOwn {own : TreeContent} (more : All P own) :
    All P (content.withOwn own) := fun tree member =>
  (List.mem_append.1 member).elim (more tree) (all tree)

theorem All.removeElement (index : Nat) : All P (content.removeElement index) := fun tree member =>
  all tree (List.mem_of_mem_eraseIdx member)

theorem All.deleteElement (first : Nat) (target : Target) :
    All P (content.deleteElement first target) := by
  unfold TreeContent.deleteElement
  split
  · exact all.removeElement _
  · exact all

theorem All.deleteName (first : Nat) (name : String) : All P (content.deleteName first name) := by
  unfold TreeContent.deleteName
  split
  · exact all.deleteElement first _
  · unfold TreeContent.deleteProperty
    split <;> exact all

theorem All.placeElements {more : List NodeTree} (index : Nat) (new : ∀ tree ∈ more, P tree) :
    All P (content.placeElements index more) := by
  intro tree member
  rcases List.mem_append.1 member with front | back
  · rcases List.mem_append.1 front with old | added
    · exact all tree (List.mem_of_mem_take old)
    · exact new tree added
  · exact all tree (List.mem_of_mem_drop back)

theorem All.insertElements {more : List NodeTree} (first : Nat) (position : InsertPosition)
    (new : ∀ tree ∈ more, P tree) : All P (content.insertElements first position more) := by
  unfold TreeContent.insertElements
  cases position with
  | top => exact all.placeElements 0 new
  | bottom => exact all.placeElements _ new
  | before | after =>
    dsimp only
    split
    · exact all.placeElements _ new
    · exact all
  | replace target =>
    dsimp only
    split
    · exact (all.removeElement _).placeElements _ new
    · exact all

theorem All.apply {edit : Edit} (new : ∀ tree ∈ trees edit.payload, P tree) (first : Nat) :
    All P (content.apply trees first edit) := by
  unfold TreeContent.apply
  split
  · exact List.foldlRecOn _ _ all fun _ kept name _ => kept.deleteName first name
  · exact all.deleteElement first _
  · exact all
  · split
    · exact all.insertElements first _ new
    · exact all
  · split
    · exact all
    · unfold TreeContent.insertProperties
      split <;> exact all

theorem All.applyAll {edits : List Edit} (new : ∀ edit ∈ edits, ∀ tree ∈ trees edit.payload, P tree)
    (first : Nat) : All P (content.applyAll trees first edits) :=
  List.foldlRecOn edits _ all fun _ kept edit member => kept.apply (new edit member) first

theorem All.received {usage : Usage}
    (new : ∀ edit ∈ usage.edits, ∀ tree ∈ trees edit.payload, P tree) (first : Nat)
    (kind : DefinitionKind) : All P (content.received trees first usage kind) := by
  have typed : All P { content with type := usage.type } := all
  have filled := typed.fill usage.fills
  unfold TreeContent.received
  dsimp only
  split
  · exact filled.applyAll new first
  · exact filled

end

end TreeContent

namespace Document

variable {document : Document} {P : NodeTree → Prop}

/-- A property of the trees that definitions have for themselves and that edits bring. -/
def AllDefined (document : Document) (P : NodeTree → Prop) : Prop :=
  ∀ id tree, id ∈ document.symbols.owned ∨ document.Brings id →
    document.forest.tree? id = some tree → P tree

theorem AllDefined.treesOf {ids : List NodeId} (each : document.AllDefined P)
    (used : ∀ id ∈ ids, id ∈ document.symbols.owned ∨ document.Brings id) :
    ∀ tree ∈ document.forest.treesOf ids, P tree := by
  intro tree member
  obtain ⟨id, inside, there⟩ := List.mem_filterMap.1 member
  exact each id tree (used id inside) there

/-- What a usage brings has the property too. -/
theorem AllDefined.edits {usage : Usage} (each : document.AllDefined P)
    (brings : ∀ id ∈ usage.payload, document.Brings id) :
    ∀ edit ∈ usage.edits, ∀ tree ∈ document.forest.treesOf edit.payload, P tree :=
  fun edit member => each.treesOf fun id inside =>
    .inr (brings id (List.mem_flatMap.2 ⟨edit, member, inside⟩))

theorem all_meaning (each : document.AllDefined P) {fuel : Nat} {key : DefinitionKey}
    {view : TreeContent} (known : document.meaning fuel key = some view) : view.All P := by
  induction fuel generalizing key view with
  | zero => cases known
  | succ fuel ih =>
    obtain ⟨definition, inherited, found, run, rfl⟩ := meaning_eq_some.1 known
    have parents (parents : List Inheritance) (content : TreeContent) (all : content.All P)
        (brings : ∀ p ∈ parents, ∀ id ∈ p.parent.payload, document.Brings id)
        (run : parents.foldlM (document.inheritFrom (document.meaning fuel) key) content =
          some inherited) : inherited.All P := by
      induction parents generalizing content with
      | nil =>
        cases run
        exact all
      | cons inheritance parents rest =>
        rw [List.foldlM_cons] at run
        obtain ⟨next, step, run⟩ := Option.bind_eq_some_iff.1 run
        refine rest next ?_ (fun p member => brings p (.tail _ member)) run
        unfold inheritFrom at step
        dsimp only at step
        split at step
        · cases step
          exact all
        · obtain ⟨received, known, rfl⟩ := Option.map_eq_some_iff.1 step
          refine all.merge ((ih known).received (each.edits ?_) _ _)
          rw [Resolve.payload_parentUsage]
          exact brings inheritance (.head _)
    have above : inherited.All P := by
      refine parents _ { type := key.type } (by simp [TreeContent.All]) ?_ run
      intro p member id inside
      have parent := (SymbolTable.mem_leftParents.1 member).1
      exact .inl ⟨p.parent, .inr ⟨key, definition, found, p, parent, rfl⟩, inside⟩
    have own : (document.bodyOf definition).All P := each.treesOf fun id member =>
      .inl (SymbolTable.mem_owned.2 ⟨key, definition, found, member⟩)
    refine (above.withOwn own).applyAll (fun edit member => each.treesOf fun id inside => ?_) _
    have written := List.mem_of_mem_filter member
    exact .inr (.inr ⟨key, definition, found, List.mem_flatMap.2 ⟨edit, written, inside⟩⟩)

/-- What holds of the trees of definitions and edits holds of those that definitions mean. -/
theorem Means.all {key : DefinitionKey} {view : TreeContent} (means : document.Means key view)
    (each : document.AllDefined P) : view.All P := by
  obtain ⟨fuel, known⟩ := means
  exact all_meaning each known

end Document

end TemplateMarkup
