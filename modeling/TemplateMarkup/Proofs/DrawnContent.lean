import TemplateMarkup.Proofs.ForestReplacements
import TemplateMarkup.Proofs.StoredContent

/-! Content told apart from the forest that holds its elements. What becomes of the properties has
nothing to do with the elements, and every element that is added gets a new name. -/
namespace TemplateMarkup

namespace Forest

variable {f : Forest}

theorem size_le_foldl {α : Type} {step : Forest → α → Forest}
    (grows : ∀ g a, g.slots.size ≤ (step g a).slots.size) (items : List α) (g : Forest) :
    g.slots.size ≤ (items.foldl step g).slots.size := by
  induction items generalizing g with
  | nil => exact Nat.le_refl _
  | cons a items ih => exact Nat.le_trans (grows g a) (ih (step g a))

/-- Copies get new names. -/
theorem size_le_copyFrom (fuel : Nat) (id : NodeId) (f : Forest) :
    f.slots.size ≤ (copyFrom fuel id f).2.slots.size ∧
      ∀ copy ∈ (copyFrom fuel id f).1, f.slots.size ≤ copy.index := by
  induction fuel generalizing id f with
  | zero => exact ⟨Nat.le_refl _, by simp [copyFrom]⟩
  | succ fuel ih =>
    rw [copyFrom]
    cases f.get? id with
    | none => exact ⟨Nat.le_refl _, by simp⟩
    | some node =>
      dsimp only
      constructor
      · have made : f.slots.size ≤ (f.insertDetached node).2.slots.size := by
          rw [size_insertDetached]
          exact Nat.le_succ _
        refine Nat.le_trans made (size_le_foldl (fun g child => ?_) _ _)
        have first := (ih child g).1
        split
        · next childCopy forest copied =>
          rw [copied] at first
          rw [append, size_insertAt]
          exact first
        · next forest copied =>
          rw [copied] at first
          exact first
      · rintro copy ⟨⟩
        exact Nat.le_refl _

theorem size_le_copyAll (ids : List NodeId) (f : Forest) :
    f.slots.size ≤ (copyAll ids f).2.slots.size ∧
      ∀ id ∈ (copyAll ids f).1, f.slots.size ≤ id.index := by
  induction ids generalizing f with
  | nil => exact ⟨Nat.le_refl _, by simp [copyAll]⟩
  | cons id ids ih =>
    have first := size_le_copyFrom f.slots.size id f
    have rest := ih (f.copy id).2
    refine ⟨Nat.le_trans first.1 rest.1, fun k member => ?_⟩
    rcases List.mem_append.1 member with here | later
    · exact first.2 k (Option.mem_toList.1 here)
    · exact Nat.le_trans first.1 (rest.2 k later)

theorem size_removeAll (ids : List NodeId) (f : Forest) :
    (removeAll ids f).slots.size = f.slots.size := by
  induction ids generalizing f with
  | nil => rfl
  | cons id ids ih => rw [removeAll, ih, size_remove]

end Forest

namespace TreeContent

/-- Content without its elements. -/
def bare (content : TreeContent) : TreeContent := { content with elements := [] }

variable (content : TreeContent)

theorem bare_deleteElement (first : Nat) (target : Target) :
    (content.deleteElement first target).bare = content.bare := by
  unfold deleteElement
  split <;> rfl

theorem bare_insertElements (first : Nat) (position : InsertPosition) (trees : List NodeTree) :
    (content.insertElements first position trees).bare = content.bare := by
  unfold insertElements
  cases position with
  | top | bottom => rfl
  | before target | after target | replace target =>
    dsimp only
    split <;> rfl

end TreeContent

/-- Content with the properties of `view` and with elements that are new since a forest had
`bound` names. -/
structure Content.Draws (content : Content) (bound : Nat) (view : TreeContent) : Prop where
  type : content.type = view.type
  properties : content.properties = view.properties
  valueless : content.valueless = view.valueless
  fresh : ∀ id ∈ content.elements, bound ≤ id.index

namespace Content.Draws

variable {content parent : Content} {bound : Nat} {view view' : TreeContent}

section

variable (draws : content.Draws bound view)

include draws

theorem congr (same : view'.bare = view.bare) : content.Draws bound view' where
  type := draws.type.trans (congrArg TreeContent.type same).symm
  properties := draws.properties.trans (congrArg TreeContent.properties same).symm
  valueless := draws.valueless.trans (congrArg TreeContent.valueless same).symm
  fresh := draws.fresh

theorem fill (fills : OrderedMap String Value) :
    (Resolve.fill fills content).Draws bound (view.fill fills) := by
  unfold Resolve.fill TreeContent.fill
  generalize fills.toList = entries
  induction entries generalizing content view with
  | nil => exact draws
  | cons e entries ih =>
    apply ih
    refine ⟨draws.type, ?_, ?_, draws.fresh⟩
    · dsimp only
      rw [draws.properties]
    · dsimp only
      rw [draws.valueless]

theorem merge (more : parent.Draws bound view') :
    (Resolve.merge content parent).Draws bound (view.merge view') := by
  refine ⟨draws.type, ?_, ?_, fun id member => ?_⟩
  · rw [Resolve.merge, TreeContent.merge, draws.properties, more.properties]
  · rw [Resolve.merge, TreeContent.merge, draws.valueless, more.valueless]
  · rcases List.mem_append.1 member with member | member
    · exact draws.fresh id member
    · exact more.fresh id member

/-- Nothing is said of a definition's own elements. -/
theorem withOwn (original : Document) (definition : Definition) :
    (Resolve.withOwn content definition).Draws 0 (view.withOwn (original.bodyOf definition)) := by
  refine ⟨draws.type, ?_, ?_, fun id _ => Nat.zero_le _⟩
  · rw [Resolve.withOwn, TreeContent.withOwn, draws.properties]
    rfl
  · rw [Resolve.withOwn, TreeContent.withOwn, draws.valueless, draws.properties]
    rfl

end

end Content.Draws

namespace EditState

/-- Content under edit that is drawn from `view`, in a forest with at least `size` names. -/
structure Draws (state : EditState) (bound size : Nat) (view : TreeContent) : Prop where
  content : state.content.Draws bound view
  size_le : size ≤ state.forest.slots.size
  bound_le : bound ≤ size

namespace Draws

variable {state : EditState} {bound size : Nat} {view : TreeContent}

section

variable (draws : state.Draws bound size view)

include draws

theorem warn (warning : ResolveWarning) : (state.warn warning).Draws bound size view :=
  ⟨draws.content, draws.size_le, draws.bound_le⟩

theorem removeElement (index : Nat) : (state.removeElement index).Draws bound size view := by
  have content := draws.content
  refine ⟨⟨content.type, content.properties, content.valueless, fun id member => ?_⟩, ?_,
    draws.bound_le⟩
  · exact content.fresh id (List.mem_of_mem_eraseIdx member)
  · unfold EditState.removeElement
    dsimp only
    split
    · rw [Forest.size_remove]
      exact draws.size_le
    · exact draws.size_le

theorem placeElements (index : Nat) {nodes : List NodeId} (fresh : ∀ id ∈ nodes, bound ≤ id.index) :
    (state.placeElements index nodes).Draws bound size view := by
  have content := draws.content
  refine ⟨⟨content.type, content.properties, content.valueless, fun id member => ?_⟩,
    draws.size_le, draws.bound_le⟩
  rcases List.mem_append.1 member with member | member
  · rcases List.mem_append.1 member with member | member
    · exact content.fresh id (List.mem_of_mem_take member)
    · exact fresh id member
  · exact content.fresh id (List.mem_of_mem_drop member)

theorem deleteElement (first : Nat) (site : EditSite) (target : Target) :
    (state.deleteElement first site target).Draws bound size view := by
  unfold EditState.deleteElement
  split
  · exact draws.removeElement _
  · exact draws.warn _

theorem deleteProperty (site : EditSite) (name : String) :
    (state.deleteProperty site name).Draws bound size (view.deleteProperty name) := by
  have content := draws.content
  unfold EditState.deleteProperty TreeContent.deleteProperty
  dsimp only
  rw [content.properties, content.valueless]
  split
  · exact ⟨⟨content.type, rfl, rfl, content.fresh⟩, draws.size_le, draws.bound_le⟩
  · exact draws.warn _

theorem deleteName (first first' : Nat) (site : EditSite) (name : String) :
    (state.deleteName first site name).Draws bound size (view.deleteName first' name) := by
  unfold EditState.deleteName TreeContent.deleteName
  rw [draws.content.type]
  split
  · have same := view.bare_deleteElement first' ⟨name, none⟩
    unfold EditState.deleteFirstElement
    split
    · have removed := draws.removeElement (by assumption)
      exact ⟨removed.content.congr same, removed.size_le, removed.bound_le⟩
    · exact ⟨draws.content.congr same, draws.size_le, draws.bound_le⟩
  · exact draws.deleteProperty site name

theorem deleteNames (first first' : Nat) (site : EditSite) (names : List String) :
    (names.foldl (fun state name => state.deleteName first site name) state).Draws bound size
      (names.foldl (fun view name => view.deleteName first' name) view) := by
  induction names generalizing state view with
  | nil => exact draws
  | cons name names ih => exact ih (draws.deleteName first first' site name)

theorem insertElements (first : Nat) (site : EditSite) (position : InsertPosition)
    (nodes : List NodeId) :
    (state.insertElements first site position nodes).Draws bound size view := by
  have copies := Forest.size_le_copyAll nodes state.forest
  have fresh : ∀ id ∈ (Forest.copyAll nodes state.forest).1, bound ≤ id.index :=
    fun id member =>
      Nat.le_trans draws.bound_le (Nat.le_trans draws.size_le (copies.2 id member))
  have laden : Draws { state with forest := (Forest.copyAll nodes state.forest).2 } bound size
      view := ⟨draws.content, Nat.le_trans draws.size_le copies.1, draws.bound_le⟩
  have dropped (warning : ResolveWarning) :
      ({ state with
        forest := Forest.removeAll (Forest.copyAll nodes state.forest).1
          (Forest.copyAll nodes state.forest).2 }.warn warning).Draws bound size view := by
    refine ⟨draws.content, ?_, draws.bound_le⟩
    dsimp only [EditState.warn]
    rw [Forest.size_removeAll]
    exact laden.size_le
  unfold EditState.insertElements
  cases position with
  | top => exact laden.placeElements 0 fresh
  | bottom => exact laden.placeElements _ fresh
  | before target | after target =>
    dsimp only
    split
    · exact laden.placeElements _ fresh
    · exact dropped _
  | replace target =>
    dsimp only
    split
    · exact (laden.removeElement _).placeElements _ fresh
    · exact dropped _

theorem insertProperties (site : EditSite) (position : InsertPosition)
    (payload : OrderedMap String Value) :
    (state.insertProperties site position payload).Draws bound size
      (view.insertProperties position payload) := by
  have content := draws.content
  unfold EditState.insertProperties TreeContent.insertProperties
  rw [content.properties]
  cases Content.insertProperties view.properties position payload with
  | ok properties =>
    exact ⟨⟨content.type, rfl, content.valueless, content.fresh⟩, draws.size_le, draws.bound_le⟩
  | error name => exact draws.warn _

/-- What becomes of the properties has nothing to do with the trees that edits bring. -/
theorem apply (trees : List NodeId → List NodeTree) (first first' : Nat) (site : EditSite)
    (edit : Edit) :
    (state.apply first site edit).Draws bound size (view.apply trees first' edit) := by
  unfold EditState.apply TreeContent.apply
  cases edit with
  | deleteNames names => exact draws.deleteNames first first' site names
  | deleteElement target =>
    have deleted := draws.deleteElement first site target
    exact ⟨deleted.content.congr (view.bare_deleteElement first' target), deleted.size_le,
      deleted.bound_le⟩
  | deleteParent type name => exact draws.warn _
  | insert position payload =>
    cases payload with
    | elements nodes =>
      dsimp only
      rw [draws.content.type]
      split
      · have inserted := draws.insertElements first site position nodes
        refine ⟨inserted.content.congr ?_, inserted.size_le, inserted.bound_le⟩
        exact view.bare_insertElements first' position (trees nodes)
      · exact draws.warn _
    | properties properties =>
      dsimp only
      rw [draws.content.type]
      split
      · exact draws.warn _
      · exact draws.insertProperties site position properties

theorem applyAll (trees : List NodeId → List NodeTree) (first first' : Nat) (site : EditSite)
    (edits : List Edit) :
    (state.applyAll first site edits).Draws bound size (view.applyAll trees first' edits) := by
  induction edits generalizing state view with
  | nil => exact draws
  | cons edit edits ih => exact ih (draws.apply trees first first' site edit)

end

end Draws

end EditState

namespace Resolve

variable {s : ResolveState} {view : TreeContent}

/-- What a usage receives is drawn from what is on record. -/
theorem receive_draws (usage : Usage) {definition : Definition} {bound : Nat}
    (size : bound ≤ s.document.forest.slots.size)
    (properties : definition.properties = view.properties)
    (valueless : definition.valueless = view.valueless) (trees : List NodeId → List NodeTree)
    (first : Nat) :
    (receive usage definition s).1.Draws bound
        (view.received trees first usage definition.key.kind) ∧
      bound ≤ (receive usage definition s).2.document.forest.slots.size := by
  have copies := Forest.size_le_copyAll definition.elements s.document.forest
  have grown := Nat.le_trans size copies.1
  have filled : (handed usage definition s).content.Draws bound
      (TreeContent.fill usage.fills { view with type := usage.type }) :=
    Content.Draws.fill ⟨rfl, properties, valueless, fun id member =>
      Nat.le_trans size (copies.2 id member)⟩ usage.fills
  obtain ⟨content, forest⟩ := receive_eq_edited usage definition s
  rw [content, forest]
  unfold edited TreeContent.received
  split
  · have start : EditState.Draws (handed usage definition s) bound bound
        (TreeContent.fill usage.fills { view with type := usage.type }) :=
      ⟨filled, grown, Nat.le_refl _⟩
    have edited := start.applyAll trees s.document.symbols.config.indexInitialCount first
      (.usage usage) usage.edits
    exact ⟨edited.content, edited.size_le⟩
  · exact ⟨filled, grown⟩

end Resolve

end TemplateMarkup
