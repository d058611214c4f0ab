import TemplateMarkup.Resolving.Variables

/-! The steps of resolving as functions of the state. Only looking up a usage and meeting a
definition that is underway can fail; copying, filling in and editing always succeed. -/
namespace TemplateMarkup

/-- A usage only stands for definitions of its type. -/
theorem SymbolTable.type_of_usageKey {table : SymbolTable} {usage : Usage} {key : DefinitionKey}
    (found : table.usageKey usage = some key) : key.type = usage.type := by
  obtain ⟨_, qualified, _, _, here, _⟩ := List.findSome?_eq_some_iff.1 found
  obtain ⟨kind, -, rfl⟩ := List.mem_map.1 (List.mem_of_find?_eq_some here)
  rfl

/-- The value of a run that ends well. -/
def valueOf? {ε σ α : Type} : EStateM.Result ε σ α → Option α
  | .ok a _ => some a
  | .error _ _ => none

theorem eq_ok_of_valueOf? {ε σ α : Type} {r : EStateM.Result ε σ α} {a : α}
    (ended : valueOf? r = some a) : ∃ s, r = .ok a s := by
  cases r with
  | ok b s =>
    cases ended
    exact ⟨s, rfl⟩
  | error e s => cases ended

/-- A warning that tells neither of a property without a value nor of a variable. -/
def ResolveWarning.isOther : ResolveWarning → Bool
  | .unfilled _ _ | .noVariable _ _ | .templateOverride _ | .variableTooDeep _ => false
  | _ => true

namespace Resolve

theorem bind_apply {α β : Type} (x : Resolve α) (f : α → Resolve β) (s : ResolveState) :
    (x >>= f) s = match x s with
      | .ok a s' => f a s'
      | .error e s' => .error e s' := by
  change EStateM.bind x f s = _
  unfold EStateM.bind
  cases x s <;> rfl

theorem pure_apply {α : Type} (a : α) (s : ResolveState) : (pure a : Resolve α) s = .ok a s :=
  rfl

theorem symbols_apply (s : ResolveState) : symbols s = .ok s.document.symbols s := rfl

theorem copyElements_apply (elements : List NodeId) (s : ResolveState) :
    copyElements elements s = .ok (Forest.copyAll elements s.document.forest).1
      { s with document := { s.document with
          forest := (Forest.copyAll elements s.document.forest).2 } } := rfl

/-- The parents of a definition that none of its edits deletes. -/
def leftParents (edits : List Edit) (parents : List Inheritance) : List Inheritance :=
  parents.filter fun p => !edits.any (· == .deleteParent p.parent.type p.parent.name)

private theorem leftParents_deleteParent (type : DefinitionType) (name : String)
    (edits : List Edit) (parents : List Inheritance) :
    leftParents (.deleteParent type name :: edits) parents =
      leftParents edits
        (parents.filter fun p => !(p.parent.type == type && p.parent.name == name)) := by
  rw [leftParents, leftParents, List.filter_filter]
  apply List.filter_congr
  intro p _
  have same : (Edit.deleteParent type name == .deleteParent p.parent.type p.parent.name) =
      (p.parent.type == type && p.parent.name == name) := by
    rw [Bool.eq_iff_iff, Bool.and_eq_true, beq_iff_eq, beq_iff_eq, beq_iff_eq,
      Edit.deleteParent.injEq]
    exact ⟨fun h => ⟨h.1.symm, h.2.symm⟩, fun h => ⟨h.1.symm, h.2.symm⟩⟩
  rw [List.any_cons, same, Bool.not_or, Bool.and_comm]

private theorem leftParents_other {edit : Edit} (h : isParentDeletion edit = false)
    (edits : List Edit) (parents : List Inheritance) :
    leftParents (edit :: edits) parents = leftParents edits parents := by
  have differs : ∀ type name, (edit == .deleteParent type name) = false := by
    intro type name
    cases edit <;> simp_all [isParentDeletion]
  simp [leftParents, differs]

/-- Deleting parents only adds warnings. -/
theorem keptParents_apply (key : DefinitionKey) (edits : List Edit) (parents : List Inheritance)
    (s : ResolveState) :
    ∃ warnings, keptParents key edits parents s =
      .ok (leftParents edits parents) { s with warnings } := by
  induction edits generalizing parents s with
  | nil =>
    have all : leftParents [] parents = parents := List.filter_eq_self.2 fun _ _ => rfl
    rw [all]
    exact ⟨s.warnings, rfl⟩
  | cons edit edits ih =>
    unfold keptParents at ih ⊢
    rw [List.foldlM_cons]
    cases edit with
    | deleteParent type name =>
      rw [leftParents_deleteParent]
      dsimp only
      split
      · exact ih _ { s with warnings := .noParentToDelete key type name :: s.warnings }
      · exact ih _ s
    | _ =>
      rw [leftParents_other rfl]
      exact ih parents s

/-- What a usage receives from a definition that has been worked out. -/
def receive (usage : Usage) (definition : Definition) (s : ResolveState) :
    Content × ResolveState :=
  let copies := Forest.copyAll definition.elements s.document.forest
  let copied : ResolveState := { s with document := { s.document with forest := copies.2 } }
  let content := fill usage.fills
    { type := usage.type
      properties := definition.properties
      elements := copies.1
      valueless := definition.valueless }
  if usage.edits.isEmpty then (content, copied)
  else if definition.isCustom then
    let start : EditState :=
      { content, forest := copies.2, warnings := s.warnings }
    let stop :=
      start.applyAll s.document.symbols.config.indexInitialCount (.usage usage) usage.edits
    (stop.content,
      { s with
        document := { s.document with forest := stop.forest }
        warnings := stop.warnings })
  else (content, { copied with warnings := .templateEdited usage :: s.warnings })

theorem receive_keeps (usage : Usage) (definition : Definition) (s : ResolveState) :
    (receive usage definition s).2.document.symbols = s.document.symbols ∧
      (receive usage definition s).2.exhausted = s.exhausted := by
  unfold receive
  dsimp only
  split
  · exact ⟨rfl, rfl⟩
  · split <;> exact ⟨rfl, rfl⟩

theorem receive_symbols (usage : Usage) (definition : Definition) (s : ResolveState) :
    (receive usage definition s).2.document.symbols = s.document.symbols :=
  (receive_keeps usage definition s).1

/-- The copy that is handed to a usage, before the edits of the usage. -/
def handed (usage : Usage) (definition : Definition) (s : ResolveState) : EditState :=
  let copies := Forest.copyAll definition.elements s.document.forest
  { content := fill usage.fills
      { type := usage.type
        properties := definition.properties
        elements := copies.1
        valueless := definition.valueless }
    forest := copies.2
    warnings := s.warnings }

/-- The copy with the edits of the usage, which only custom definitions take. -/
def edited (usage : Usage) (definition : Definition) (s : ResolveState) : EditState :=
  if definition.key.kind = .custom then
    (handed usage definition s).applyAll s.document.symbols.config.indexInitialCount
      (.usage usage) usage.edits
  else handed usage definition s

theorem receive_eq_edited (usage : Usage) (definition : Definition) (s : ResolveState) :
    (receive usage definition s).1 = (edited usage definition s).content ∧
      (receive usage definition s).2.document.forest = (edited usage definition s).forest := by
  unfold receive edited
  dsimp only
  cases plain : usage.edits.isEmpty with
  | true =>
    rw [if_pos rfl, List.isEmpty_iff.1 plain]
    split <;> exact ⟨rfl, rfl⟩
  | false =>
    by_cases custom : definition.key.kind = .custom
    · rw [if_neg (by simp), if_pos (by simp [Definition.isCustom, custom]), if_pos custom]
      exact ⟨rfl, rfl⟩
    · rw [if_neg (by simp), if_neg (by simp [Definition.isCustom, custom]), if_neg custom]
      exact ⟨rfl, rfl⟩

/-- A usage is looked up, what it names is worked out, and the usage receives a copy. -/
theorem instantiateWith_apply (resolve : DefinitionKey → Resolve Unit) (usage : Usage)
    (s : ResolveState) :
    instantiateWith resolve usage s =
      match s.document.symbols.usageKey usage with
      | none => .error (.undefinedReference usage.type usage.name) s
      | some key =>
        match resolve key s with
        | .error e s' => .error e s'
        | .ok _ s' =>
          match s'.document.symbols.definition? key with
          | none => .error (.undefinedReference usage.type usage.name) s'
          | some definition =>
            .ok (receive usage definition s').1 (receive usage definition s').2 := by
  unfold instantiateWith
  rw [bind_apply, symbols_apply]
  dsimp only
  cases s.document.symbols.usageKey usage with
  | none => rfl
  | some key =>
    dsimp only
    rw [bind_apply]
    cases resolve key s with
    | error e s' => rfl
    | ok _ s' =>
      dsimp only
      rw [bind_apply, symbols_apply]
      dsimp only
      cases s'.document.symbols.definition? key with
      | none => rfl
      | some definition =>
        dsimp only
        rw [receive, bind_apply, copyElements_apply]
        dsimp only
        split
        · rfl
        · split <;> rfl

/-- The content of a definition once its parents have been taken over. -/
def complete (definition : Definition) (inherited : Content) (s : ResolveState) :
    Content × ResolveState :=
  let start : EditState :=
    { content := withOwn inherited definition
      forest := s.document.forest
      warnings := s.warnings }
  let stop := start.applyAll s.document.symbols.config.indexInitialCount
    (.definition definition.key) (definition.edits.filter fun e => !isParentDeletion e)
  (stop.content,
    { s with
      document := { s.document with forest := stop.forest }
      warnings := stop.warnings })

/-- A definition takes over its parents one after the other, and then nothing can fail. -/
theorem contentOf_apply (resolve : DefinitionKey → Resolve Unit) (definition : Definition)
    (s : ResolveState) :
    ∃ warnings, contentOf resolve definition s =
      match (leftParents definition.edits definition.parents).foldlM
          (inherit resolve definition.key) { type := definition.key.type }
          { s with warnings } with
      | .error e s' => .error e s'
      | .ok inherited s' =>
        .ok (complete definition inherited s').1 (complete definition inherited s').2 := by
  obtain ⟨warnings, kept⟩ :=
    keptParents_apply definition.key definition.edits definition.parents s
  refine ⟨warnings, ?_⟩
  unfold contentOf
  rw [bind_apply, kept]
  dsimp only
  rw [bind_apply]
  cases (leftParents definition.edits definition.parents).foldlM
      (inherit resolve definition.key) { type := definition.key.type } { s with warnings } with
  | error | ok => rfl

section Tables

/-- The state that is left behind, by a success or by a failure. -/
def stateAfter {α : Type} : EStateM.Result ResolveError ResolveState α → ResolveState
  | .ok _ s => s
  | .error _ s => s

/-- A relation between states that every step on the way to the content of a definition keeps to. -/
structure Course (R : ResolveState → ResolveState → Prop) : Prop where
  refl (s : ResolveState) : R s s
  trans {s t u : ResolveState} (first : R s t) (second : R t u) : R s u
  warn (s : ResolveState) {warning : ResolveWarning} (other : warning.isOther = true) :
    R s { s with warnings := warning :: s.warnings }
  edit (site : EditSite) (edits : List Edit) (content : Content) (s : ResolveState) :
    R s (stateAfter (edit site edits content s))
  copy (elements : List NodeId) (s : ResolveState) : R s (stateAfter (copyElements elements s))
  exhaust (s : ResolveState) : R s { s with exhausted := true }
  mark (s : ResolveState) (key : DefinitionKey) (resolution : Resolution) :
    R s (s.setResolution key resolution)
  store (s : ResolveState) (key : DefinitionKey) (content : Content) : R s (s.store key content)

/-- However a computation ends, its states are related. -/
def Runs {α : Type} (R : ResolveState → ResolveState → Prop) (x : Resolve α) : Prop :=
  ∀ s, R s (stateAfter (x s))

namespace Course

variable {α β : Type} {R : ResolveState → ResolveState → Prop} (course : Course R)
  {resolve : DefinitionKey → Resolve Unit}

include course

theorem pure (a : α) : Runs R (pure a) := course.refl

theorem throw (e : ResolveError) : Runs R (throw e : Resolve α) := course.refl

theorem bind {x : Resolve α} {f : α → Resolve β} (first : Runs R x)
    (later : ∀ a, Runs R (f a)) : Runs R (x >>= f) := by
  intro s
  have here := first s
  rw [bind_apply]
  revert here
  cases x s with
  | ok a s' =>
    intro here
    exact course.trans here (later a s')
  | error e s' =>
    exact id

theorem foldlM {f : β → α → Resolve β} (each : ∀ b a, Runs R (f b a)) (items : List α) (b : β) :
    Runs R (items.foldlM f b) := by
  induction items generalizing b with
  | nil => exact course.pure b
  | cons a items ih =>
    rw [List.foldlM_cons]
    exact course.bind (each b a) ih

theorem warnThen {warning : ResolveWarning} (other : warning.isOther = true) (a : α) :
    Runs R (do Resolve.warn warning; return a) := fun s => course.warn s other

theorem instantiateWith (each : ∀ key, Runs R (resolve key)) (usage : Usage) :
    Runs R (instantiateWith resolve usage) := by
  refine course.bind course.refl fun table => ?_
  cases table.usageKey usage with
  | none => exact course.throw _
  | some key =>
    refine course.bind (each key) fun _ => course.bind course.refl fun table => ?_
    cases table.definition? key with
    | none => exact course.throw _
    | some definition =>
      refine course.bind (course.copy _) fun elements => ?_
      dsimp only
      split
      · exact course.pure _
      · split
        · exact course.edit _ _ _
        · exact course.warnThen rfl _

theorem inherit (each : ∀ key, Runs R (resolve key)) (key : DefinitionKey) (content : Content)
    (inheritance : Inheritance) : Runs R (inherit resolve key content inheritance) := by
  intro s
  have received := course.instantiateWith each (parentUsage key inheritance.parent) s
  unfold Resolve.inherit
  revert received
  cases Resolve.instantiateWith resolve (parentUsage key inheritance.parent) s with
  | ok parent s' =>
    exact id
  | error e s' =>
    intro received
    cases e with
    | cyclicInheritance names => exact received
    | undefinedReference type name => exact course.trans received (course.warn s' rfl)

theorem keptParents (key : DefinitionKey) (edits : List Edit) (parents : List Inheritance) :
    Runs R (keptParents key edits parents) := by
  refine course.foldlM (fun parents edit => ?_) edits parents
  cases edit with
  | deleteParent type name =>
    dsimp only
    split
    · exact course.warnThen rfl _
    · exact course.pure _
  | _ => exact course.pure _

theorem contentOf (each : ∀ key, Runs R (resolve key)) (definition : Definition) :
    Runs R (contentOf resolve definition) :=
  course.bind (course.keptParents _ _ _) fun _ =>
    course.bind (course.foldlM (course.inherit each _) _ _) fun _ => course.edit _ _ _

theorem resolveFrom (fuel : Nat) (path : List DefinitionKey) (key : DefinitionKey) :
    Runs R (resolveFrom fuel path key) := by
  induction fuel generalizing path key with
  | zero => exact course.exhaust
  | succ fuel ih =>
    intro s
    unfold Resolve.resolveFrom
    cases s.document.symbols.definition? key with
    | none => exact course.refl s
    | some definition =>
      dsimp only
      cases definition.resolution with
      | done | underway => exact course.refl s
      | pending =>
        have inside := course.contentOf (ih (path ++ [key])) definition
          (s.setResolution key .underway)
        have marked := course.mark s key .underway
        dsimp only
        cases run : Resolve.contentOf (Resolve.resolveFrom fuel (path ++ [key])) definition
            (s.setResolution key .underway) with
        | ok content s' =>
          rw [run] at inside
          exact course.trans (course.trans marked inside) (course.store s' key content)
        | error e s' =>
          rw [run] at inside
          exact course.trans (course.trans marked inside) (course.mark s' key .pending)

end Course

theorem Course.resolve {R : ResolveState → ResolveState → Prop} (course : Course R)
    (key : DefinitionKey) : Runs R (resolve key) := fun s => course.resolveFrom _ [] key s

/-- Of the table only the definitions may have changed. -/
def Redefines (s s' : ResolveState) : Prop :=
  s'.document.symbols =
    { s.document.symbols with definitions := s'.document.symbols.definitions }

variable {s s' s'' : ResolveState} {resolve : DefinitionKey → Resolve Unit}

theorem Redefines.refl (s : ResolveState) : Redefines s s := rfl

theorem Redefines.of_eq (same : s'.document.symbols = s.document.symbols) : Redefines s s' := by
  rw [Redefines, same]

theorem Redefines.trans (first : Redefines s s') (second : Redefines s' s'') :
    Redefines s s'' := by rw [Redefines, second, first]

theorem course_redefines : Course Redefines where
  refl := .refl
  trans := .trans
  warn _ _ _ := rfl
  edit _ _ _ _ := rfl
  copy _ _ := rfl
  exhaust _ := rfl
  mark _ _ _ := rfl
  store _ _ _ := rfl

end Tables

end Resolve

end TemplateMarkup
