import TemplateMarkup.Proofs.RecordedContent

/-! What a definition without edits comes to, told by what it has itself and what it receives of its
parents. Values are overridden from the back, keys stand in the order in which they first occur, and
elements are copied behind the definition's own. -/
namespace TemplateMarkup

section Lists

variable {α : Type} [BEq α] [LawfulBEq α]

theorem eraseDups_concat (items : List α) (a : α) [Decidable (a ∈ items)] :
    (items ++ [a]).eraseDups =
      if a ∈ items then items.eraseDups else items.eraseDups ++ [a] := by
  rw [List.eraseDups_append, List.removeAll]
  split
  · next there => simp [there]
  · next absent => simp [absent, List.eraseDups_cons]

end Lists

theorem Resolve.addNames_eraseDups (names more : List String) :
    addNames names.eraseDups more = (names ++ more).eraseDups := by
  unfold addNames
  induction more generalizing names with
  | nil => rw [List.append_nil, List.foldl_nil]
  | cons name more ih =>
    have step : (if names.eraseDups.contains name then names.eraseDups
        else names.eraseDups ++ [name]) = (names ++ [name]).eraseDups := by
      rw [eraseDups_concat]
      simp only [List.contains_iff_mem, List.mem_eraseDups]
    rw [List.foldl_cons, step, ih, List.append_assoc, List.singleton_append]

namespace OrderedMap

variable {κ ν : Type} [DecidableEq κ] {m : OrderedMap κ ν}

theorem keys_insert (m : OrderedMap κ ν) (key : κ) (value : ν) :
    (m.insert key value).keys = if key ∈ m.keys then m.keys else m.keys ++ [key] := by
  split
  · next there => exact keys_writeEntry_of_mem there
  · next absent =>
    have new : m.get? key = none := by
      rwa [← Option.not_isSome_iff_eq_none, get?_isSome]
    have entries := toList_insert new value
    simp only [toList] at entries
    simp [keys, entries]

theorem keys_insertAll {names : List κ} (known : m.keys = names.eraseDups)
    (entries : List (κ × ν)) :
    (m.insertAll entries).keys = (names ++ entries.map Prod.fst).eraseDups := by
  induction entries generalizing m names with
  | nil => simpa [insertAll] using known
  | cons e entries ih =>
    have step : (m.insert e.1 e.2).keys = (names ++ [e.1]).eraseDups := by
      rw [keys_insert, eraseDups_concat, known]
      simp only [List.mem_eraseDups]
    have rest := ih step
    rw [List.append_assoc] at rest
    exact rest

theorem get?_insertAll (m other : OrderedMap κ ν) (key : κ) :
    (m.insertAll other.toList).get? key = (other.get? key).or (m.get? key) := by
  have unique := other.nodup
  unfold insertAll toList get? at *
  generalize other.entries = entries at unique ⊢
  induction entries generalizing m with
  | nil => rfl
  | cons e entries ih =>
    obtain ⟨k, value⟩ := e
    rw [List.map_cons, List.nodup_cons] at unique
    have step := get?_insert m k key value
    have here : lookupEntry key ((k, value) :: entries) =
        if k = key then some value else lookupEntry key entries := rfl
    unfold get? at step
    rw [List.foldl_cons, ih _ unique.2, step, here]
    by_cases same : k = key
    · have none : lookupEntry key entries = none := by
        rw [← Option.not_isSome_iff_eq_none, lookupEntry_isSome, ← same]
        exact unique.1
      rw [none, if_pos same, if_pos same.symm]
      rfl
    · rw [if_neg same, if_neg (Ne.symm same)]

end OrderedMap

namespace TreeContent

/-- Content as it is compared. -/
def reading (content : TreeContent) : Reading :=
  { properties := content.properties
    valueless := content.valueless
    elements := content.elements.map some }

/-- Content in which what was received has been put together, in order. -/
structure Collects (content : TreeContent) (received : List TreeContent) : Prop where
  values : ∀ name, content.properties.get? name =
    received.reverse.findSome? fun r => r.properties.get? name
  keys : content.properties.keys = (received.flatMap fun r => r.properties.keys).eraseDups
  valueless : content.valueless = (received.flatMap fun r => r.valueless).eraseDups
  elements : content.elements = received.flatMap fun r => r.elements

theorem Collects.merge {content parent : TreeContent} {received : List TreeContent}
    (collects : content.Collects received) :
    (content.merge parent).Collects (received ++ [parent]) where
  values := by
    intro name
    change (content.properties.insertAll parent.properties.toList).get? name = _
    rw [OrderedMap.get?_insertAll, collects.values, List.reverse_append, List.reverse_singleton,
      List.singleton_append, List.findSome?_cons]
    cases parent.properties.get? name <;> rfl
  keys := by
    change (content.properties.insertAll parent.properties.toList).keys = _
    rw [OrderedMap.keys_insertAll collects.keys, List.flatMap_append]
    simp [OrderedMap.keys, OrderedMap.toList]
  valueless := by
    change Resolve.addNames content.valueless parent.valueless = _
    rw [collects.valueless, Resolve.addNames_eraseDups, List.flatMap_append]
    simp
  elements := by
    change content.elements ++ parent.elements = _
    rw [collects.elements, List.flatMap_append]
    simp

theorem collects_merge {content : TreeContent} {received more : List TreeContent}
    (collects : content.Collects received) :
    (more.foldl merge content).Collects (received ++ more) := by
  induction more generalizing content received with
  | nil => rwa [List.append_nil]
  | cons parent more ih =>
    have step : (content.merge parent).Collects (received ++ [parent]) := collects.merge
    have rest := ih step
    rwa [List.append_assoc] at rest

end TreeContent

/-- What a definition's record is made of: what it has itself, and what it receives of its parents,
in their order. Nothing of it is in the forest before, but for its own elements. -/
structure Definition.MadeOf (own : Definition) (parents : List Reading) (before : Forest)
    (resolved : Definition) (after : Forest) : Prop where
  values : ∀ name, resolved.properties.get? name =
    (own.properties.get? name).or (parents.reverse.findSome? fun p => p.properties.get? name)
  keys : resolved.properties.keys =
    (parents.flatMap (fun p => p.properties.keys) ++ own.properties.keys).eraseDups
  valueless : resolved.valueless =
    (parents.flatMap (fun p => p.valueless) ++ own.valueless).eraseDups.filter
      fun name => !resolved.properties.contains name
  elements : ∃ copies, resolved.elements = own.elements ++ copies ∧
    own.elements.map after.tree? = own.elements.map before.tree? ∧
    copies.map after.tree? = parents.flatMap (fun p => p.elements) ∧
    ∀ id ∈ copies, before.slots.size ≤ id.index

/-- What is stored for a definition, as it is compared. -/
def Definition.reading (definition : Definition) (forest : Forest) : Reading :=
  { properties := definition.properties
    valueless := definition.valueless
    elements := definition.elements.map forest.tree? }

namespace Resolve

/-- What a usage receives, as it is compared, unless it cannot be instantiated. -/
def received? (usage : Usage) (s : ResolveState) : Option Reading :=
  match instantiateWith resolve usage s with
  | .ok content s' => some
      { properties := content.properties
        valueless := content.valueless
        elements := content.elements.map s'.document.forest.tree? }
  | .error _ _ => none

variable {original : Document} {s s' : ResolveState} {key : DefinitionKey} {usage : Usage}

theorem received?_of_undefined (standing : Standing original s)
    (undefined : original.symbols.usageKey usage = none) : received? usage s = none := by
  unfold received?
  rw [instantiateWith_apply, standing.rests.resembles.usageKey, undefined]

theorem received?_of_succeeds (keyed : original.symbols.Keyed) (standing : Standing original s)
    (brings : ∀ id ∈ usage.payload, original.Brings id)
    (found : original.symbols.usageKey usage = some key) {view : TreeContent}
    (succeeds : Succeeds original key view) :
    received? usage s = some (view.received original.forest.treesOf
      original.symbols.config.indexInitialCount usage key.kind).reading := by
  have receives := instantiateWith_receives keyed standing fun id member =>
    standing.stored.brought id (brings id member)
  unfold received?
  revert receives
  cases instantiateWith resolve usage s with
  | error e t =>
    intro receives
    exact absurd receives.2 (succeeds.not_denied keyed found)
  | ok content t =>
    rintro ⟨-, key', view', found', succeeds', shown⟩
    cases found.symm.trans found'
    cases succeeds.means.unique succeeds'.means
    refine congrArg some ?_
    unfold TreeContent.reading
    rw [shown.properties, shown.valueless, shown.elements]

/-- What is inherited is put together of what the parents that are defined give. -/
theorem inheritAll_received (keyed : original.symbols.Keyed) (standing : Standing original s)
    {parents : List Inheritance} {fuel : Nat} {content result : TreeContent}
    (settles : ∀ p ∈ parents, ∀ parent,
      original.symbols.usageKey (parentUsage key p.parent) = some parent →
        original.symbols.Settles parent)
    (brings : ∀ p ∈ parents, ∀ id ∈ p.parent.payload, original.Brings id)
    (gathered : parents.foldlM (original.inheritFrom (original.meaning fuel) key) content =
      some result) :
    ∃ received : List TreeContent, result = received.foldl TreeContent.merge content ∧
      (parents.filterMap fun p => received? (parentUsage key p.parent) s) =
        received.map TreeContent.reading ∧
      ∀ p ∈ parents, (received? (parentUsage key p.parent) s).isSome =
        (original.symbols.usageKey (parentUsage key p.parent)).isSome := by
  induction parents generalizing content with
  | nil =>
    cases gathered
    exact ⟨[], rfl, rfl, by simp⟩
  | cons p parents ih =>
    rw [List.foldlM_cons] at gathered
    obtain ⟨next, step, rest⟩ := Option.bind_eq_some_iff.1 gathered
    obtain ⟨received, result_eq, same, defined⟩ := ih
      (fun q member => settles q (.tail _ member)) (fun q member => brings q (.tail _ member)) rest
    unfold Document.inheritFrom at step
    dsimp only at step
    cases found : original.symbols.usageKey (parentUsage key p.parent) with
    | none =>
      have nothing := received?_of_undefined standing found
      rw [found] at step
      cases step
      refine ⟨received, result_eq, ?_, ?_⟩
      · rw [List.filterMap_cons, nothing]
        exact same
      · rw [List.forall_mem_cons, nothing, found]
        exact ⟨rfl, defined⟩
    | some parent =>
      rw [found] at step
      obtain ⟨view, means, rfl⟩ := Option.map_eq_some_iff.1 step
      have brought : ∀ id ∈ (parentUsage key p.parent).payload, original.Brings id := by
        rw [payload_parentUsage]
        exact brings p (.head _)
      have given := received?_of_succeeds keyed standing brought found
        ⟨⟨fuel, means⟩, settles p (.head _) parent found⟩
      refine ⟨_ :: received, result_eq, ?_, ?_⟩
      · rw [List.filterMap_cons, given, List.map_cons, same]
      · rw [List.forall_mem_cons, given, found]
        exact ⟨rfl, defined⟩

/-- A record that shows what a definition without edits means. -/
theorem madeOf_of_shows {document : Document} {definition resolved : Definition}
    {received : List TreeContent} {type : DefinitionType} {after : Forest} {copies : List NodeId}
    (plain : definition.edits = [])
    (shown : resolved.Shows after (document.completed definition
      (received.foldl TreeContent.merge { type })))
    (own : definition.Shows document.forest (document.bodyOf definition))
    (split : resolved.elements = definition.elements ++ copies)
    (fresh : ∀ id ∈ copies, document.forest.slots.size ≤ id.index) :
    definition.MadeOf (received.map TreeContent.reading) document.forest resolved after := by
  have collects : (received.foldl TreeContent.merge { type }).Collects received :=
    TreeContent.collects_merge (⟨fun _ => rfl, rfl, rfl, rfl⟩ : TreeContent.Collects _ [])
  have unedited : document.completed definition (received.foldl TreeContent.merge { type }) =
      (received.foldl TreeContent.merge { type }).withOwn (document.bodyOf definition) := by
    rw [Document.completed, plain]
    rfl
  rw [unedited] at shown
  have properties : resolved.properties =
      (received.foldl TreeContent.merge { type }).properties.insertAll
        definition.properties.toList := shown.properties
  -- the definition's own elements show as many trees as there are of them
  have elements : definition.elements.map after.tree? ++ copies.map after.tree? =
      (document.forest.treesOf definition.elements).map some ++
        (received.flatMap fun r => r.elements).map some := by
    rw [← List.map_append, ← split, ← List.map_append, ← collects.elements]
    exact shown.elements
  have parts := List.append_inj elements (by
    rw [List.length_map, List.length_map]
    exact own.elements.length_eq)
  refine ⟨fun name => ?_, ?_, ?_, copies, split, ?_, ?_, fresh⟩
  · rw [properties, OrderedMap.get?_insertAll, collects.values, ← List.map_reverse,
      List.findSome?_map]
    rfl
  · rw [properties, OrderedMap.keys_insertAll collects.keys, List.flatMap_map]
    rfl
  · rw [List.flatMap_map]
    refine shown.valueless.trans ?_
    unfold TreeContent.withOwn
    dsimp only
    rw [collects.valueless, addNames_eraseDups, properties]
    rfl
  · exact parts.1.trans own.elements.symm
  · rw [parts.2, List.flatMap_map, List.map_flatMap]
    rfl

/-- A definition without edits is made of its own content and of what its parents give. -/
theorem madeOf_of_ok {document : Document} (unresolved : document.symbols.Unresolved)
    (stored : Stored document document) (earlier : List Demand) {definition : Definition}
    (found : document.symbols.definition? key = some definition) (plain : definition.edits = [])
    (ended : resolve key (Demand.runAll earlier { document }) = .ok () s') :
    (∀ p ∈ definition.parents,
      (received? (parentUsage key p.parent) (Demand.runAll earlier { document })).isSome =
        (document.symbols.usageKey (parentUsage key p.parent)).isSome) ∧
    ∃ resolved, s'.document.symbols.definition? key = some resolved ∧
      s'.document.forest.Roots s'.document.symbols.owned ∧
      definition.MadeOf (definition.parents.filterMap fun p =>
          received? (parentUsage key p.parent) (Demand.runAll earlier { document }))
        document.forest resolved s'.document.forest := by
  have keyed := unresolved.keyed
  have standing : Standing document (Demand.runAll earlier { document }) :=
    Demand.standing_runAll keyed ⟨stored, rests_of_unresolved unresolved⟩ earlier
  have answers := resolve_answers keyed key standing
  rw [ended] at answers
  obtain ⟨follows, view, resolved, succeeds, there, shown⟩ := answers
  obtain ⟨fuel, known⟩ := succeeds.means
  cases fuel with
  | zero => cases known
  | succ fuel =>
    obtain ⟨_, inherited, registered, gathered, rfl⟩ := Document.meaning_eq_some.1 known
    cases found.symm.trans registered
    have all : leftParents definition.edits definition.parents = definition.parents := by
      rw [plain]
      exact List.filter_eq_self.2 fun _ _ => rfl
    rw [all] at gathered
    obtain ⟨received, rfl, same, defined⟩ := inheritAll_received keyed standing
      (fun p member parent up => succeeds.settles.inv
        ⟨definition, found, p, member, by simp [plain], up⟩)
      (fun p member id inside => .inl ⟨p.parent, .inr ⟨key, definition, found, p, member, rfl⟩,
        inside⟩) gathered
    have recorded : Recorded document (Demand.runAll earlier { document }).document :=
      Demand.recorded_runAll unresolved earlier
    have registers : Registers document key (Demand.runAll earlier { document })
        (resolve key (Demand.runAll earlier { document })) :=
      resolveFrom_registers keyed _ [] key recorded
    rw [ended] at registers
    obtain ⟨passes, _, there', isDone⟩ := registers
    cases there.symm.trans there'
    obtain ⟨_, _, found', -, -, -, elements⟩ := passes.recorded.of_isDone there isDone
    cases found.symm.trans found'
    obtain ⟨copies, split, fresh⟩ := elements plain
    have own : definition.Shows document.forest (document.bodyOf definition) := by
      have tells := stored.tells key definition found
      unfold Document.Tells at tells
      rw [if_neg (by simp [unresolved.pending key definition found])] at tells
      exact tells.2
    refine ⟨defined, resolved, there, follows.standing.stored.roots, ?_⟩
    rw [same]
    exact madeOf_of_shows plain shown own split fresh

end Resolve

end TemplateMarkup
