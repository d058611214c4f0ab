import TemplateMarkup.Proofs.CycleDetection
import TemplateMarkup.Proofs.StoredContent

/-! Resolving stores what definitions mean, in whatever order they are asked for, and touches no
nodes but those of the definitions. -/
namespace TemplateMarkup

namespace Document

/-- The record of a definition stays what it was, and so do the subtrees that it holds. -/
structure Leaves (before after : Document) (key : DefinitionKey) : Prop where
  record : after.symbols.definition? key = before.symbols.definition? key
  spares : ∀ definition, before.symbols.definition? key = some definition →
    ∀ id ∈ definition.elements, before.forest.Spares after.forest id

/-- The content of a definition that was pending is worked out; nothing else in its record
changes. -/
def WorksOut (before after : Document) (key : DefinitionKey) : Prop :=
  ∃ definition properties elements valueless,
    before.symbols.definition? key = some definition ∧ definition.resolution = .pending ∧
    after.symbols.definition? key =
      some { definition with properties, elements, valueless, resolution := .done }

/-- Each definition is left as it was, or worked out. -/
def Proceeds (before after : Document) : Prop :=
  ∀ key, before.Leaves after key ∨ before.WorksOut after key

variable {original before between after : Document} {key : DefinitionKey}
  {definition : Definition}

theorem Leaves.refl (document : Document) (key : DefinitionKey) : document.Leaves document key :=
  ⟨rfl, fun _ _ id _ => .refl document.forest id⟩

theorem Leaves.trans (first : before.Leaves between key) (second : between.Leaves after key) :
    before.Leaves after key := by
  refine ⟨second.record.trans first.record, fun definition found id member => ?_⟩
  have there := first.record.trans found
  exact (first.spares definition found id member).trans (second.spares definition there id member)

theorem WorksOut.after_leaves (first : before.Leaves between key)
    (second : between.WorksOut after key) : before.WorksOut after key := by
  obtain ⟨definition, properties, elements, valueless, found, pending, done⟩ := second
  exact ⟨definition, properties, elements, valueless, first.record ▸ found, pending, done⟩

theorem WorksOut.then_leaves (first : before.WorksOut between key)
    (second : between.Leaves after key) : before.WorksOut after key := by
  obtain ⟨definition, properties, elements, valueless, found, pending, done⟩ := first
  exact ⟨definition, properties, elements, valueless, found, pending, second.record.trans done⟩

theorem WorksOut.pending (worksOut : before.WorksOut after key)
    (found : before.symbols.definition? key = some definition) :
    definition.resolution = .pending := by
  obtain ⟨definition', _, _, _, found', pending, -⟩ := worksOut
  cases found.symm.trans found'
  exact pending

theorem WorksOut.isDone (worksOut : before.WorksOut after key) :
    Resolve.IsDone after.symbols key := by
  obtain ⟨_, _, _, _, -, -, done⟩ := worksOut
  exact ⟨_, done, rfl⟩

theorem Proceeds.refl (document : Document) : document.Proceeds document :=
  fun key => .inl (.refl document key)

theorem Proceeds.trans (first : before.Proceeds between) (second : between.Proceeds after) :
    before.Proceeds after := by
  intro key
  rcases first key with left | out
  · rcases second key with left' | out'
    · exact .inl (left.trans left')
    · exact .inr (out'.after_leaves left)
  · rcases second key with left' | out'
    · exact .inr (out.then_leaves left')
    · -- what is done is not pending
      obtain ⟨_, found, done⟩ := out.isDone
      rw [out'.pending found] at done
      cases done

theorem Proceeds.leaves (proceeds : before.Proceeds after)
    (found : before.symbols.definition? key = some definition)
    (other : definition.resolution ≠ .pending) : before.Leaves after key := by
  rcases proceeds key with left | out
  · exact left
  · exact absurd (out.pending found) other

theorem Proceeds.of_turns {own : List NodeId} (stored : Stored original before)
    (turns : before.forest.Turns [] after.forest own) (same : after.symbols = before.symbols) :
    before.Proceeds after := by
  intro key
  refine .inl ⟨by rw [same], fun definition found id member => ?_⟩
  have root := stored.roots.isRoot id (SymbolTable.mem_owned.2 ⟨key, definition, found, member⟩)
  exact turns.spares id root (by simp)

theorem Proceeds.others {marked : Document} {k : DefinitionKey} (proceeds : marked.Proceeds between)
    (forest : marked.forest = before.forest)
    (same : marked.symbols.definition? k = before.symbols.definition? k)
    (same' : after.symbols.definition? k = between.symbols.definition? k)
    (spares : ∀ definition, between.symbols.definition? k = some definition →
      ∀ id ∈ definition.elements, between.forest.Spares after.forest id) :
    before.Leaves after k ∨ before.WorksOut after k := by
  rcases proceeds k with left | ⟨definition, properties, elements, valueless, found, pending, done⟩
  · refine .inl ⟨by rw [same', left.record, same], fun definition found id member => ?_⟩
    have found' : marked.symbols.definition? k = some definition := same.trans found
    have spared := left.spares definition found' id member
    rw [forest] at spared
    exact spared.trans (spares definition (left.record.trans found') id member)
  · exact .inr ⟨definition, properties, elements, valueless, same.symm.trans found, pending,
      same'.trans done⟩

end Document

namespace Resolve

/-- Some more definitions have been worked out, and `held` are new subtrees at hand. -/
structure Advances (original : Document) (s s' : ResolveState) (held : List NodeId) : Prop where
  stored : Stored original s'.document
  turns : s.document.forest.Turns s.document.symbols.owned s'.document.forest
    (s'.document.symbols.owned ++ held)
  proceeds : s.document.Proceeds s'.document

/-- How working out `key` may end. A definition that is registered is never reported missing. -/
def Ends (original : Document) (key : DefinitionKey) (s : ResolveState) :
    EStateM.Result ResolveError ResolveState Unit → Prop
  | .ok _ s' => Advances original s s' [] ∧ IsDone s'.document.symbols key
  | .error e s' => Advances original s s' [] ∧
      ∀ type name, e = .undefinedReference type name → s.document.symbols.definition? key = none

/-- How taking over parents may end, if the content is to become one of `views`. -/
def Collects (original : Document) (s : ResolveState) (views : TreeContent → Prop) :
    EStateM.Result ResolveError ResolveState Content → Prop
  | .ok content s' => Advances original s s' content.elements ∧
      ∃ view, views view ∧ content.Shows s'.document.forest view
  | .error e s' => Advances original s s' [] ∧ ∀ type name, e ≠ .undefinedReference type name

variable {original : Document} {s s' s'' : ResolveState} {content : Content} {view : TreeContent}
  {held : List NodeId}

theorem Advances.refl (stored : Stored original s.document) : Advances original s s [] where
  stored := stored
  turns := by simpa using .refl stored.grown s.document.symbols.owned
  proceeds := .refl s.document

theorem Advances.drop (advances : Advances original s s' held) : Advances original s s' [] where
  stored := advances.stored
  turns := by simpa using advances.turns.left
  proceeds := advances.proceeds

theorem Advances.trans (stored : Stored original s.document)
    (first : Advances original s s' held) (second : Advances original s' s'' []) :
    Advances original s s'' held where
  stored := second.stored
  turns := by
    have later := second.turns.frame held
    rw [List.append_nil] at later
    exact first.turns.trans later stored.roots
  proceeds := first.proceeds.trans second.proceeds

theorem Advances.roots (stored : Stored original s.document)
    (advances : Advances original s s' held) :
    s'.document.forest.Roots (s'.document.symbols.owned ++ held) :=
  advances.turns.roots_self stored.roots

/-- What is at hand stays what it is while more definitions are worked out. -/
theorem Advances.shows (stored : Stored original s.document)
    (first : Advances original s s' content.elements) (second : Advances original s' s'' [])
    (shown : content.Shows s'.document.forest view) : content.Shows s''.document.forest view :=
  ⟨shown.type, shown.properties, shown.valueless,
    second.turns.shows first.stored.grown (first.roots stored) shown.elements⟩

theorem Advances.warned (advances : Advances original s s' held)
    (warnings : List ResolveWarning) : Advances original s { s' with warnings } held :=
  ⟨advances.stored, advances.turns, advances.proceeds⟩

variable {definition : Definition}

theorem Advances.receive {usage : Usage} {view : TreeContent} (stored : Stored original s.document)
    (advances : Advances original s s' held) (shown : definition.Shows s'.document.forest view)
    (brings : ∀ id ∈ usage.payload, original.Brings id) :
    Advances original s (Resolve.receive usage definition s').2
        (held ++ (Resolve.receive usage definition s').1.elements) ∧
      s'.document.forest.Turns [] (Resolve.receive usage definition s').2.document.forest
        (Resolve.receive usage definition s').1.elements ∧
      (Resolve.receive usage definition s').1.Shows
        (Resolve.receive usage definition s').2.document.forest
        (view.received original.forest.treesOf original.symbols.config.indexInitialCount usage
          definition.key.kind) := by
  have keeps : Forest.Keeps original.forest s'.document.forest [] usage.payload := by
    intro id member
    obtain ⟨root, -, same⟩ := advances.stored.brought id (brings id member)
    exact ⟨root, by simp, same⟩
  obtain ⟨turns, received⟩ := receive_shows advances.stored.grown shown keeps
  rw [advances.stored.resembles.config] at received
  have symbols := receive_symbols usage definition s'
  refine ⟨⟨?_, ?_, ?_⟩, turns, received⟩
  · have extended := advances.stored.extend turns
    rwa [← symbols] at extended
  · have framed := (turns.frame (s'.document.symbols.owned ++ held)).perm (.refl _)
      List.perm_append_comm
    rw [List.nil_append, List.append_assoc] at framed
    rw [symbols]
    exact advances.turns.trans framed stored.roots
  · exact advances.proceeds.trans (.of_turns advances.stored turns symbols)

variable {resolve : DefinitionKey → Resolve Unit}

/-- Taking over one parent makes of the content what the parent means. -/
theorem inherit_collects (keyed : original.symbols.Keyed)
    (resolves : ∀ next (t : ResolveState), Stored original t.document →
      Ends original next t (resolve next t))
    {inheritance : Inheritance}
    (brings : ∀ id ∈ inheritance.parent.payload, original.Brings id) (key : DefinitionKey)
    (stored : Stored original s.document) (advances : Advances original s s' content.elements)
    (shown : content.Shows s'.document.forest view) :
    Collects original s
      (fun after => ∃ fuel,
        original.inheritFrom (original.meaning fuel) key view inheritance = some after)
      (inherit resolve key content inheritance s') := by
  unfold inherit Document.inheritFrom
  rw [instantiateWith_apply, advances.stored.resembles.usageKey]
  cases found : original.symbols.usageKey (parentUsage key inheritance.parent) with
  | none => exact ⟨advances.warned _, view, ⟨0, by simp only [found]⟩, shown⟩
  | some parent =>
    obtain ⟨_, registered⟩ := SymbolTable.lookupKey_registered found
    have ends := resolves parent s' advances.stored
    dsimp only
    revert ends
    cases resolve parent s' with
    | error e t =>
      rintro ⟨later, missing⟩
      have known : ∀ type name, e ≠ .undefinedReference type name := by
        intro type name same
        obtain ⟨d, there, -⟩ := advances.stored.resembles.exists_heading' registered
        rw [missing type name same] at there
        cases there
      have ended := (advances.trans stored later).drop
      cases e with
      | undefinedReference type name => exact absurd rfl (known type name)
      | cyclicInheritance names => exact ⟨ended, known⟩
    | ok _ t =>
      rintro ⟨later, definition, there, isDone⟩
      dsimp only
      rw [there]
      obtain ⟨parentView, ⟨fuel, means⟩, holds⟩ := later.stored.means_of_isDone there isDone
      have ownKey := later.stored.resembles.keyed keyed parent definition there
      have still := advances.shows stored later shown
      have brings' : ∀ id ∈ (parentUsage key inheritance.parent).payload, original.Brings id := by
        simpa using brings
      obtain ⟨received, turns, copy⟩ :=
        (advances.trans stored later).receive stored holds brings'
      have roots := ((advances.trans stored later).roots stored).right
      have kept : content.Shows (receive (parentUsage key inheritance.parent)
          definition t).2.document.forest view :=
        ⟨still.type, still.properties, still.valueless,
          turns.shows later.stored.grown roots still.elements⟩
      refine ⟨received, _, ⟨fuel, ?_⟩, kept.merge copy⟩
      simp only [found, means, Option.map_some, ownKey]

theorem inheritAll_collects (keyed : original.symbols.Keyed)
    (resolves : ∀ next (t : ResolveState), Stored original t.document →
      Ends original next t (resolve next t))
    {parents : List Inheritance}
    (brings : ∀ p ∈ parents, ∀ id ∈ p.parent.payload, original.Brings id) (key : DefinitionKey)
    (stored : Stored original s.document) (advances : Advances original s s' content.elements)
    (shown : content.Shows s'.document.forest view) :
    Collects original s
      (fun after => ∃ fuel,
        parents.foldlM (original.inheritFrom (original.meaning fuel) key) view = some after)
      (parents.foldlM (inherit resolve key) content s') := by
  induction parents generalizing content s' view with
  | nil => exact ⟨advances, view, ⟨0, rfl⟩, shown⟩
  | cons p parents ih =>
    have first := inherit_collects keyed resolves (brings p (.head _)) key stored advances shown
    rw [List.foldlM_cons, bind_apply]
    revert first
    cases inherit resolve key content p s' with
    | error e t =>
      exact id
    | ok content' t =>
      rintro ⟨advances', view', ⟨n, taken⟩, shown'⟩
      have rest := ih (fun q member => brings q (.tail _ member)) advances' shown'
      dsimp only
      revert rest
      cases parents.foldlM (inherit resolve key) content' t with
      | error e t' =>
        exact id
      | ok content'' t' =>
        rintro ⟨advances'', view'', ⟨m, others⟩, shown''⟩
        refine ⟨advances'', view'', ⟨n + m, ?_⟩, shown''⟩
        rw [List.foldlM_cons, Document.inheritFrom_mono
          (fun _ _ => Document.meaning_mono (Nat.le_add_right n m)) taken]
        exact Document.inheritAll_mono
          (fun _ _ => Document.meaning_mono (Nat.le_add_left m n)) others

/-- A definition that was marked as underway gets another mark, and with it other content. -/
theorem Advances.close {key : DefinitionKey} {last : ResolveState}
    {warnings : List ResolveWarning} (stored : Stored original s.document)
    (found : s.document.symbols.definition? key = some definition)
    (pending : definition.resolution = .pending)
    (advances : Advances original { s.setResolution key .underway with warnings } s' held)
    (stored' : Stored original last.document)
    (turns : s'.document.forest.Turns (s'.document.symbols.owned ++ held) last.document.forest
      last.document.symbols.owned)
    (proceeds : s.document.Proceeds last.document) : Advances original s last [] where
  stored := stored'
  turns := by
    obtain ⟨-, marked⟩ :=
      stored.mark found (by simp [pending]) (by simp : Resolution.underway ≠ .done)
    rw [List.append_nil]
    exact marked.trans (advances.turns.trans turns (marked.roots_self stored.roots)) stored.roots
  proceeds := proceeds

/-- The content of a definition, made of its own nodes and of those it has taken over. -/
theorem complete_becomes {key : DefinitionKey} {fuel : Nat}
    {inherited : Content} (registered : original.symbols.definition? key = some definition)
    (stored : Stored original s.document)
    (advances : Advances original s s' inherited.elements)
    (own : definition.Shows s'.document.forest (original.bodyOf definition))
    (owns : ∀ id ∈ definition.elements, id ∈ s'.document.symbols.owned)
    (roots : s'.document.forest.Roots (definition.elements ++ inherited.elements))
    (gathered : (leftParents definition.edits definition.parents).foldlM
      (original.inheritFrom (original.meaning fuel) key) { type := key.type } = some view)
    (shown : inherited.Shows s'.document.forest view) :
    s'.document.forest.Turns (definition.elements ++ inherited.elements)
        (complete definition inherited s').2.document.forest
        (complete definition inherited s').1.elements ∧
      ∃ result, original.Means key result ∧
        (complete definition inherited s').1.Shows
          (complete definition inherited s').2.document.forest result := by
  have holds : EditState.Holds
      { content := withOwn inherited definition
        forest := s'.document.forest
        warnings := s'.warnings } (view.withOwn (original.bodyOf definition)) :=
    ⟨advances.stored.grown, roots, shown.withOwn own⟩
  have brings : ∀ id ∈ (definition.edits.filter fun e => !isParentDeletion e).flatMap Edit.payload,
      original.Brings id := by
    intro id member
    obtain ⟨edit, inside, member⟩ := List.mem_flatMap.1 member
    exact .inr ⟨key, definition, registered,
      List.mem_flatMap.2 ⟨edit, (List.mem_filter.1 inside).1, member⟩⟩
  have keeps : Forest.Keeps original.forest s'.document.forest
      (definition.elements ++ inherited.elements)
      ((definition.edits.filter fun e => !isParentDeletion e).flatMap Edit.payload) := by
    refine (stored.keeps advances.turns brings).apart fun id mine => ?_
    rcases List.mem_append.1 mine with mine | mine
    · exact List.mem_append_left _ (owns id mine)
    · exact List.mem_append_right _ mine
  have edited := holds.applyAll s'.document.symbols.config.indexInitialCount
    (.definition definition.key) keeps
  refine ⟨edited.turns, original.completed definition view, ⟨fuel + 1, ?_⟩, ?_⟩
  · exact Document.meaning_eq_some.2 ⟨definition, view, registered, gathered, rfl⟩
  · have config := advances.stored.resembles.config
    unfold Document.completed
    rw [← config]
    exact edited.shown

section Pending

variable {key : DefinitionKey} {definition : Definition} {warnings : List ResolveWarning}
  (stored : Stored original s.document)
  (found : s.document.symbols.definition? key = some definition)
  (pending : definition.resolution = .pending)

include stored found pending

theorem registered_of_pending : original.symbols.definition? key = some definition := by
  have tells := stored.tells key definition found
  unfold Document.Tells at tells
  rw [if_neg (by simp [pending])] at tells
  have same : { definition with resolution := .pending } = definition := by rw [← pending]
  rw [← same]
  exact tells.1

theorem stored_underway :
    Stored original { s.setResolution key .underway with warnings }.document :=
  (stored.mark found (by simp [pending]) (by simp)).1

omit stored pending in
theorem definition?_underway :
    (s.setResolution key .underway).document.symbols.definition? key =
      some { definition with resolution := .underway } :=
  SymbolTable.definition?_modify_self found

omit stored pending in
theorem Advances.marked
    (advances : Advances original { s.setResolution key .underway with warnings } s' held) :
    s'.document.symbols.definition? key = some { definition with resolution := .underway } :=
  (advances.proceeds.leaves (definition?_underway found) (by simp)).record.trans
    (definition?_underway found)

omit stored in
theorem proceeds_unmark
    (proceeds : (s.setResolution key .underway).document.Proceeds s'.document) :
    s.document.Proceeds (s'.setResolution key .pending).document := by
  intro k
  by_cases same : k = key
  · subst same
    have marked := definition?_underway found
    have left := proceeds.leaves marked (by simp)
    refine .inl ⟨?_, fun d there id member => ?_⟩
    · rw [found, ← pending]
      exact (SymbolTable.definition?_modify_self (left.record.trans marked)).trans rfl
    · cases found.symm.trans there
      exact left.spares _ marked id member
  · refine proceeds.others rfl ?_ ?_ fun _ _ id _ => .refl _ id
    · exact SymbolTable.definition?_modify_other same
    · exact SymbolTable.definition?_modify_other same

/-- After a success it is worked out, of its own nodes and of those that it has taken over. -/
theorem proceeds_store {inherited : Content}
    (advances : Advances original { s.setResolution key .underway with warnings } s'
      inherited.elements)
    (turns : s'.document.forest.Turns (definition.elements ++ inherited.elements)
      (complete definition inherited s').2.document.forest
      (complete definition inherited s').1.elements) :
    s.document.Proceeds ((complete definition inherited s').2.store key
      (complete definition inherited s').1).document := by
  have marked := advances.marked found
  have roots := advances.roots (stored_underway stored found pending)
  obtain ⟨rest, apart, -, others⟩ := SymbolTable.owned_split_other marked inherited.elements
  have mine := roots.perm apart
  intro k
  by_cases same : k = key
  · subst same
    refine .inr ⟨definition, (complete definition inherited s').1.properties,
      (complete definition inherited s').1.elements,
      (complete definition inherited s').1.valueless, found, pending, ?_⟩
    exact (SymbolTable.definition?_modify_self marked).trans rfl
  · refine advances.proceeds.others rfl ?_ ?_ fun d there id member => ?_
    · exact SymbolTable.definition?_modify_other same
    · exact SymbolTable.definition?_modify_other same
    · have inRest := others k d same there id member
      refine turns.spares id (mine.right.isRoot id inRest) fun own => ?_
      exact (List.nodup_append.1 mine.nodup).2.2 id own id inRest rfl

theorem brings_of_pending : ∀ p ∈ leftParents definition.edits definition.parents,
    ∀ id ∈ p.parent.payload, original.Brings id := by
  intro p left id inside
  have registered := registered_of_pending stored found pending
  have parent := (SymbolTable.mem_leftParents.1 left).1
  exact .inl ⟨p.parent, .inr ⟨key, definition, registered, p, parent, rfl⟩, inside⟩

theorem Advances.unmark
    (advances : Advances original { s.setResolution key .underway with warnings } s' []) :
    Advances original s (s'.setResolution key .pending) [] := by
  obtain ⟨stored', turns⟩ := advances.stored.mark (advances.marked found)
    (by simp) (by simp : Resolution.pending ≠ .done)
  rw [← List.append_nil s'.document.symbols.owned] at turns
  exact advances.close stored found pending stored' turns
    (proceeds_unmark found pending advances.proceeds)

/-- The content that is made of the parents is stored, and is what the definition means. -/
theorem Advances.store {fuel : Nat} {inherited : Content}
    (advances : Advances original { s.setResolution key .underway with warnings } s'
      inherited.elements)
    (gathered : (leftParents definition.edits definition.parents).foldlM
      (original.inheritFrom (original.meaning fuel) key) { type := key.type } = some view)
    (shown : inherited.Shows s'.document.forest view) :
    Advances original s ((complete definition inherited s').2.store key
      (complete definition inherited s').1) [] := by
  have marked := advances.marked found
  have start : Stored original { s.setResolution key .underway with warnings }.document :=
    stored_underway stored found pending
  have roots := advances.roots start
  have own : definition.Shows s'.document.forest (original.bodyOf definition) := by
    have tells := advances.stored.tells key _ marked
    unfold Document.Tells at tells
    rw [if_neg (by simp)] at tells
    exact ⟨tells.2.properties, tells.2.valueless, tells.2.elements⟩
  obtain ⟨rest, split, -⟩ := SymbolTable.owned_split_other marked inherited.elements
  have mine := (roots.perm split).left
  obtain ⟨turns, result, means, told⟩ := complete_becomes
    (registered_of_pending stored found pending) start advances own
    (fun id member => SymbolTable.mem_owned.2 ⟨key, _, marked, member⟩) mine gathered shown
  have apart : ∀ id, original.Brings id → id ∉ inherited.elements := by
    intro id brings inside
    have single : ∀ k ∈ [id], original.Brings k := by simpa using brings
    obtain ⟨-, other, -⟩ := start.keeps advances.turns single id (.head _)
    exact other (List.mem_append_right _ inside)
  obtain ⟨stored', all⟩ := advances.stored.replace marked (fun _ => rfl) roots apart
    (f := fun d => { d with
      properties := (complete definition inherited s').1.properties
      elements := (complete definition inherited s').1.elements
      valueless := (complete definition inherited s').1.valueless
      resolution := .done }) turns
    (by
      unfold Document.Tells
      rw [if_pos rfl]
      exact ⟨result, means, told.properties, told.valueless, told.elements⟩)
  exact advances.close stored found pending stored' all
    (proceeds_store stored found pending advances turns)

end Pending

/-- Working out a definition stores what it means. -/
theorem resolveFrom_ends (keyed : original.symbols.Keyed) (fuel : Nat)
    (path : List DefinitionKey) (key : DefinitionKey) {s : ResolveState}
    (stored : Stored original s.document) :
    Ends original key s (resolveFrom fuel path key s) := by
  induction fuel generalizing path key s with
  | zero =>
    have same : Advances original s s [] := .refl stored
    exact ⟨⟨same.stored, same.turns, same.proceeds⟩, by simp⟩
  | succ fuel ih =>
    unfold resolveFrom
    cases found : s.document.symbols.definition? key with
    | none => exact ⟨.refl stored, fun _ _ _ => found⟩
    | some definition =>
      dsimp only
      cases pending : definition.resolution with
      | done => exact ⟨.refl stored, definition, found, pending⟩
      | underway => exact ⟨.refl stored, by simp⟩
      | pending =>
        have ownKey := stored.resembles.keyed keyed key definition found
        obtain ⟨warnings, content⟩ := contentOf_apply (resolveFrom fuel (path ++ [key]))
          definition (s.setResolution key .underway)
        have start : Stored original { s.setResolution key .underway with warnings }.document :=
          stored_underway stored found pending
        have brings := brings_of_pending stored found pending
        have empty : Content.Shows { type := key.type }
            { s.setResolution key .underway with warnings }.document.forest
            { type := key.type } := ⟨rfl, rfl, rfl, rfl⟩
        have gathered :=
          inheritAll_collects keyed (fun next t => ih (path ++ [key]) next) brings key
          start (.refl start) empty
        dsimp only
        rw [content, ownKey]
        cases run : (leftParents definition.edits definition.parents).foldlM
            (inherit (resolveFrom fuel (path ++ [key])) key) { type := key.type }
            { s.setResolution key .underway with warnings } with
        | error e t =>
          rw [run] at gathered
          obtain ⟨advances, known⟩ := gathered
          refine ⟨advances.unmark stored found pending, fun type name same => ?_⟩
          exact absurd same (known type name)
        | ok inherited t =>
          rw [run] at gathered
          obtain ⟨advances, view, ⟨n, parents⟩, shown⟩ := gathered
          have marked := advances.marked found
          exact ⟨advances.store stored found pending parents shown, isDone_modify marked rfl⟩

end Resolve

end TemplateMarkup
