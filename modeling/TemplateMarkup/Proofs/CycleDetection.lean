import Mathlib.Data.List.Perm.Subperm
import TemplateMarkup.Proofs.DefinitionHeadings

/-! Resolving is a depth-first search through the graph of inheritance. The definitions that are
underway are those on the path of the search, and every way up from a definition that is done
ends. -/
namespace TemplateMarkup.Resolve
open SymbolTable

def IsDone (table : SymbolTable) (key : DefinitionKey) : Prop :=
  ∃ definition, table.definition? key = some definition ∧ definition.resolution = .done

/-- The search, below the definitions in `path`, in a table that began as `origin`. -/
structure Search (origin : SymbolTable) (path : List DefinitionKey) (table : SymbolTable) :
    Prop where
  resembles : origin.Resembles table
  underway : ∀ key definition, table.definition? key = some definition →
    (definition.resolution = .underway ↔ key ∈ path)
  settled : ∀ key, IsDone table key → origin.Settles key

/-- The path of the search and the definition it has come to. -/
structure Trail (origin : SymbolTable) (path : List DefinitionKey) (key : DefinitionKey) :
    Prop where
  chain : (path ++ [key]).IsChain origin.Inherits
  nodup : path.Nodup
  registered : ∀ k ∈ path ++ [key], ∃ definition, origin.definition? k = some definition

/-- What was done stays done, and the fuel is not used up. -/
structure Progresses (s s' : ResolveState) : Prop where
  stays : ∀ key, IsDone s.document.symbols key → IsDone s'.document.symbols key
  exhausted : s'.exhausted = s.exhausted

theorem Progresses.refl (s : ResolveState) : Progresses s s := ⟨fun _ h => h, rfl⟩

theorem Progresses.trans {s s' s'' : ResolveState} (h : Progresses s s') (h' : Progresses s' s'') :
    Progresses s s'' :=
  ⟨fun key isDone => h'.stays key (h.stays key isDone), h'.exhausted.trans h.exhausted⟩

/-- How a search for `key` may end. -/
def Searched (origin : SymbolTable) (path : List DefinitionKey) (key : DefinitionKey)
    (start : ResolveState) {α : Type} : EStateM.Result ResolveError ResolveState α → Prop
  | .ok _ s => Search origin path s.document.symbols ∧ Progresses start s ∧
      IsDone s.document.symbols key
  | .error e s => Search origin path s.document.symbols ∧ Progresses start s ∧
      ∃ names, e = .cyclicInheritance names ∧ origin.FirstCycle path key names

/-- How taking over the parents with the keys `parents` may end. -/
def Gathered (origin : SymbolTable) (path parents : List DefinitionKey)
    (start : ResolveState) {α : Type} : EStateM.Result ResolveError ResolveState α → Prop
  | .ok _ s => Search origin path s.document.symbols ∧ Progresses start s ∧
      ∀ key ∈ parents, IsDone s.document.symbols key
  | .error e s => Search origin path s.document.symbols ∧ Progresses start s ∧
      ∃ names before next after, e = .cyclicInheritance names ∧
        parents = before ++ next :: after ∧ (∀ key ∈ before, origin.Settles key) ∧
        origin.FirstCycle path next names

variable {origin : SymbolTable} {path : List DefinitionKey}

variable {key : DefinitionKey}

theorem Trail.length_le (h : Trail origin path key) :
    path.length ≤ origin.definitions.size := by
  rw [OrderedMap.size_eq_length_keys]
  apply (List.subperm_of_subset h.nodup ?_).length_le
  intro k hk
  obtain ⟨_, found⟩ := h.registered k (List.mem_append_left _ hk)
  exact OrderedMap.mem_keys_of_get? found

theorem Trail.descend {next : DefinitionKey} (h : Trail origin path key)
    (new : key ∉ path) (step : origin.Inherits key next) : Trail origin (path ++ [key]) next where
  chain := isChain_descend h.chain step
  nodup := by
    refine List.nodup_append.2 ⟨h.nodup, by simp, ?_⟩
    rintro a ha b hb rfl
    cases List.mem_singleton.1 hb
    exact new ha
  registered := by
    intro k hk
    rcases List.mem_append.1 hk with hk | hk
    · exact h.registered k hk
    · cases List.mem_singleton.1 hk
      exact step.registered

variable {s : ResolveState}

/-- Taking over one parent: nothing happens where it looks up to nothing, and otherwise it is
worked out first. -/
theorem inherit_gathered {resolve : DefinitionKey → Resolve Unit}
    {inheritance : Inheritance} (content : Content)
    (search : Search origin path s.document.symbols)
    (resolves : ∀ next, origin.usageKey (parentUsage key inheritance.parent) = some next →
      Searched origin path next s (resolve next s)) :
    Gathered origin path (origin.usageKey (parentUsage key inheritance.parent)).toList
      s (inherit resolve key content inheritance s) := by
  unfold inherit
  rw [instantiateWith_apply, search.resembles.usageKey]
  cases found : origin.usageKey (parentUsage key inheritance.parent) with
  | none => exact ⟨search, ⟨fun _ h => h, rfl⟩, by simp⟩
  | some next =>
    have ended := resolves next found
    dsimp only
    revert ended
    cases resolve next s with
    | error e s' =>
      rintro ⟨search', progress, names, rfl, first⟩
      exact ⟨search', progress, names, [], next, [], rfl, rfl, by simp, first⟩
    | ok _ s' =>
      rintro ⟨search', progress, finished⟩
      have ⟨definition, hd, _⟩ := finished
      dsimp only
      rw [hd]
      obtain ⟨same, fuel⟩ := receive_keeps (parentUsage key inheritance.parent) definition s'
      refine ⟨?_, progress.trans ⟨fun k isDone => ?_, fuel⟩, ?_⟩
      · rw [same]
        exact search'
      · rw [same]
        exact isDone
      · intro k hk
        cases List.mem_singleton.1 hk
        rw [same]
        exact finished

/-- Taking over parents one after the other. -/
theorem inheritAll_gathered (resolve : DefinitionKey → Resolve Unit) (key : DefinitionKey)
    (parents : List Inheritance)
    (resolves : ∀ inheritance ∈ parents, ∀ next (s : ResolveState),
      origin.usageKey (parentUsage key inheritance.parent) = some next →
      Search origin path s.document.symbols →
      Searched origin path next s (resolve next s))
    (content : Content) (s : ResolveState) (search : Search origin path s.document.symbols) :
    Gathered origin path
      (parents.filterMap fun p => origin.usageKey (parentUsage key p.parent))
      s (parents.foldlM (inherit resolve key) content s) := by
  induction parents generalizing content s with
  | nil => exact ⟨search, .refl s, by simp⟩
  | cons p rest ih =>
    rw [List.foldlM_cons, bind_apply]
    have first := inherit_gathered content search
      fun next found => resolves p List.mem_cons_self next s found search
    have keys : (p :: rest).filterMap (fun p => origin.usageKey (parentUsage key p.parent)) =
        (origin.usageKey (parentUsage key p.parent)).toList ++
          rest.filterMap (fun p => origin.usageKey (parentUsage key p.parent)) := by
      cases hk : origin.usageKey (parentUsage key p.parent) <;> simp [hk]
    rw [keys]
    revert first
    cases inherit resolve key content p s with
    | error e s' =>
      rintro ⟨search', progress, names, before, next, after, rfl, split, settled, cycle⟩
      refine ⟨search', progress, names, before, next,
        after ++ rest.filterMap (fun p => origin.usageKey (parentUsage key p.parent)), rfl, ?_,
        settled, cycle⟩
      rw [split, List.append_assoc, List.cons_append]
    | ok content' s' =>
      rintro ⟨search', progress, finished⟩
      have later := ih (fun q hq => resolves q (List.mem_cons_of_mem _ hq)) content' s' search'
      dsimp only
      revert later
      cases rest.foldlM (inherit resolve key) content' s' with
      | error e s'' =>
        intro later
        obtain ⟨search'', progress', names, before, next, after, rfl, split, settled, cycle⟩ :=
          later
        refine ⟨search'', progress.trans progress', names,
          (origin.usageKey (parentUsage key p.parent)).toList ++ before, next, after, rfl, ?_, ?_,
          cycle⟩
        · rw [split, List.append_assoc]
        · intro k hk
          rcases List.mem_append.1 hk with hk | hk
          · exact search'.settled k (finished k hk)
          · exact settled k hk
      | ok content'' s'' =>
        rintro ⟨search'', progress', finished'⟩
        refine ⟨search'', progress.trans progress', ?_⟩
        intro k hk
        rcases List.mem_append.1 hk with hk | hk
        · exact progress'.stays k (finished k hk)
        · exact finished' k hk

variable {table : SymbolTable} {f : Definition → Definition}

/-- Changing how far one definition is, and with it the path. -/
theorem Search.modify {path' : List DefinitionKey} {resolution : Resolution}
    (search : Search origin path table) (heading : ∀ d, (f d).heading = d.heading)
    (now : ∀ d, (f d).resolution = resolution)
    (others : ∀ k, k ≠ key → (k ∈ path' ↔ k ∈ path))
    (here : resolution = .underway ↔ key ∈ path')
    (settles : resolution = .done → origin.Settles key) :
    Search origin path' (table.modifyDefinition key f) where
  resembles := search.resembles.trans (resembles_modifyDefinition _ _ heading)
  underway := by
    intro k definition found
    rcases modify_cases found with ⟨rfl, d, -, rfl⟩ | ⟨hk, found⟩
    · rw [now, here]
    · rw [others k hk]
      exact search.underway k definition found
  settled := by
    rintro k ⟨definition, found, isDone⟩
    rcases modify_cases found with ⟨rfl, d, -, rfl⟩ | ⟨-, found⟩
    · exact settles ((now d).symm.trans isDone)
    · exact search.settled k ⟨definition, found, isDone⟩

theorem isDone_modify_other {k : DefinitionKey} (h : ¬IsDone table key) (isDone : IsDone table k) :
    IsDone (table.modifyDefinition key f) k := by
  obtain ⟨definition, found, isDone⟩ := isDone
  refine ⟨definition, ?_, isDone⟩
  rw [definition?_modifyDefinition, if_neg, found]
  rintro rfl
  exact h ⟨definition, found, isDone⟩

variable {definition : Definition}

theorem isDone_modify (found : table.definition? key = some definition)
    (now : (f definition).resolution = .done) : IsDone (table.modifyDefinition key f) key :=
  ⟨f definition, definition?_modify_self found, now⟩

theorem Search.not_isDone
    (search : Search origin path table) (h : key ∈ path) : ¬IsDone table key := by
  rintro ⟨definition, found, isDone⟩
  have := (search.underway key definition found).2 h
  rw [isDone] at this
  cases this

theorem Search.mark
    (search : Search origin path s.document.symbols) :
    Search origin (path ++ [key]) (s.setResolution key .underway).document.symbols :=
  search.modify (fun _ => rfl) (fun _ => rfl) (fun k hk => by simp [hk]) (by simp) (by simp)

theorem Search.parentKeys_eq
    {original : Definition} (search : Search origin path table) (keyed : origin.Keyed)
    (found : table.definition? key = some definition)
    (heading : definition.heading = original.heading) :
    origin.parentKeys original = (leftParents definition.edits definition.parents).filterMap
      fun p => origin.usageKey (parentUsage key p.parent) := by
  rw [← origin.parentKeys_eq heading, parentKeys,
    search.resembles.keyed keyed key definition found]

/-- The search goes on at a parent that is left. -/
theorem Search.trail {next : DefinitionKey}
    {original : Definition} {p : Inheritance} (search : Search origin path table)
    (keyed : origin.Keyed) (trail : Trail origin path key) (new : key ∉ path)
    (found : table.definition? key = some definition)
    (registered : origin.definition? key = some original)
    (heading : definition.heading = original.heading)
    (left : p ∈ leftParents definition.edits definition.parents)
    (up : origin.usageKey (parentUsage key p.parent) = some next) :
    Trail origin (path ++ [key]) next := by
  apply trail.descend new
  rw [inherits_iff keyed registered, search.parentKeys_eq keyed found heading]
  exact List.mem_filterMap.2 ⟨p, left, up⟩

theorem Search.not_mem
    (search : Search origin path table) (found : table.definition? key = some definition)
    (pending : definition.resolution = .pending) : key ∉ path := by
  intro seen
  rw [(search.underway key definition found).2 seen] at pending
  cases pending

/-- The search from a definition, whatever has been searched before it. -/
theorem resolveFrom_searched (keyed : origin.Keyed) {fuel : Nat}
    (search : Search origin path s.document.symbols)
    (trail : Trail origin path key) (bound : origin.definitions.size < fuel + path.length) :
    Searched origin path key s (resolveFrom fuel path key s) := by
  induction fuel generalizing path key s with
  | zero =>
    have := trail.length_le
    omega
  | succ fuel ih =>
    obtain ⟨original, registered⟩ := trail.registered key (by simp)
    obtain ⟨definition, found, heading⟩ := search.resembles.exists_heading' registered
    have ownKey : definition.key = key := search.resembles.keyed keyed key definition found
    unfold resolveFrom
    rw [found]
    dsimp only
    cases hr : definition.resolution with
    | done => exact ⟨search, .refl s, definition, found, hr⟩
    | underway =>
      have seen := (search.underway key definition found).1 hr
      exact ⟨search, .refl s, _, rfl, .close seen⟩
    | pending =>
      have new : key ∉ path := search.not_mem found hr
      have fresh : ¬IsDone s.document.symbols key := by
        rintro ⟨d, hd, isDone⟩
        cases found.symm.trans hd
        rw [hr] at isDone
        cases isDone
      have parents := search.parentKeys_eq keyed found heading
      obtain ⟨warnings, content⟩ := contentOf_apply (resolveFrom fuel (path ++ [key]))
        definition (s.setResolution key .underway)
      dsimp only
      rw [content, ownKey]
      have gathered := inheritAll_gathered (resolveFrom fuel (path ++ [key])) key
        (leftParents definition.edits definition.parents)
        (fun p left next t up searching => ih searching
          (search.trail keyed trail new found registered heading left up) (by simp; omega))
        { type := key.type } { s.setResolution key .underway with warnings } search.mark
      rw [← parents] at gathered
      have began : Progresses s { s.setResolution key .underway with warnings } :=
        ⟨fun _ => isDone_modify_other fresh, rfl⟩
      cases hf : (leftParents definition.edits definition.parents).foldlM
          (inherit (resolveFrom fuel (path ++ [key])) key) { type := key.type }
          { s.setResolution key .underway with warnings } with
      | error e s' =>
        rw [hf] at gathered
        obtain ⟨search', progress, names, before, next, after, rfl, split, settled, cycle⟩ :=
          gathered
        have ended : Progresses s' (s'.setResolution key .pending) :=
          ⟨fun _ => isDone_modify_other (search'.not_isDone (by simp)), rfl⟩
        refine ⟨?_, (began.trans progress).trans ended, names, rfl,
          .descend new registered split settled cycle⟩
        exact search'.modify (fun _ => rfl) (fun _ => rfl) (fun k hk => by simp [hk])
          (by simp [new]) (by simp)
      | ok inherited s' =>
        rw [hf] at gathered
        obtain ⟨search', progress, finished⟩ := gathered
        have settles : origin.Settles key := by
          refine .intro key fun parent step => search'.settled parent (finished parent ?_)
          exact (inherits_iff keyed registered).1 step
        obtain ⟨d, hd, _⟩ := search'.resembles.exists_heading' registered
        refine ⟨?_, (began.trans progress).trans ⟨fun _ isDone => ?_, rfl⟩, ?_⟩
        · exact search'.modify (fun _ => rfl) (fun _ => rfl) (fun k hk => by simp [hk])
            (by simp [new]) fun _ => settles
        · exact isDone_modify_other (search'.not_isDone (by simp)) isDone
        · exact isDone_modify hd rfl

/-- Outside of any search no definition is underway. -/
abbrev Rests (origin table : SymbolTable) : Prop := Search origin [] table

theorem rests_of_unresolved (h : table.Unresolved) : Rests table table where
  resembles := .refl table
  underway := by
    intro key definition found
    simp [h.pending key definition found]
  settled := by
    rintro key ⟨definition, found, isDone⟩
    rw [h.pending key definition found] at isDone
    cases isDone

theorem trail_nil
    (registered : origin.definition? key = some definition) : Trail origin [] key :=
  ⟨.singleton key, .nil, fun k hk => by cases List.mem_singleton.1 hk; exact ⟨_, registered⟩⟩

theorem resolve_searched (keyed : origin.Keyed)
    (rests : Rests origin s.document.symbols)
    (registered : ∃ definition, origin.definition? key = some definition) :
    Searched origin [] key s (resolve key s) := by
  obtain ⟨_, registered⟩ := registered
  refine resolveFrom_searched keyed rests (trail_nil registered) ?_
  rw [rests.resembles.size]
  simp

theorem resolve_unregistered
    (absent : s.document.symbols.definition? key = none) :
    resolve key s = .error (.undefinedReference key.type key.name.label) s := by
  simp [resolve, resolveFrom, absent]

section Fuel

variable {work work' : DefinitionKey → Resolve Unit} {key : DefinitionKey}

variable {s : ResolveState}

theorem inherit_congr {inheritance : Inheritance} {content : Content}
    (same : ∀ next, s.document.symbols.usageKey (parentUsage key inheritance.parent) = some next →
      work' next s = work next s) :
    inherit work' key content inheritance s = inherit work key content inheritance s := by
  unfold inherit
  rw [instantiateWith_apply, instantiateWith_apply]
  cases found : s.document.symbols.usageKey (parentUsage key inheritance.parent) with
  | none => rfl
  | some next =>
    dsimp only
    rw [same next found]

/-- Two ways to work out definitions that agree during the search give the same content. -/
theorem inheritAll_congr {parents : List Inheritance}
    (resolves : ∀ inheritance ∈ parents, ∀ next (s : ResolveState),
      origin.usageKey (parentUsage key inheritance.parent) = some next →
      Search origin path s.document.symbols →
      Searched origin path next s (work next s) ∧
        work' next s = work next s)
    {content : Content} (search : Search origin path s.document.symbols) :
    parents.foldlM (inherit work' key) content s =
      parents.foldlM (inherit work key) content s := by
  induction parents generalizing content s with
  | nil => rfl
  | cons p rest ih =>
    have first := inherit_gathered content search fun next found =>
      (resolves p (.head _) next s found search).1
    have same : inherit work' key content p s = inherit work key content p s := by
      apply inherit_congr
      intro next found
      rw [search.resembles.usageKey] at found
      exact (resolves p (.head _) next s found search).2
    rw [List.foldlM_cons, List.foldlM_cons, bind_apply, bind_apply, same]
    cases run : inherit work key content p s with
    | error e s' => rfl
    | ok content' s' =>
      rw [run] at first
      exact ih (fun q member => resolves q (.tail _ member)) first.1

theorem contentOf_congr {definition : Definition}
    (same : ∀ warnings, (leftParents definition.edits definition.parents).foldlM
        (inherit work' definition.key) { type := definition.key.type } { s with warnings } =
      (leftParents definition.edits definition.parents).foldlM
        (inherit work definition.key) { type := definition.key.type } { s with warnings }) :
    contentOf work' definition s = contentOf work definition s := by
  obtain ⟨warnings, kept⟩ :=
    keptParents_apply definition.key definition.edits definition.parents s
  unfold contentOf
  rw [bind_apply, bind_apply, kept]
  dsimp only
  rw [bind_apply, bind_apply, same]

/-- More fuel makes no difference. -/
theorem resolveFrom_add (keyed : origin.Keyed) {fuel : Nat} (more : Nat)
    (search : Search origin path s.document.symbols) (trail : Trail origin path key)
    (bound : origin.definitions.size < fuel + path.length) :
    resolveFrom (fuel + more) path key s = resolveFrom fuel path key s := by
  induction fuel generalizing path key s with
  | zero =>
    have := trail.length_le
    omega
  | succ fuel ih =>
    obtain ⟨original, registered⟩ := trail.registered key (by simp)
    obtain ⟨definition, found, heading⟩ := search.resembles.exists_heading' registered
    have ownKey : definition.key = key := search.resembles.keyed keyed key definition found
    rw [Nat.succ_add]
    unfold resolveFrom
    rw [found]
    dsimp only
    cases pending : definition.resolution with
    | done => rfl
    | underway => rfl
    | pending =>
      have new : key ∉ path := search.not_mem found pending
      have content : contentOf (resolveFrom (fuel + more) (path ++ [key])) definition
            (s.setResolution key .underway) =
          contentOf (resolveFrom fuel (path ++ [key])) definition
            (s.setResolution key .underway) := by
        apply contentOf_congr
        intro warnings
        rw [ownKey]
        refine inheritAll_congr (s := { s.setResolution key .underway with warnings })
          (fun p left next t up searching => ?_) search.mark
        have trail' := search.trail keyed trail new found registered heading left up
        have bound' : origin.definitions.size < fuel + (path ++ [key]).length := by
          simp
          omega
        exact ⟨resolveFrom_searched keyed searching trail' bound', ih searching trail' bound'⟩
      dsimp only
      rw [content]

theorem resolve_exhausted (keyed : origin.Keyed) (key : DefinitionKey)
    (rests : Rests origin s.document.symbols) :
    (stateAfter (resolve key s)).exhausted = s.exhausted := by
  cases registered : origin.definition? key with
  | none => rw [resolve_unregistered (rests.resembles.definition?_eq_none registered), stateAfter]
  | some definition =>
    have ended := resolve_searched keyed rests ⟨definition, registered⟩
    cases run : resolve key s with
    | ok | error =>
      rw [run] at ended
      exact ended.2.1.exhausted

/-- Working out a definition ends: the fuel is never used up, and more of it makes no
difference. -/
theorem resolveFrom_eq_resolve (keyed : origin.Keyed) (key : DefinitionKey) {fuel : Nat}
    (rests : Rests origin s.document.symbols)
    (enough : s.document.symbols.definitions.size < fuel) :
    resolveFrom fuel [] key s = resolve key s ∧
      (stateAfter (resolveFrom fuel [] key s)).exhausted = s.exhausted := by
  obtain ⟨more, rfl⟩ : ∃ more, fuel = s.document.symbols.definitions.size + 1 + more :=
    ⟨fuel - (s.document.symbols.definitions.size + 1), by omega⟩
  suffices same : resolveFrom (s.document.symbols.definitions.size + 1 + more) [] key s =
      resolve key s by
    rw [same]
    exact ⟨rfl, resolve_exhausted keyed key rests⟩
  cases registered : origin.definition? key with
  | none =>
    have absent := rests.resembles.definition?_eq_none registered
    rw [resolve_unregistered absent, Nat.succ_add]
    simp [resolveFrom, absent]
  | some definition =>
    apply resolveFrom_add keyed more rests (trail_nil registered)
    rw [rests.resembles.size]
    simp

end Fuel

def errorOf? {α : Type} : EStateM.Result ResolveError ResolveState α → Option ResolveError
  | .ok _ _ => none
  | .error e _ => some e

theorem eq_error_of_errorOf? {α : Type} {r : EStateM.Result ResolveError ResolveState α}
    {e : ResolveError} (h : errorOf? r = some e) : ∃ s, r = .error e s := by
  cases r with
  | ok a s => cases h
  | error e' s =>
    cases h
    exact ⟨s, rfl⟩

theorem rests_resolve (keyed : origin.Keyed) (key : DefinitionKey)
    (rests : Rests origin s.document.symbols) :
    Rests origin (stateAfter (resolve key s)).document.symbols := by
  cases registered : origin.definition? key with
  | none =>
    have absent := rests.resembles.definition?_eq_none registered
    rw [resolve_unregistered absent]
    exact rests
  | some definition =>
    have ended := resolve_searched keyed rests ⟨definition, registered⟩
    cases hr : resolve key s with
    | ok | error =>
      rw [hr] at ended
      exact ended.1

/-- A search goes on in the same way when it is said to have begun in the table it is in. -/
theorem Search.rebase (search : Search origin path table)
    (keyed : origin.Keyed) : Search table path table where
  resembles := .refl table
  underway := search.underway
  settled key isDone := by
    have settles := search.settled key isDone
    unfold Settles at settles ⊢
    rwa [search.resembles.inherits keyed]

/-- A table in which a definition is done only if it was worked out by earlier calls, between
which the rest of the document may have changed. -/
inductive WorkedOut : SymbolTable → Prop
  | unresolved {table : SymbolTable} (h : table.Unresolved) : WorkedOut table
  | resolve {s : ResolveState} (key : DefinitionKey) (h : WorkedOut s.document.symbols) :
      WorkedOut (stateAfter (Resolve.resolve key s)).document.symbols

theorem WorkedOut.rests (h : WorkedOut table) :
    table.Keyed ∧ Rests table table := by
  induction h with
  | unresolved h => exact ⟨h.keyed, rests_of_unresolved h⟩
  | resolve key _ ih =>
    obtain ⟨keyed, rests⟩ := ih
    have later := rests_resolve keyed key rests
    exact ⟨later.resembles.keyed keyed, later.rebase keyed⟩

/-- Resolving reports a cycle exactly where one can be reached, the reported names go around in
the graph of inheritance, and without a cycle resolving succeeds. Either way the search comes to
its own end, with the fuel not used up. -/
theorem resolve_cyclic_iff_reachesCycle {s : ResolveState} {key : DefinitionKey}
    (workedOut : WorkedOut s.document.symbols)
    (registered : s.document.symbols.definitions.contains key) :
    ((∃ names s', resolve key s = .error (.cyclicInheritance names) s') ↔
      s.document.symbols.ReachesCycle key) ∧
    (¬s.document.symbols.ReachesCycle key → ∃ s', resolve key s = .ok () s') ∧
    (∀ names s', resolve key s = .error (.cyclicInheritance names) s' →
      s.document.symbols.IsCycle names) ∧
    (stateAfter (resolve key s)).exhausted = s.exhausted := by
  obtain ⟨keyed, rests⟩ := workedOut.rests
  have fuel := resolve_exhausted keyed key rests
  have ended := resolve_searched keyed rests (Option.isSome_iff_exists.1 registered)
  cases hr : resolve key s with
  | ok _ s' =>
    rw [hr] at ended
    obtain ⟨search, _, isDone⟩ := ended
    have acyclic := (search.settled key isDone).not_reachesCycle
    refine ⟨⟨?_, fun h => absurd h acyclic⟩, fun _ => ⟨s', rfl⟩, ?_, hr ▸ fuel⟩
    · rintro ⟨names, s'', h⟩
      cases h
    · rintro names s'' h
      cases h
  | error e s' =>
    rw [hr] at ended
    obtain ⟨_, _, names, rfl, first⟩ := ended
    obtain ⟨cycle, reaches⟩ := first.isCycle keyed (.singleton key)
    refine ⟨⟨fun _ => reaches, fun _ => ⟨names, s', rfl⟩⟩, fun h => absurd reaches h, ?_, hr ▸ fuel⟩
    rintro _ _ h
    cases h
    exact cycle

/-- Three styles: the first inherits from the second, and the second and the third from each
other. -/
def ringTable : SymbolTable :=
  let style (name parent : String) : Definition :=
    { key := ⟨.template, .style, ⟨"", name⟩⟩
      parents := [{ parent := { type := .style, name := parent }, explicit := true }] }
  ((({} : SymbolTable).register (style "Door" "Wall")).2.register (style "Wall" "Roof")).2.register
    (style "Roof" "Wall") |>.2

theorem ringTable_cyclic :
    let door : DefinitionKey := ⟨.template, .style, ⟨"", "Door"⟩⟩
    let roof : DefinitionKey := ⟨.template, .style, ⟨"", "Roof"⟩⟩
    let s := stateAfter (resolve door { document := { symbols := ringTable } })
    WorkedOut s.document.symbols ∧ s.document.symbols.definitions.contains roof ∧
      s.document.symbols.ReachesCycle roof ∧
      s.document.symbols.IsCycle ["Roof", "Wall", "Roof"] ∧
      (stateAfter (resolve roof s)).exhausted = false := by
  intro door roof s
  have workedOut : WorkedOut s.document.symbols :=
    .resolve door (.unresolved (unresolved_of_entries (by decide)))
  have registered : s.document.symbols.definitions.contains roof := by decide +kernel
  have failed : errorOf? (resolve roof s) =
      some (.cyclicInheritance ["Roof", "Wall", "Roof"]) := by decide +kernel
  obtain ⟨s', run⟩ := eq_error_of_errorOf? failed
  obtain ⟨cyclic, -, cycle, fuel⟩ := resolve_cyclic_iff_reachesCycle workedOut registered
  exact ⟨workedOut, registered, cyclic.1 ⟨_, _, run⟩, cycle _ _ run, fuel.trans (by decide +kernel)⟩

end TemplateMarkup.Resolve
