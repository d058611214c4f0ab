import Mathlib.Data.List.Dedup
import TemplateMarkup.Proofs.WritingSteps

/-! Writing a document that was read ends, and at every moment of it the expansions and the
elements that are open are within their limits. -/
namespace TemplateMarkup

/-- The qualified names of the definitions of elements. -/
def SymbolTable.elementNames (table : SymbolTable) : List String :=
  ((table.definitions.keys.filter (·.type == .element)).map fun key => key.name.label).dedup

theorem SymbolTable.mem_elementNames {table : SymbolTable} {key : DefinitionKey}
    {definition : Definition} (found : table.definition? key = some definition)
    (type : key.type = .element) : key.name.label ∈ table.elementNames := by
  rw [elementNames, List.mem_dedup]
  refine List.mem_map_of_mem (List.mem_filter.2 ⟨OrderedMap.mem_keys_of_get? found, ?_⟩)
  simpa using type

theorem SymbolTable.contains_of_usageKey {table : SymbolTable} {usage : Usage}
    {key : DefinitionKey} (found : table.usageKey usage = some key) :
    table.definitions.contains key := by
  obtain ⟨_, _, _, _, here, _⟩ := List.findSome?_eq_some_iff.1 found
  exact List.find?_some here

namespace Write

/-- Why nodes inside a node are written, and from what state on. -/
inductive Descends (v : Visit) : Role → Surroundings → List NodeId → WriteState → Prop
  | element {node final : Node} (found : v.state.document.forest.get? v.id = some node)
      (kind : node.kind = .element) (shallow : v.around.depth < maxElementDepth) :
      Descends v (.element final)
        (insideElement v.around node (childNodes v.id v.state).1)
        (v.state.document.forest.children v.id) (prepareElement v.id node v.state).2
  | expansion {node : Node} {usage : Usage} {content : Content} {s : WriteState}
      (found : v.state.document.forest.get? v.id = some node) (kind : node.kind = .usage usage)
      (type : usage.type = .element)
      (apart : labelOf v.state.document.symbols usage ∉ v.around.expanding)
      (received : instantiate node.span usage v.state = (some content, s)) :
      Descends v (.expansion (labelOf v.state.document.symbols usage))
        { v.around with
          expanding := v.around.expanding ++ [labelOf v.state.document.symbols usage] }
        content.elements (modifyForest (·.splice v.id content.elements) s).2
  | scope {node : Node} (found : v.state.document.forest.get? v.id = some node)
      (kind : node.kind = .scope) :
      Descends v .scope { v.around with scope := .wholeDocument, ban := none }
        (v.state.document.forest.children v.id) v.state

variable {v : Visit} {role : Role} {around inside : Surroundings} {id : NodeId}
  {ids below earlier : List NodeId} {s s' before after : WriteState} {final : Node}
  {texts : List String}

theorem Descends.of_elementStep {node : Node}
    (found : v.state.document.forest.get? v.id = some node) (kind : node.kind = .element)
    (shallow : v.around.depth < maxElementDepth)
    (step : elementStep v.around v.id node v.state = .within role inside below before) :
    Descends v role inside below before := by
  unfold elementStep at step
  split at step
  · cases step
  · dsimp only at step
    split at step
    · cases step
    · cases step
      exact .element found kind shallow

theorem Descends.of_usageStep {node : Node} {usage : Usage}
    (found : v.state.document.forest.get? v.id = some node) (kind : node.kind = .usage usage)
    (type : usage.type = .element)
    (step : usageStep v.around v.id node.span usage v.state = .within role inside below before) :
    Descends v role inside below before := by
  unfold usageStep at step
  dsimp only at step
  split at step
  · cases step
  · next position =>
    split at step
    · cases step
    · next received =>
      cases step
      exact .expansion found kind type (findIdx?_label.1 position) received

theorem Visit.descends (step : v.step = .within role inside below before) :
    Descends v role inside below before := by
  unfold Visit.step at step
  cases found : v.state.document.forest.get? v.id with
  | none => simp [found] at step
  | some node =>
    rw [found] at step
    dsimp only at step
    split at step
    · cases step
    · unfold allowedStep at step
      cases kind : node.kind with
      | element =>
        rw [kind] at step
        dsimp only at step
        split at step
        · cases step
        · exact .of_elementStep found kind (by omega) step
      | usage usage =>
        rw [kind] at step
        dsimp only at step
        split at step
        · next type => exact .of_usageStep found kind (by simpa using type) step
        · cases step
      | scope =>
        rw [kind] at step
        cases step
        exact .scope found kind
      | _ =>
        rw [kind] at step
        cases step

theorem usageStep_ne_single (span : Span) (usage : Usage) :
    usageStep around id span usage s ≠ .single final after := by
  unfold usageStep
  dsimp only
  split
  · simp
  · split <;> simp

theorem Visit.shallow_of_single (step : v.step = .single final after) :
    v.around.depth < maxElementDepth := by
  unfold Visit.step at step
  split at step
  · cases step
  · split at step
    · cases step
    · unfold allowedStep at step
      dsimp only at step
      split at step
      · split at step
        · cases step
        · omega
      · split at step
        · exact absurd step (usageStep_ne_single _ _)
        · cases step
      · cases step
      · cases step

section Ending

variable {original : Document} {fuel levels : Nat} {p : NodeId} {slot : Slot}
  {pre post : List NodeId} (keyed : original.symbols.Keyed) (grown : original.forest.Grown)

include keyed grown

omit grown in
theorem Queued.supplies {expanding : List String} {node : Node} {span : Span} {usage : Usage}
    {content : Content}
    (queued : Queued original fuel levels expanding s p slot pre (id :: ids) post)
    (found : s.document.forest.get? id = some node) (kind : node.kind = .usage usage)
    (received : instantiate span usage s = (some content, s')) :
    Supplies original usage s s' content := by
  obtain ⟨here, there, same⟩ := Option.map_eq_some_iff.1 found
  have brought := (queued.fits id (.head _)).here queued.ready.grown there
  rw [same] at brought
  have supplied : Supplied original span usage s (instantiate span usage s) :=
    instantiate_supplied keyed (brought.usages usage (by simp [Node.usages, kind])) queued.ready
  rwa [received] at supplied

/-- The nodes inside a node wait in their turn, and one less step down is left for them. -/
theorem Queued.within
    (queued : Queued original (fuel + 1) levels around.expanding s p slot pre (id :: ids) post)
    (descends : Descends ⟨around, id, s⟩ role inside below before) :
    ∃ levels p slot pre post,
      Queued original fuel levels inside.expanding before p slot pre below post := by
  obtain ⟨here, there, -⟩ :=
    queued.ready.grown.exists_slot (Forest.mem_children_of_slot? queued.before)
  obtain ⟨levels, rfl⟩ : ∃ n, levels = n + 1 :=
    ⟨levels - 1, by have := (queued.fits id (.head _)).pos; omega⟩
  have same {node : Node} (found : s.document.forest.get? id = some node) : here.node = node := by
    rw [Forest.get?, there] at found
    exact Option.some.inj found
  cases descends with
  | element found kind =>
    cases same found
    obtain ⟨final, -, queued⟩ := prepareElement_queued there keyed queued.single
    rw [Forest.children_eq there]
    exact ⟨_, _, _, _, _, queued⟩
  | expansion found kind type apart received =>
    exact ⟨_, _, _, _, _,
      (queued.supplies keyed found kind received).queued grown queued.single apart⟩
  | scope found kind =>
    cases same found
    dsimp only
    rw [Forest.children_eq there]
    exact ⟨_, _, _, _, _, scope_queued queued.single there⟩

theorem Queued.enter
    (queued : Queued original fuel levels around.expanding s p slot pre (id :: ids) post)
    (step : Visit.step ⟨around, id, s⟩ = .within role inside below before) :
    ∃ fuel levels p slot pre post,
      Queued original fuel levels inside.expanding before p slot pre below post := by
  have := (queued.fits id (.head _)).pos
  have := queued.room.enough
  obtain ⟨fuel, rfl⟩ : ∃ n, fuel = n + 1 := ⟨fuel - 1, by omega⟩
  exact ⟨fuel, queued.within keyed grown (Visit.descends step)⟩

/-- The fuel is enough for all that waits. -/
theorem Queued.ends
    (queued : Queued original fuel levels around.expanding s p slot pre ids post) :
    Ends around ids s (ids.mapM (node fuel around) s).1 (ids.mapM (node fuel around) s).2 := by
  induction fuel generalizing levels around s p slot pre ids post with
  | zero =>
    cases ids with
    | nil => exact .nil
    | cons id ids =>
      have := (queued.fits id (.head _)).pos
      have := queued.room.enough
      omega
  | succ fuel down =>
    induction ids generalizing s pre with
    | nil => exact .nil
    | cons id ids next =>
      obtain ⟨new, wrote⟩ := writes_node keyed grown (fuel + 1) queued.single
      have rest := next (queued.rest [id] wrote)
      have run := node_eq_run around id s fuel
      rw [mapM_cons_apply]
      cases step : Visit.step ⟨around, id, s⟩ with
      | done text after =>
        rw [run, step] at rest ⊢
        exact .done step rest
      | single final after =>
        rw [run, step] at rest ⊢
        exact .single step rest
      | within role inside below before =>
        obtain ⟨_, _, _, _, _, inner⟩ := queued.within keyed grown (Visit.descends step)
        rw [run, step] at rest ⊢
        exact .within step (down inner) rest

theorem Queued.wrote
    (queued : Queued original fuel levels around.expanding s p slot pre (earlier ++ ids) post)
    (ends : Ends around earlier s texts s') :
    ∃ new, Wrote original s s' p slot pre earlier new (ids ++ post) (String.join texts) := by
  have first : Queued original fuel levels around.expanding s p slot pre earlier (ids ++ post) :=
    ⟨queued.ready, queued.stands, by simpa using queued.before,
      fun id member => queued.fits id (List.mem_append_left _ member), queued.room⟩
  obtain ⟨new, wrote⟩ := (writes_node keyed grown fuel).mapM first
  obtain ⟨rfl, rfl⟩ := (first.ends keyed grown).unique ends
  exact ⟨new, wrote⟩

theorem Queued.later
    (queued : Queued original fuel levels around.expanding s p slot pre (earlier ++ ids) post)
    (ends : Ends around earlier s texts s') :
    ∃ pre, Queued original fuel levels around.expanding s' p slot pre ids post := by
  obtain ⟨new, wrote⟩ := queued.wrote keyed grown ends
  exact ⟨_, queued.rest earlier wrote⟩

/-- Writing the first node takes nothing back, and leaves the others as they were. -/
theorem Queued.advance
    (queued : Queued original fuel levels around.expanding s p slot pre (id :: ids) post)
    (ends : Ends around [id] s texts s') :
    ∃ new, Grows s s' ∧ (∀ c ∈ ids, s.document.forest.Spares s'.document.forest c) ∧
      Queued original fuel levels around.expanding s' p slot (pre ++ new) ids post := by
  have waiting : Queued original fuel levels around.expanding s p slot pre ([id] ++ ids) post :=
    queued
  obtain ⟨new, wrote⟩ := waiting.wrote keyed grown ends
  exact ⟨new, wrote.toGrows, waiting.spares [id] wrote, waiting.rest [id] wrote⟩

end Ending

section Moments

/-- The name under which a visit expands a usage. -/
def Visit.label? (v : Visit) : Option String :=
  match v.step with
  | .within (.expansion label) _ _ _ => some label
  | _ => none

/-- Whether a visit writes nodes between the tags of an element. -/
def Visit.isOpen (v : Visit) : Bool :=
  match v.step with
  | .within (.element _) _ _ _ => true
  | _ => false

/-- Whether a visit writes the tag of an element. -/
def Visit.writesTag (v : Visit) : Bool :=
  match v.step with
  | .single _ _ => true
  | .within (.element _) _ _ _ => true
  | _ => false

/-- The visits that are going on at a moment of writing a document, innermost first. A node is
visited when writing those before it has ended. -/
inductive Moment (document : Document) : List Visit → Prop
  | top {id : NodeId} {earlier later : List NodeId} {texts : List String} {s : WriteState}
      (split : document.forest.children Forest.root = earlier ++ id :: later)
      (before : Ends {} earlier { document } texts s) : Moment document [⟨{}, id, s⟩]
  | inside {v : Visit} {outer : List Visit} {role : Role} {inside : Surroundings} {id : NodeId}
      {earlier later : List NodeId} {before s : WriteState} {texts : List String}
      (moment : Moment document (v :: outer))
      (step : v.step = .within role inside (earlier ++ id :: later) before)
      (ends : Ends inside earlier before texts s) :
      Moment document (⟨inside, id, s⟩ :: v :: outer)

/-- The names of the usages that are being expanded, outermost first. -/
def expandedBy (visits : List Visit) : List String := visits.reverse.filterMap Visit.label?

theorem expandedBy_cons (v : Visit) (outer : List Visit) :
    expandedBy (v :: outer) = expandedBy outer ++ v.label?.toList := by
  unfold expandedBy
  rw [List.reverse_cons, List.filterMap_append]
  cases label : v.label? <;> simp [label]

/-- What stands around the innermost visit tells what the others do. -/
structure Tracked (document : Document) (v : Visit) (outer : List Visit) : Prop where
  expanding : v.around.expanding = expandedBy outer
  depth : v.around.depth = outer.countP Visit.isOpen
  names : ∀ label ∈ v.around.expanding, label ∈ document.symbols.elementNames
  queued : ∃ fuel levels p slot pre ids post, Queued document fuel levels v.around.expanding
    v.state p slot pre (v.id :: ids) post

variable {document : Document} {outer : List Visit} {later : List NodeId}

/-- A usage is only expanded if it names a definition of an element. -/
theorem Supplies.mem_elementNames {usage : Usage} {content : Content}
    (supplies : Supplies document usage s s' content) (ready : Ready document s.document)
    (type : usage.type = .element) :
    labelOf s.document.symbols usage ∈ document.symbols.elementNames := by
  obtain ⟨key, definition, named, registered⟩ := supplies.key
  rw [labelOf, ready.standing.rests.resembles.usageKey, named]
  exact SymbolTable.mem_elementNames registered ((SymbolTable.type_of_usageKey named).trans type)

/-- What stands around the nodes inside a node tells of the visit of that node too. -/
theorem Tracked.surroundings (tracked : Tracked document v outer)
    (step : v.step = .within role inside below before) :
    inside.expanding = expandedBy (v :: outer) ∧
      inside.depth = (v :: outer).countP Visit.isOpen := by
  rw [expandedBy_cons, ← tracked.expanding, List.countP_cons, ← tracked.depth]
  cases Visit.descends step <;> simp [Visit.label?, Visit.isOpen, step, insideElement]

section Tracking

variable (keyed : document.symbols.Keyed)

include keyed

/-- The usages that are being expanded, that of the innermost visit included, have different names,
all of them of elements. -/
theorem Tracked.expanded (tracked : Tracked document v outer) :
    (expandedBy (v :: outer)).Nodup ∧
      ∀ label ∈ expandedBy (v :: outer), label ∈ document.symbols.elementNames := by
  obtain ⟨fuel, levels, p, slot, pre, ids, post, queued⟩ := tracked.queued
  rw [expandedBy_cons, ← tracked.expanding]
  cases found : v.label? with
  | none => simpa using ⟨queued.room.nodup, tracked.names⟩
  | some label =>
    unfold Visit.label? at found
    split at found
    · next step =>
      cases found
      cases Visit.descends step with
      | expansion here kind type apart received =>
        have name := (queued.supplies keyed here kind received).mem_elementNames queued.ready type
        rw [Option.toList_some]
        constructor
        · refine List.nodup_append.2 ⟨queued.room.nodup, List.nodup_singleton _, ?_⟩
          intro a member b new same
          rw [same, List.mem_singleton.1 new] at member
          exact apart member
        · intro label member
          rcases List.mem_append.1 member with old | new
          · exact tracked.names label old
          · rwa [List.mem_singleton.1 new]
    · cases found

theorem Tracked.enter (grown : document.forest.Grown) (tracked : Tracked document v outer)
    (step : v.step = .within role inside (earlier ++ id :: later) before)
    (ends : Ends inside earlier before texts s) :
    Tracked document ⟨inside, id, s⟩ (v :: outer) := by
  obtain ⟨expanding, depth⟩ := tracked.surroundings step
  refine ⟨expanding, depth, ?_, ?_⟩
  · dsimp only
    rw [expanding]
    exact (tracked.expanded keyed).2
  · obtain ⟨fuel, levels, p, slot, pre, ids, post, queued⟩ := tracked.queued
    obtain ⟨fuel, levels, p, slot, pre, post, inner⟩ := queued.enter keyed grown step
    obtain ⟨pre, waiting⟩ := inner.later keyed grown ends
    exact ⟨fuel, levels, p, slot, pre, later, post, waiting⟩

end Tracking

variable {hosts : List Host}

theorem Moment.tracked (sound : document.Sound hosts []) {visits : List Visit}
    (moment : Moment document visits) :
    ∃ v outer, visits = v :: outer ∧ Tracked document v outer := by
  have keyed := sound.unresolved.keyed
  induction moment with
  | @top id earlier later texts s split before =>
    obtain ⟨top, found, -⟩ := sound.top
    have queued := sound.queued found
    rw [← Forest.children_eq found, split] at queued
    obtain ⟨pre, waiting⟩ := queued.later keyed sound.grown before
    exact ⟨_, [], rfl, rfl, rfl, by simp, _, _, _, _, pre, later, [], waiting⟩
  | inside _ step ends ih =>
    obtain ⟨v, outer, same, tracked⟩ := ih
    cases same
    exact ⟨_, _, rfl, tracked.enter keyed sound.grown step ends⟩

theorem Tracked.countP_lt (tracked : Tracked document v outer) (tag : v.writesTag) :
    outer.countP Visit.isOpen < maxElementDepth := by
  rw [← tracked.depth]
  unfold Visit.writesTag at tag
  split at tag
  · next step => exact Visit.shallow_of_single step
  · next step =>
    cases Visit.descends step with
    | element found kind shallow => exact shallow
  · cases tag

/-- A moment is within the limits: the usages that are being expanded have different names, each
the name of a definition of an element; a tag is written inside fewer than `maxElementDepth`
elements; and working out any definition ends, with the fuel not used up. -/
structure Limited (document : Document) (v : Visit) (outer : List Visit) : Prop where
  expanding : v.around.expanding = expandedBy outer
  nodup : (expandedBy (v :: outer)).Nodup
  names : ∀ label ∈ expandedBy (v :: outer), label ∈ document.symbols.elementNames
  length_le : (expandedBy (v :: outer)).length ≤ document.symbols.elementNames.length
  elements : v.writesTag → outer.countP Visit.isOpen ≤ maxElementDepth - 1
  resolves : ∀ key fuel, v.state.document.symbols.definitions.size < fuel →
    Resolve.resolveFrom fuel [] key { document := v.state.document } =
      Resolve.resolve key { document := v.state.document } ∧
    (Resolve.stateAfter (Resolve.resolveFrom fuel [] key
      { document := v.state.document })).exhausted = false

theorem Tracked.limited (keyed : document.symbols.Keyed) (tracked : Tracked document v outer) :
    Limited document v outer := by
  obtain ⟨nodup, names⟩ := tracked.expanded keyed
  obtain ⟨_, _, _, _, _, _, _, queued⟩ := tracked.queued
  refine ⟨tracked.expanding, nodup, names, (nodup.subperm names).length_le, fun tag => ?_, ?_⟩
  · have := tracked.countP_lt tag
    omega
  · intro key fuel enough
    exact Resolve.resolveFrom_eq_resolve keyed key queued.ready.standing.rests enough

end Moments

end Write

theorem Document.Sound.ofDocument_eq {document : Document} {hosts : List Host}
    (sound : document.Sound hosts []) {texts : List String} {s : WriteState}
    (ends : Write.Ends {} (document.forest.children Forest.root) { document } texts s) :
    WriteResult.ofDocument document =
      { html := (if document.symbols.html5 then Markup.doctype else "") ++ String.join texts
        css := "\n".intercalate s.css
        js := "\n".intercalate s.js
        document := s.document
        warnings := s.warnings
        errors := s.errors
        fragments := s.fragments } := by
  obtain ⟨top, found, -⟩ := sound.top
  have run := (sound.queued found).ends sound.unresolved.keyed sound.grown
  rw [← Forest.children_eq found] at run
  obtain ⟨rfl, rfl⟩ := ends.unique run
  rfl

/-- The usage that a node is. -/
def Node.usage? (node : Node) : Option Usage :=
  match node.kind with
  | .usage usage => some usage
  | _ => none

theorem Node.kind_of_usage? {node : Node} {usage : Usage} (found : node.usage? = some usage) :
    node.kind = .usage usage := by
  unfold Node.usage? at found
  split at found
  · next kind =>
    cases found
    exact kind
  · cases found

/-- Writing a document that was read ends, with the result that is given, and every moment of it is
within the limits. -/
theorem WriteResult.ofDocument_ends (source : String) (tokens : List Token) (config : Config)
    (options : ParseOptions) :
    let document := (ParseResult.ofTokens source tokens { config } options).document
    (∃ texts s, Write.Ends {} (document.forest.children Forest.root) { document } texts s ∧
      WriteResult.ofDocument document =
        { html := (if document.symbols.html5 then Markup.doctype else "") ++ String.join texts
          css := "\n".intercalate s.css
          js := "\n".intercalate s.js
          document := s.document
          warnings := s.warnings
          errors := s.errors
          fragments := s.fragments }) ∧
    ∀ v outer, Write.Moment document (v :: outer) → Write.Limited document v outer := by
  intro document
  have sound : document.Sound [Forest.root] [] :=
    ParseResult.sound_ofTokens source tokens config options
  have keyed := sound.unresolved.keyed
  constructor
  · obtain ⟨top, found, -⟩ := sound.top
    have ends := (sound.queued found).ends keyed sound.grown
    rw [← Forest.children_eq found] at ends
    exact ⟨_, _, ends, rfl⟩
  · intro v outer moment
    obtain ⟨_, _, same, tracked⟩ := moment.tracked sound
    cases same
    exact tracked.limited keyed

/-- An element that is used inside itself is expanded once. -/
theorem WriteResult.ofDocument_ends_box :
    let source := "@Element Box; [Template] @Element Box \x7b p \x7b @Element Box; \x7d \x7d"
    ∃ stream, TokenStream.ofSource source = .ok stream ∧
      let document := (ParseResult.ofTokens source stream.tokens {} {}).document
      (∃ texts s, Write.Ends {} (document.forest.children Forest.root) { document } texts s) ∧
      ∃ v, Write.Moment document [v] ∧ Write.expandedBy [v] = ["Box"] ∧
        Write.Limited document v [] := by
  intro source
  have run : (TokenStream.ofSource source).toOption.map (fun stream =>
        let document := (ParseResult.ofTokens source stream.tokens {} {}).document
        (document.forest.children Forest.root, Write.expandedBy [⟨{}, ⟨1⟩, { document }⟩])) =
      some ([⟨1⟩, ⟨4⟩], ["Box"]) := by decide +kernel
  cases tokenizes : TokenStream.ofSource source with
  | error e =>
    rw [tokenizes] at run
    cases run
  | ok stream =>
    rw [tokenizes] at run
    obtain ⟨children, expanded⟩ := Prod.mk.inj (Option.some.inj run)
    obtain ⟨⟨texts, s, ends, -⟩, limited⟩ :=
      WriteResult.ofDocument_ends source stream.tokens {} {}
    have split : (ParseResult.ofTokens source stream.tokens {} {}).document.forest.children
        Forest.root = [] ++ ⟨1⟩ :: [⟨4⟩] := children
    have moment := Write.Moment.top split .nil
    exact ⟨stream, rfl, ⟨texts, s, ends⟩, _, moment, expanded, limited _ _ moment⟩

end TemplateMarkup
