import TemplateMarkup.Proofs.DefinedNames
import TemplateMarkup.Proofs.WritingLimits

/-! Cycles of expansions. The names of the definitions that are being expanded are kept without
their kinds, so that a usage is also taken for a cycle inside a definition with the name of the one
it stands for, and inside a definition with the name that it does not stand for. -/
namespace TemplateMarkup

def DefinitionKind.other : DefinitionKind → DefinitionKind
  | .template => .custom
  | .custom => .template

/-- The definition of the same name and type that is of the other kind. -/
def DefinitionKey.twin (key : DefinitionKey) : DefinitionKey := { key with kind := key.kind.other }

theorem DefinitionKey.eq_or_eq_twin {key other : DefinitionKey} (type : other.type = key.type)
    (name : other.name = key.name) : other = key ∨ other = key.twin := by
  obtain ⟨kind, type', name'⟩ := key
  obtain ⟨kind', _, _⟩ := other
  cases type
  cases name
  cases kind <;> cases kind' <;> simp [twin, DefinitionKind.other]

namespace SymbolTable

variable {table : SymbolTable} {usage : Usage} {key : DefinitionKey}

theorem mem_candidates_label {name : QualifiedName} (plain : ':' ∉ name.name.toList)
    (scope : String) : name ∈ candidates name.label scope := by
  unfold candidates
  rw [QualifiedName.ofText?_label plain]
  obtain ⟨path, text⟩ := name
  by_cases outer : path.isEmpty
  · have global : path = "" := String.isEmpty_iff.1 outer
    have last : "" ∈ Namespaces.scopeChain scope := by simp [Namespaces.scopeChain]
    subst global
    exact List.mem_map.2 ⟨"", last, rfl⟩
  · simp [outer]

/-- What is written for a definition stands for something, unless it asks for the other kind. -/
theorem kind_of_usageKey_eq_none (undefined : table.usageKey usage = none)
    (registered : table.definitions.contains key) (plain : ':' ∉ key.name.name.toList)
    (type : usage.type = key.type) (name : usage.name = key.name.label) :
    usage.kind = some key.kind.other := by
  have absent := List.findSome?_eq_none_iff.1 undefined key.name
    (by rw [name]; exact mem_candidates_label plain _)
  have allowed : key.kind ∉ allowedKinds usage.kind := by
    intro member
    have other := List.find?_eq_none.1 absent ⟨key.kind, usage.type, key.name⟩
      (List.mem_map_of_mem member)
    rw [type] at other
    exact other registered
  cases kind : usage.kind with
  | none =>
    rw [kind] at allowed
    cases here : key.kind <;> simp [allowedKinds, here] at allowed
  | some given =>
    rw [kind] at allowed
    cases given <;> cases here : key.kind <;> simp_all [allowedKinds, DefinitionKind.other]

end SymbolTable

namespace Write

/-- The definition that a visit expands. -/
def Visit.expandedKey? (v : Visit) : Option DefinitionKey :=
  match v.step, (v.state.document.forest.get? v.id).map Node.kind with
  | .within (.expansion _) _ _ _, some (.usage usage) => v.state.document.symbols.usageKey usage
  | _, _ => none

/-- The definitions that are being expanded, outermost first. -/
def keysExpandedBy (visits : List Visit) : List DefinitionKey :=
  visits.reverse.filterMap Visit.expandedKey?

theorem keysExpandedBy_cons (v : Visit) (outer : List Visit) :
    keysExpandedBy (v :: outer) = keysExpandedBy outer ++ v.expandedKey?.toList := by
  unfold keysExpandedBy
  rw [List.reverse_cons, List.filterMap_append]
  cases key : v.expandedKey? <;> simp [key]

/-- A visit comes to a usage of an element that may stand where it stands. -/
structure Visit.Meets (v : Visit) (node : Node) (usage : Usage) : Prop where
  found : v.state.document.forest.get? v.id = some node
  kind : node.kind = .usage usage
  type : usage.type = .element
  allowed : violation? v.state.document.symbols v.around.ban node = none

/-- A visit ends in an error since the name of its usage is among those that are being expanded:
they make up a cycle from that name on. -/
def Visit.CutsOff (v : Visit) (span : Span) (usage : Usage) : Prop :=
  let label := labelOf v.state.document.symbols usage
  ∃ before between, v.around.expanding = before ++ label :: between ∧
    v.step = .done "" (fail (.resolve (.cyclicInheritance (label :: between ++ [label])) span)
      v.state).2

variable {document : Document} {v : Visit} {outer : List Visit} {node : Node} {usage : Usage}
  {hosts : List Host}

theorem Visit.Meets.step (meets : v.Meets node usage) :
    v.step = usageStep v.around v.id node.span usage v.state := by
  unfold Visit.step
  rw [meets.found]
  dsimp only
  rw [meets.allowed]
  simp [allowedStep, meets.kind, meets.type]

theorem Visit.Meets.cutsOff_iff_mem (meets : v.Meets node usage) :
    v.CutsOff node.span usage ↔
      labelOf v.state.document.symbols usage ∈ v.around.expanding := by
  constructor
  · rintro ⟨before, between, split, -⟩
    rw [split]
    simp
  · intro member
    cases position : v.around.expanding.findIdx?
        (· = labelOf v.state.document.symbols usage) with
    | none => exact absurd member (findIdx?_label.1 position)
    | some start =>
      obtain ⟨inside, here, -⟩ := List.findIdx?_eq_some_iff_getElem.1 position
      have split : v.around.expanding.drop start =
          labelOf v.state.document.symbols usage :: v.around.expanding.drop (start + 1) := by
        rw [List.drop_eq_getElem_cons inside, of_decide_eq_true here]
      refine ⟨v.around.expanding.take start, v.around.expanding.drop (start + 1), ?_, ?_⟩
      · rw [← split, List.take_append_drop]
      · rw [← split, meets.step, usageStep, position]
        rfl

theorem instantiate_undefined {s : WriteState} (span : Span)
    (undefined : s.document.symbols.usageKey usage = none) : instantiate span usage s =
      (none, (warn span (.undefined (.undefinedReference usage.type usage.name)) s).2) := by
  have run : Resolve.instantiate usage { document := s.document } =
      .error (.undefinedReference usage.type usage.name) { document := s.document } := by
    unfold Resolve.instantiate
    rw [Resolve.bind_apply, Resolve.instantiateWith_apply]
    dsimp only
    rw [undefined]
  have same : resolving span (Resolve.instantiate usage) s =
      (.error (.undefinedReference usage.type usage.name), s) := by
    unfold resolving
    simp only [modifyGet, MonadStateOf.modifyGet, StateT.modifyGet, run, List.reverse_nil,
      List.map_nil, List.append_nil]
    rfl
  rw [instantiate_eq, same]
  rfl

/-- A usage that stands for nothing is a warning, unless it is taken for a cycle. -/
theorem Visit.Meets.step_undefined (meets : v.Meets node usage)
    (undefined : v.state.document.symbols.usageKey usage = none)
    (passes : ¬v.CutsOff node.span usage) :
    v.step = .done "" (warn node.span
      (.undefined (.undefinedReference .element usage.name)) v.state).2 := by
  have position : v.around.expanding.findIdx?
      (· = labelOf v.state.document.symbols usage) = none :=
    findIdx?_label.2 fun member => passes (meets.cutsOff_iff_mem.2 member)
  rw [meets.step, usageStep, position, instantiate_undefined node.span undefined, meets.type]

section Keys

/-- The definition that a visit expands is one of an element, and its name is the one that is
kept. -/
theorem Tracked.expandedKey? (keyed : document.symbols.Keyed)
    (tracked : Tracked document v outer) :
    v.label? = v.expandedKey?.map (·.name.label) ∧
      ∀ key ∈ v.expandedKey?, document.symbols.definitions.contains key ∧
        key.type = .element := by
  obtain ⟨fuel, levels, p, slot, pre, ids, post, queued⟩ := tracked.queued
  unfold Visit.label? Visit.expandedKey?
  cases step : v.step with
  | done | single => simp
  | within role inside below before =>
    cases Visit.descends step with
    | element found kind shallow => simp
    | scope found kind => simp
    | expansion found kind type apart received =>
      obtain ⟨key, definition, named, registered⟩ :=
        (queued.supplies keyed found kind received).key
      have here : v.state.document.symbols.usageKey _ = some key :=
        (queued.ready.standing.rests.resembles.usageKey _).trans named
      rw [found, Option.map_some, kind]
      dsimp only
      rw [labelOf, here]
      refine ⟨rfl, fun key' same => ?_⟩
      cases Option.mem_some.1 same
      exact ⟨SymbolTable.contains_of_usageKey named,
        (SymbolTable.type_of_usageKey named).trans type⟩

/-- The names that are kept are those of the definitions that are being expanded. -/
structure KeysKept (document : Document) (outer : List Visit) : Prop where
  labels : expandedBy outer = (keysExpandedBy outer).map (·.name.label)
  registered : ∀ key ∈ keysExpandedBy outer, document.symbols.definitions.contains key
  type : ∀ key ∈ keysExpandedBy outer, key.type = .element

theorem KeysKept.cons (keyed : document.symbols.Keyed) (kept : KeysKept document outer)
    (tracked : Tracked document v outer) : KeysKept document (v :: outer) := by
  obtain ⟨label, known⟩ := tracked.expandedKey? keyed
  refine ⟨?_, fun key member => ?_, fun key member => ?_⟩
  · rw [expandedBy_cons, keysExpandedBy_cons, kept.labels, label]
    cases v.expandedKey? <;> simp
  all_goals
    rw [keysExpandedBy_cons] at member
    rcases List.mem_append.1 member with old | new
  · exact kept.registered key old
  · exact (known key (Option.mem_toList.1 new)).1
  · exact kept.type key old
  · exact (known key (Option.mem_toList.1 new)).2

theorem Moment.keysKept (sound : document.Sound hosts []) {visits : List Visit}
    (moment : Moment document visits) : KeysKept document visits.tail := by
  induction moment with
  | top split before => exact ⟨rfl, by simp [keysExpandedBy], by simp [keysExpandedBy]⟩
  | inside moment step ends ih =>
    obtain ⟨_, _, same, tracked⟩ := moment.tracked sound
    cases same
    exact ih.cons sound.unresolved.keyed tracked

end Keys

end Write

open Write in
/-- A usage is taken for a cycle if it stands for a definition that is being expanded, and also if
it stands for the twin of one, or asks for the twin of one by its name and stands for nothing. A
usage that stands for nothing is a warning otherwise. -/
theorem WriteResult.cutsOff_iff {source : String} {stream : TokenStream}
    (tokenizes : TokenStream.ofSource source = .ok stream) (config : Config)
    (options : ParseOptions) :
    let document := (ParseResult.ofTokens source stream.tokens { config } options).document
    ∀ v outer node usage, Moment document (v :: outer) → v.Meets node usage →
      (v.CutsOff node.span usage ↔ ∃ key ∈ keysExpandedBy outer,
        document.symbols.usageKey usage = some key ∨
        document.symbols.usageKey usage = some key.twin ∨
        document.symbols.usageKey usage = none ∧ usage.name = key.name.label ∧
          usage.kind = some key.twin.kind) ∧
      (document.symbols.usageKey usage = none → ¬v.CutsOff node.span usage →
        v.step = .done "" (warn node.span
          (.undefined (.undefinedReference .element usage.name)) v.state).2) := by
  intro document v outer node usage moment meets
  have sound : document.Sound [Forest.root] [] :=
    ParseResult.sound_ofTokens source stream.tokens config options
  have plain {key : DefinitionKey} (found : document.symbols.definitions.contains key) :
      ':' ∉ key.name.name.toList := ParseResult.colon_notMem_name tokenizes config options found
  have kept : KeysKept document outer := moment.keysKept sound
  obtain ⟨_, _, same, tracked⟩ := moment.tracked sound
  cases same
  obtain ⟨_, _, _, _, _, _, _, queued⟩ := tracked.queued
  have lookup : v.state.document.symbols.usageKey usage = document.symbols.usageKey usage :=
    queued.ready.standing.rests.resembles.usageKey usage
  refine ⟨?_, fun undefined => meets.step_undefined (lookup.trans undefined)⟩
  rw [meets.cutsOff_iff_mem, tracked.expanding, kept.labels, List.mem_map, labelOf, lookup]
  cases found : document.symbols.usageKey usage with
  | none =>
    refine exists_congr fun key => and_congr_right fun member => ?_
    simp only [reduceCtorEq, true_and, false_or]
    constructor
    · intro name
      refine ⟨name.symm, SymbolTable.kind_of_usageKey_eq_none found
        (kept.registered key member) (plain (kept.registered key member))
        (meets.type.trans (kept.type key member).symm) name.symm⟩
    · rintro ⟨name, -⟩
      exact name.symm
  | some target =>
    refine exists_congr fun key => and_congr_right fun member => ?_
    simp only [Option.some.injEq, reduceCtorEq, false_and, or_false]
    constructor
    · intro label
      refine DefinitionKey.eq_or_eq_twin ?_ ?_
      · rw [SymbolTable.type_of_usageKey found, meets.type, kept.type key member]
      · exact (QualifiedName.label_injective (plain (kept.registered key member))
          (plain (SymbolTable.contains_of_usageKey found)) label).symm
    · rintro (rfl | rfl)
      · rfl
      · rfl

/-- The first visit inside a visit. -/
def Write.Visit.first? (v : Visit) : Option Visit :=
  match v.step with
  | .within _ inside (id :: _) before => some ⟨inside, id, before⟩
  | _ => none

theorem Write.Moment.first {document : Document} {v w : Visit} {outer : List Visit}
    (moment : Moment document (v :: outer)) (first : v.first? = some w) :
    Moment document (w :: v :: outer) := by
  unfold Visit.first? at first
  split at first
  · next inside id later before step =>
    cases first
    have split : v.step = .within _ inside ([] ++ id :: later) before := step
    exact .inside moment split .nil
  · cases first

open Write in
/-- A template is taken for the custom element of the same name that uses it. -/
theorem WriteResult.cutsOff_iff_namesake :
    let source := "@Element Box; [Template] @Element Box \x7b span \x7b \x7d \x7d " ++
      "[Custom] @Element Box \x7b div \x7b [Template] @Element Box; \x7d \x7d"
    ∃ stream, TokenStream.ofSource source = .ok stream ∧
      let document := (ParseResult.ofTokens source stream.tokens {} {}).document
      ∃ v outer node usage, Moment document (v :: outer) ∧ v.Meets node usage ∧
        keysExpandedBy outer = [⟨.custom, .element, ⟨"", "Box"⟩⟩] ∧
        document.symbols.usageKey usage = some ⟨.template, .element, ⟨"", "Box"⟩⟩ ∧
        v.CutsOff node.span usage := by
  intro source
  -- the usage at the top, the element of the custom definition, and the usage in it
  have run : (TokenStream.ofSource source).toOption.bind (fun stream =>
        let document := (ParseResult.ofTokens source stream.tokens {} {}).document
        let u : Visit := ⟨{}, ⟨1⟩, { document }⟩
        u.first?.bind fun v => v.first?.bind fun w =>
          (w.state.document.forest.get? w.id).bind fun node => node.usage?.map fun usage =>
            (document.forest.children Forest.root, keysExpandedBy [v, u], usage.type,
              document.symbols.usageKey usage,
              (violation? w.state.document.symbols w.around.ban node).isNone)) =
      some ([⟨1⟩, ⟨3⟩, ⟨6⟩], [⟨.custom, .element, ⟨"", "Box"⟩⟩], .element,
        some ⟨.template, .element, ⟨"", "Box"⟩⟩, true) := by decide +kernel
  obtain ⟨stream, tokens, run⟩ := Option.bind_eq_some_iff.1 run
  obtain ⟨v, first, run⟩ := Option.bind_eq_some_iff.1 run
  obtain ⟨w, second, run⟩ := Option.bind_eq_some_iff.1 run
  obtain ⟨node, found, run⟩ := Option.bind_eq_some_iff.1 run
  obtain ⟨usage, isUsage, run⟩ := Option.map_eq_some_iff.1 run
  have tokenizes := TokenStream.ofSource_of_toOption tokens
  simp only [Prod.mk.injEq, Option.isNone_iff_eq_none] at run
  obtain ⟨children, keys, type, lookup, allowed⟩ := run
  have split : _ = [] ++ (⟨1⟩ : NodeId) :: [⟨3⟩, ⟨6⟩] := children
  have moment := ((Moment.top split .nil).first first).first second
  have meets : w.Meets node usage := ⟨found, Node.kind_of_usage? isUsage, type, allowed⟩
  refine ⟨stream, tokenizes, w, _, node, usage, moment, meets, keys, lookup, ?_⟩
  refine (WriteResult.cutsOff_iff tokenizes {} {} w _ node usage moment meets).1.2 ?_
  exact ⟨⟨.custom, .element, ⟨"", "Box"⟩⟩, by rw [keys]; exact .head _, .inr (.inl lookup)⟩

end TemplateMarkup
