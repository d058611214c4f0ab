import Mathlib.Data.List.Infix
import TemplateMarkup.Proofs.DefinedNames
import TemplateMarkup.Proofs.NamespaceBlocks

/-! Lookup is lexical scoping: from inside namespaces a name stands for what the innermost of them
registers under it. The namespaces around are found by taking apart the path that entering them
put together. -/
namespace TemplateMarkup

namespace Namespaces

/-- The path of the namespace that is reached by entering these, one inside the other. -/
def pathOf (names : List String) : String := ".".intercalate names

/-- Names that a path can be taken apart into. -/
def Plain (names : List String) : Prop := ∀ name ∈ names, name ≠ "" ∧ '.' ∉ name.toList

variable {names : List String} {name : String}

theorem Plain.split (plain : Plain (names ++ [name])) :
    Plain names ∧ name ≠ "" ∧ '.' ∉ name.toList :=
  ⟨fun other member => plain other (by simp [member]), plain name (by simp)⟩

theorem pathOf_eq_empty_iff (plain : Plain names) : pathOf names = "" ↔ names = [] := by
  refine ⟨fun empty => ?_, by rintro rfl; rfl⟩
  cases names with
  | nil => rfl
  | cons first names =>
    refine absurd ?_ (plain first (by simp)).1
    cases names with
    | nil => simpa [pathOf] using empty
    | cons second names =>
      rw [pathOf, String.intercalate_cons_of_ne_nil (by simp)] at empty
      simp at empty

theorem pathOf_concat (plain : Plain names) (name : String) :
    pathOf (names ++ [name]) = join (pathOf names) name := by
  unfold join
  by_cases top : names = []
  · simp [top, pathOf]
  · rw [if_neg (by simpa [pathOf_eq_empty_iff plain] using top), pathOf,
      String.intercalate_append_of_ne_nil top (by simp)]
    simp [pathOf]

theorem pathsAround_append {front : List Char} (plain : '.' ∉ front) (rest : List Char) :
    pathsAround (front ++ rest) = pathsAround rest := by
  induction front with
  | nil => rfl
  | cons c front ih =>
    obtain ⟨differs, plain⟩ := not_or.1 (List.mem_cons.not.1 plain)
    rw [List.cons_append, pathsAround, if_neg fun dot => differs dot.1.symm, ih plain]

theorem scopeChain_join {path : String} (named : name ≠ "") (plain : '.' ∉ name.toList) :
    scopeChain (join path name) = join path name :: scopeChain path := by
  have front : '.' ∉ name.toList.reverse := by simpa using plain
  unfold join
  by_cases top : path = ""
  · have none := pathsAround_append front []
    rw [List.append_nil] at none
    simp [scopeChain, top, named, none, pathsAround]
  · simp [scopeChain, top, pathsAround_append front, pathsAround]

/-- Taking apart the path of namespaces gives the paths of those around, innermost first. -/
theorem scopeChain_pathOf (plain : Plain names) :
    scopeChain (pathOf names) = names.inits.reverse.map pathOf := by
  induction names using List.reverseRecOn with
  | nil => rfl
  | append_singleton names name ih =>
    obtain ⟨outer, named, undotted⟩ := plain.split
    have inits : (names ++ [name]).inits = names.inits ++ [names ++ [name]] := by
      simp [List.inits_append]
    rw [inits, List.reverse_concat, List.map_cons, ← ih outer, pathOf_concat outer,
      scopeChain_join named undotted]

end Namespaces

namespace QualifiedName

theorem cutFrom_eq_none_iff {passed text : List Char} :
    cutFrom passed text = none ↔ ¬[':', ':'] <:+: text := by
  fun_induction cutFrom passed text with
  | case1 passed rest =>
    have found : [':', ':'] <:+: ':' :: ':' :: rest := List.infix_append [] [':', ':'] rest
    simp [found]
  | case2 passed c rest single ih =>
    rw [ih, List.infix_cons_iff, not_or]
    refine ⟨fun no => ⟨?_, no⟩, And.right⟩
    rintro ⟨rest', same⟩
    obtain ⟨rfl, rfl⟩ := List.cons.inj same
    exact single rest' rfl rfl
  | case3 => simp

theorem cutFrom_eq_some {passed text : List Char} {name : QualifiedName}
    (cut : cutFrom passed text = some name) : ∃ front,
    text = front ++ ':' :: ':' :: name.scope.toList.reverse ∧
      name.name.toList = front.reverse ++ passed ∧ ¬[':', ':'] <:+: front ++ [':'] := by
  fun_induction cutFrom passed text with
  | case1 passed rest =>
    cases cut
    exact ⟨[], by simp, by simp, fun found => by simpa using found.length_le⟩
  | case2 passed c rest single ih =>
    obtain ⟨front, rfl, back, last⟩ := ih cut
    refine ⟨c :: front, rfl, by simp [back], fun found => ?_⟩
    rcases List.infix_cons_iff.1 found with ⟨rest', same⟩ | found
    · -- The colons would have been met here.
      obtain ⟨rfl, next⟩ := List.cons.inj same
      cases front with
      | nil => exact single _ rfl rfl
      | cons d front => exact single _ rfl (congrArg (· :: _) (List.cons.inj next).1.symm)
    · exact last found
  | case3 => cases cut

theorem ofText?_eq_none_iff {text : String} : ofText? text = none ↔ ¬[':', ':'] <:+: text.toList := by
  rw [ofText?, cutFrom_eq_none_iff, ← List.reverse_infix, List.reverse_reverse]
  rfl

/-- A name with a double colon is cut at the last one. -/
theorem ofText?_eq_some {text : String} {name : QualifiedName} (cut : ofText? text = some name) :
    text = name.scope ++ "::" ++ name.name ∧ ¬[':', ':'] <:+: ':' :: name.name.toList := by
  obtain ⟨front, whole, back, last⟩ := cutFrom_eq_some cut
  rw [List.append_nil] at back
  constructor
  · rw [← String.toList_inj, ← List.reverse_inj, whole]
    simp [back]
  · rw [back, ← List.reverse_infix]
    simpa using last

end QualifiedName

namespace SymbolTable
open Namespaces

variable {table : SymbolTable} {names : List String} {name : String} {type : DefinitionType}
  {kind : Option DefinitionKind}

/-- These namespaces have been entered, one inside the other, and not left. -/
inductive Entered : List String → SymbolTable → Prop
  | top {table : SymbolTable} (none : table.openScopes = []) : Entered [] table
  | enter {names : List String} {table : SymbolTable} (entered : Entered names table)
      (name : String) : Entered (names ++ [name]) (table.enterNamespace name).2
  | leave {names : List String} {name : String} {table : SymbolTable}
      (entered : Entered (names ++ [name]) table) : Entered names table.exitNamespace.2
  | other {names : List String} {table after : SymbolTable} (entered : Entered names table)
      (same : after.openScopes = table.openScopes) : Entered names after

/-- The paths of namespaces that are entered one inside the other, innermost first. -/
def openPaths (names : List String) : List String :=
  (names.inits.tail.map (·.foldl join "")).reverse

theorem openPaths_concat (names : List String) (name : String) :
    openPaths (names ++ [name]) = join (names.foldl join "") name :: openPaths names := by
  have some : names.inits ≠ [] := by cases names <;> simp
  simp [openPaths, List.inits_append, List.tail_append_of_ne_nil some]

theorem headD_openPaths (names : List String) :
    (openPaths names).headD "" = names.foldl join "" := by
  cases names using List.reverseRecOn with
  | nil => rfl
  | append_singleton names name => simp [openPaths_concat]

theorem Entered.openScopes (entered : Entered names table) : table.openScopes = openPaths names := by
  induction entered with
  | top none => exact none
  | enter _ name ih =>
    rw [openScopes_enterNamespace, openPaths_concat, currentScope, ih, headD_openPaths]
  | @leave names name table _ ih =>
    rw [openPaths_concat] at ih
    exact congrArg List.tail ih
  | other _ same ih => exact same.trans ih

theorem Entered.currentScope (entered : Entered names table) (plain : Plain names) :
    table.currentScope = pathOf names := by
  rw [SymbolTable.currentScope, entered.openScopes, headD_openPaths]
  clear entered
  induction names using List.reverseRecOn with
  | nil => rfl
  | append_singleton names name ih =>
    rw [List.foldl_append, ih plain.split.1, pathOf_concat plain.split.1]
    rfl

section Search

variable {α : Type} {find : String → Option α} {registers chosen : String → α → Prop}

/-- What is chosen in the innermost of the namespaces that register anything. -/
structure Innermost (names : List String) (registers chosen : String → α → Prop)
    (outer : List String) (found : α) : Prop where
  around : outer <+: names
  here : chosen (pathOf outer) found
  nearest : ∀ longer, longer <+: names → outer.length < longer.length →
    ∀ other, ¬registers (pathOf longer) other

/-- A search from the innermost namespace outwards. -/
theorem findSome?_inits (some : ∀ path found, find path = some found ↔ chosen path found)
    (none : ∀ path, find path = none ↔ ∀ other, ¬registers path other) {found : α} :
    (names.inits.reverse.map pathOf).findSome? find = .some found ↔
      ∃ outer, Innermost names registers chosen outer found := by
  induction names using List.reverseRecOn with
  | nil =>
    constructor
    · intro here
      refine ⟨[], List.prefix_rfl, (some _ _).1 (by simpa using here), fun longer around more => ?_⟩
      rw [List.prefix_nil.1 around] at more
      exact absurd more (Nat.lt_irrefl _)
    · rintro ⟨outer, around, here, -⟩
      rw [List.prefix_nil.1 around, ← some] at here
      simpa using here
  | append_singleton names name ih =>
    have inits : (names ++ [name]).inits = names.inits ++ [names ++ [name]] := by
      simp [List.inits_append]
    rw [inits, List.reverse_concat, List.map_cons, List.findSome?_cons]
    cases here : find (pathOf (names ++ [name])) with
    | some other =>
      constructor
      · rintro ⟨⟩
        refine ⟨names ++ [name], List.prefix_rfl, (some _ _).1 here, fun longer around more => ?_⟩
        exact absurd around.length_le (Nat.not_le.2 more)
      · rintro ⟨outer, around, there, nearest⟩
        rcases List.prefix_concat_iff.1 around with rfl | inside
        · exact here.symm.trans ((some _ _).2 there)
        · have less := inside.length_le
          have none := (none _).2 (nearest _ List.prefix_rfl (by simp; omega))
          cases here.symm.trans none
    | none =>
      rw [ih]
      constructor
      · rintro ⟨outer, around, there, nearest⟩
        refine ⟨outer, around.trans (List.prefix_append _ _), there, fun longer inside more => ?_⟩
        rcases List.prefix_concat_iff.1 inside with rfl | inside
        · exact (none _).1 here
        · exact nearest longer inside more
      · rintro ⟨outer, around, there, nearest⟩
        rcases List.prefix_concat_iff.1 around with rfl | inside
        · cases here.symm.trans ((some _ _).2 there)
        · exact ⟨outer, inside, there, fun longer around =>
            nearest longer (around.trans (List.prefix_append _ _))⟩

theorem findSome?_inits_eq_none (none : ∀ path, find path = none ↔ ∀ other, ¬registers path other) :
    (names.inits.reverse.map pathOf).findSome? find = .none ↔
      ∀ outer, outer <+: names → ∀ other, ¬registers (pathOf outer) other := by
  simp [List.findSome?_eq_none_iff, none]

/-- A search by name that obeys lexical scoping inside these namespaces. -/
structure Lexical (names : List String) (search : String → Option α)
    (registers chosen : QualifiedName → α → Prop) : Prop where
  simple : ∀ name, ¬[':', ':'] <:+: name.toList → ∀ found, search name = some found ↔
    ∃ outer, Innermost names (registers ⟨·, name⟩) (chosen ⟨·, name⟩) outer found
  absent : ∀ name, ¬[':', ':'] <:+: name.toList → (search name = none ↔
    ∀ outer, outer <+: names → ∀ other, ¬registers ⟨pathOf outer, name⟩ other)
  /-- A name with a double colon is cut at the last one, and tried in that namespace only. -/
  qualified : ∀ text, [':', ':'] <:+: text.toList → ∃ name : QualifiedName,
    (text = name.scope ++ "::" ++ name.name ∧ ¬[':', ':'] <:+: ':' :: name.name.toList) ∧
      (∀ found, search text = some found ↔ chosen name found) ∧
      (search text = none ↔ ∀ other, ¬registers name other)

theorem lexical_candidates {look : QualifiedName → Option α}
    {registers chosen : QualifiedName → α → Prop} (plain : Plain names)
    (some : ∀ name found, look name = some found ↔ chosen name found)
    (none : ∀ name, look name = none ↔ ∀ other, ¬registers name other) :
    Lexical names (fun name => (candidates name (pathOf names)).findSome? look)
      registers chosen := by
  have scopes (name : String) (simple : ¬[':', ':'] <:+: name.toList) :
      (candidates name (pathOf names)).findSome? look =
        (names.inits.reverse.map pathOf).findSome? (look ⟨·, name⟩) := by
    rw [candidates, QualifiedName.ofText?_eq_none_iff.2 simple]
    simp only [scopeChain_pathOf plain, List.findSome?_map]
    rfl
  refine ⟨fun name simple found => ?_, fun name simple => ?_, fun text double => ?_⟩
  · rw [scopes name simple]
    exact findSome?_inits (fun path => some ⟨path, name⟩) (fun path => none ⟨path, name⟩)
  · rw [scopes name simple]
    exact findSome?_inits_eq_none fun path => none ⟨path, name⟩
  · cases cut : QualifiedName.ofText? text with
    | none => exact absurd double (QualifiedName.ofText?_eq_none_iff.1 cut)
    | some name =>
      have only : (candidates text (pathOf names)).findSome? look = look name := by
        simp [candidates, cut]
      rw [only]
      exact ⟨name, QualifiedName.ofText?_eq_some cut, some name, none name⟩

end Search

/-- A definition of a type and name, and of an allowed kind, is registered. -/
structure Registers (table : SymbolTable) (type : DefinitionType) (kind : Option DefinitionKind)
    (name : QualifiedName) (key : DefinitionKey) : Prop where
  ofName : key.name = name
  ofType : key.type = type
  allowed : ∀ k ∈ kind, key.kind = k
  known : table.definitions.contains key

/-- A registered definition that is custom if any such is. -/
structure Prefers (table : SymbolTable) (type : DefinitionType) (kind : Option DefinitionKind)
    (name : QualifiedName) (key : DefinitionKey) : Prop extends
    Registers table type kind name key where
  custom : ∀ other, Registers table type kind name other → other.kind = .custom →
    key.kind = .custom

variable {type : DefinitionType} {kind : Option DefinitionKind} {name : QualifiedName}
  {key : DefinitionKey}

/-- The definition that is found under a qualified name. -/
def keyUnder (table : SymbolTable) (type : DefinitionType) (kind : Option DefinitionKind)
    (name : QualifiedName) : Option DefinitionKey :=
  ((allowedKinds kind).map fun kind => (⟨kind, type, name⟩ : DefinitionKey)).find?
    table.definitions.contains

theorem registers_iff : table.Registers type kind name key ↔
    key ∈ (allowedKinds kind).map (fun kind => (⟨kind, type, name⟩ : DefinitionKey)) ∧
      table.definitions.contains key := by
  obtain ⟨k, t, n⟩ := key
  constructor
  · rintro ⟨rfl, rfl, allowed, known⟩
    refine ⟨List.mem_map.2 ⟨k, ?_, rfl⟩, known⟩
    cases kind with
    | none => cases k <;> simp [allowedKinds]
    | some kind => simp [allowedKinds, ← allowed kind rfl]
  · rintro ⟨tried, known⟩
    obtain ⟨k', allowed, same⟩ := List.mem_map.1 tried
    cases same
    refine ⟨rfl, rfl, ?_, known⟩
    rintro k rfl
    exact List.mem_singleton.1 allowed

theorem keyUnder_eq_none : table.keyUnder type kind name = none ↔
    ∀ key, ¬table.Registers type kind name key := by
  simp only [keyUnder, List.find?_eq_none, registers_iff, not_and]

theorem Prefers.eq {other : DefinitionKey} (this : table.Prefers type kind name key)
    (that : table.Prefers type kind name other) : key = other := by
  have kinds : key.kind = .custom ↔ other.kind = .custom :=
    ⟨that.custom key this.toRegisters, this.custom other that.toRegisters⟩
  have names := this.ofName.trans that.ofName.symm
  have types := this.ofType.trans that.ofType.symm
  obtain ⟨k, t, n⟩ := key
  obtain ⟨k', t', n'⟩ := other
  cases names
  cases types
  cases k <;> cases k' <;> simp at kinds ⊢

theorem prefers_of_keyUnder (found : table.keyUnder type kind name = some key) :
    table.Prefers type kind name key := by
  have registers : table.Registers type kind name key :=
    registers_iff.2 ⟨List.mem_of_find?_eq_some found, List.find?_some found⟩
  refine ⟨registers, fun other known custom => ?_⟩
  cases kind with
  | some kind => exact (registers.allowed kind rfl).trans ((known.allowed kind rfl).symm.trans custom)
  | none =>
    -- The custom one is the first that is tried.
    obtain ⟨k, t, n⟩ := other
    obtain ⟨rfl, rfl, -, known⟩ := known
    cases custom
    simp only [keyUnder, allowedKinds, List.map_cons, List.find?_cons, known] at found
    cases found
    rfl

theorem keyUnder_eq_some : table.keyUnder type kind name = some key ↔
    table.Prefers type kind name key := by
  refine ⟨prefers_of_keyUnder, fun prefers => ?_⟩
  cases found : table.keyUnder type kind name with
  | none => exact absurd prefers.toRegisters (keyUnder_eq_none.1 found key)
  | some other => rw [(prefers_of_keyUnder found).eq prefers]

/-- A foreign text of a type is registered under a name. -/
def RegistersOrigin (table : SymbolTable) (type : OriginType) (name : QualifiedName)
    (found : QualifiedName × String) : Prop :=
  found.1 = name ∧ table.origins.get? (type, name) = some found.2

/-- From inside namespaces a name stands for what the innermost of them registers, of definitions
and of foreign texts alike. -/
theorem lookup_lexical (entered : Entered names table) (plain : Plain names) :
    (∀ type kind, Lexical names (fun name => table.lookupKey name type kind table.currentScope)
      (table.Registers type kind) (table.Prefers type kind)) ∧
    (∀ type, Lexical names (fun name => table.origin? type name table.currentScope)
      (table.RegistersOrigin type) (table.RegistersOrigin type)) ∧
    (∀ definition, (table.register definition).1 = false →
      (table.register definition).2 = table) ∧
    ∀ type name content, (table.registerOrigin type name content).1 = false →
      (table.registerOrigin type name content).2 = table := by
  rw [entered.currentScope plain]
  refine ⟨fun type kind => ?_, fun type => ?_, fun definition => ?_, fun type name content => ?_⟩
  · exact lexical_candidates plain (fun _ _ => keyUnder_eq_some) fun _ => keyUnder_eq_none
  · refine lexical_candidates plain (fun name found => ?_) fun name => ?_
    · obtain ⟨under, content⟩ := found
      cases text : table.origins.get? (type, name) <;> simp [RegistersOrigin, text, eq_comm]
    · cases text : table.origins.get? (type, name) <;> simp [RegistersOrigin, text]
  · unfold register
    split <;> simp
  · unfold registerOrigin
    split <;> simp

/-- A custom definition that is global. -/
def globalBox : SymbolTable :=
  (({} : SymbolTable).register { key := ⟨.custom, .element, ⟨"", "Box"⟩⟩ }).2

/-- Inside `a.b`, when `a` has a template of the same name. -/
def nestedBox : SymbolTable :=
  let inner := (globalBox.enterNamespace "a").2
  ((inner.register { key := ⟨.template, .element, ⟨"a", "Box"⟩⟩ }).2.enterNamespace "b").2

theorem Entered.register (entered : Entered names table) (definition : Definition) :
    Entered names (table.register definition).2 :=
  .other entered (by unfold SymbolTable.register; split <;> rfl)

theorem entered_nestedBox : Entered ["a", "b"] nestedBox := by
  have top : Entered [] globalBox := .top rfl
  exact ((top.enter "a").register _).enter "b"

/-- The template is nearer. -/
theorem lookup_lexical_box : ∃ outer, Innermost ["a", "b"]
    (fun path => nestedBox.Registers .element none ⟨path, "Box"⟩)
    (fun path => nestedBox.Prefers .element none ⟨path, "Box"⟩) outer
    ⟨.template, .element, ⟨"a", "Box"⟩⟩ :=
  (((lookup_lexical entered_nestedBox (by unfold Plain; decide)).1 .element none).simple "Box"
    (by decide) _).1 (by decide +kernel)

end SymbolTable

end TemplateMarkup
