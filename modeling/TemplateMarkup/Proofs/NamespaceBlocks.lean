import Mathlib.Logic.Relation
import TemplateMarkup.Proofs.DefinedNames

/-! Namespaces that are opened and closed. A namespace without braces stays open behind the item in
which it stands, and the next closing brace of a namespace closes it instead of the one that the
brace belongs to. -/
namespace TemplateMarkup

theorem SymbolTable.openScopes_enterNamespace (table : SymbolTable) (name : String) :
    (table.enterNamespace name).2.openScopes =
      Namespaces.join table.currentScope name :: table.openScopes := by
  have path : (table.namespaces.declare table.currentScope name).1 =
      Namespaces.join table.currentScope name := by
    unfold Namespaces.declare
    dsimp only
    split <;> rfl
  simp only [enterNamespace, path]

namespace Parse

open Relation

variable {input : ParseInput} {s t s' : ParseState} {levels : Nat} {parent id : NodeId}

section Heads

/-- A namespace stands at the cursor. -/
structure NamespaceAt (input : ParseInput) (s : ParseState) : Prop where
  keyword : (input.token s.cursor).kind = .block .scope
  name : (input.token (s.cursor + 1)).isName

/-- A namespace with braces. -/
structure BracedAt (input : ParseInput) (s : ParseState) : Prop extends NamespaceAt input s where
  brace : (input.token (s.cursor + 2)).kind = .leftBrace

/-- A namespace without braces. -/
structure BareAt (input : ParseInput) (s : ParseState) : Prop extends NamespaceAt input s where
  noBrace : (input.token (s.cursor + 2)).kind ≠ .leftBrace

/-- The path of the namespace at the cursor. -/
def pathAt (input : ParseInput) (s : ParseState) : String :=
  Namespaces.join s.document.symbols.currentScope (input.token (s.cursor + 1)).text

/-- A namespace up to its name. -/
def namespaceHead (parent : NodeId) : Parse NodeId := do
  let keyword ← advance
  let name ← expectName "a namespace name"
  match ← withSymbols (·.enterNamespace name.text) with
  | .conflict existing => warn (.namespaceConflict name.text existing) name.span
  | _ => pure ()
  addNode (some parent)
    { kind := .scope, name := name.text, scope := ← currentScope, span := keyword.span }

theorem namespaceBlock_eq (body : NodeId → Parse Unit) (parent : NodeId) :
    namespaceBlock body parent = (do
      let id ← namespaceHead parent
      if ← eat .leftBrace then closing (deeper (body id))
      else
        let _ ← eat .semicolon) := by
  unfold namespaceBlock namespaceHead
  simp only [bind_assoc]
  refine bind_congr fun keyword => bind_congr fun name => bind_congr fun event => ?_
  cases event <;> simp only [bind_assoc]

@[simp] theorem scopesOf_advanced : scopesOf (advanced input s) = scopesOf s :=
  (Settled.both input s).1

/-- The name is taken, and its namespace is the innermost from then on. -/
theorem namespaceHead_apply (parent : NodeId) (head : NamespaceAt input s) :
    ∃ id s', namespaceHead parent input s = .ok id s' ∧
      scopesOf s' = pathAt input s :: scopesOf s ∧
      input.token s'.cursor = input.token (s.cursor + 2) := by
  have name : input.token (advanced input s).cursor = input.token (s.cursor + 1) :=
    token_advanced 0
  have behind : input.token (advanced input (advanced input s)).cursor =
      input.token (s.cursor + 2) := (token_advanced 0).trans (token_advanced 1)
  have opened := SymbolTable.openScopes_enterNamespace
    (advanced input (advanced input s)).document.symbols (input.token (s.cursor + 1)).text
  unfold namespaceHead
  rw [advance_bind]
  rw [bind_ok (expectName_apply _ (name ▸ head.name)), name]
  rw [bind_ok (withSymbols_apply ..)]
  simp only [document_advanced] at opened ⊢
  generalize (s.document.symbols.enterNamespace (input.token (s.cursor + 1)).text).1 = event
  cases event <;> exact ⟨_, _, rfl, opened, behind⟩

/-- Without a name the namespace is not opened. -/
theorem scopesOf_namespaceHead (parent : NodeId) (noName : ¬(input.token (s.cursor + 1)).isName) :
    ∃ e s', namespaceHead parent input s = .error e s' ∧ scopesOf s' = scopesOf s := by
  have name : input.token (advanced input s).cursor = input.token (s.cursor + 1) :=
    token_advanced 0
  obtain ⟨e, failed⟩ := unexpected_apply (α := Token) input (advanced input s) "a namespace name"
  unfold namespaceHead
  rw [advance_bind]
  unfold expectName
  rw [bind_apply, bind_apply, peek_apply]
  dsimp only
  rw [if_neg (name ▸ noName), failed]
  exact ⟨e, _, rfl, scopesOf_advanced⟩

end Heads

section Items

/-- Where reading an item starts: the levels that are left, the node around the item and the
state. -/
structure ItemStart where
  levels : Nat
  parent : NodeId
  state : ParseState

/-- The items of a namespace are read up to a closing brace or the end of the source. -/
def Ends (input : ParseInput) (s : ParseState) : Prop :=
  (input.token s.cursor).kind = .rightBrace ∨ (input.token s.cursor).kind = .eof

instance : Decidable (Ends input s) := inferInstanceAs (Decidable (_ ∨ _))

/-- An item of a namespace has been read, and the next one is looked for. -/
structure NextItem (input : ParseInput) (levels : Nat) (id : NodeId) (s s' : ParseState) :
    Prop where
  there : ¬Ends input s
  run : item levels id input s = .ok () s'
  more : s.cursor < s'.cursor ∧ s.cursor < input.tokens.size

/-- An item is read right inside a namespace with braces, one level deeper. -/
inductive Reads (input : ParseInput) : ItemStart → ItemStart → Prop
  | inside {levels : Nat} {parent id : NodeId} {s s' t : ParseState} (braced : BracedAt input s)
      (head : namespaceHead parent input { s with seenContent := true } = .ok id s')
      (room : (advanced input s').depth < input.maxDepth)
      (reach : ReflTransGen (NextItem input levels id)
        { advanced input s' with depth := (advanced input s').depth + 1 } t)
      (there : ¬Ends input t) :
      Reads input ⟨levels + 1, parent, s⟩ ⟨levels, id, t⟩

/-- A namespace without braces is read as the item or somewhere inside it. -/
def ReadsBare (input : ParseInput) (start : ItemStart) : Prop :=
  ∃ inner, ReflTransGen (Reads input) start inner ∧ BareAt input inner.state

/-- What reads the items of a namespace. -/
def bodyAt : Nat → NodeId → Parse Unit
  | 0 => fun _ => outOfLevels
  | levels + 1 => namespaceBody (item levels)

theorem item_eq (levels : Nat) (parent : NodeId) :
    item levels parent = (do
      match ← peekKind with
      | .keyword .useClause => useStatement parent
      | .comment .generator => commentChild parent
      | .semicolon =>
        let _ ← advance
      | _ =>
        modify fun s => { s with seenContent := true }
        contentItem levels (bodyAt levels) parent) := by
  cases levels <;> (unfold item; rfl)

theorem item_namespace (levels : Nat) (parent : NodeId)
    (keyword : (input.token s.cursor).kind = .block .scope) :
    item levels parent input s =
      namespaceBlock (bodyAt levels) parent input { s with seenContent := true } := by
  rw [item_eq, bind_ok (peekKind_apply ..)]
  rw [keyword]
  dsimp only
  rw [bind_apply]
  change contentItem levels (bodyAt levels) parent input { s with seenContent := true } = _
  unfold contentItem
  rw [peek_bind]
  rw [bind_ok (nextIs_apply ..)]
  rw [keyword]

theorem scopesOf_otherItem (levels : Nat) (parent : NodeId)
    (other : (input.token s.cursor).kind ≠ .block .scope) :
    scopesOf (stateOf (item levels parent input s)) = scopesOf s := by
  rw [item_eq, bind_ok (peekKind_apply ..)]
  generalize same : (input.token s.cursor).kind = kind at other
  split
  case h_1 | h_2 | h_3 => exact (Settled.both input s).1
  · rw [bind_apply]
    change scopesOf (stateOf
      (contentItem levels (bodyAt levels) parent input { s with seenContent := true })) = _
    unfold contentItem
    rw [peek_bind]
    rw [bind_ok (nextIs_apply ..)]
    rw [same]
    split
    case h_1 | h_2 => exact (definitionBlock_registers levels parent).1
    case h_5 => contradiction
    all_goals exact (Settled.both input _).1

/-- What follows a parse and leaves the namespaces as they are does not count. -/
theorem scopesOf_bind {α β : Type} (x : Parse α) (f : α → Parse β) [rest : ∀ a, Settled (f a)] :
    scopesOf (stateOf ((x >>= f) input s)) = scopesOf (stateOf (x input s)) := by
  rw [bind_apply]
  cases run : x input s with
  | error e s' => rfl
  | ok a s' => exact ((rest a).both input s').1

theorem scopesOf_closing (body : Parse Unit) :
    scopesOf (stateOf (closing body input s)) = (scopesOf (stateOf (body input s))).tail := by
  unfold closing
  cases body input s <;> rfl

theorem scopesOf_deeper (body : Parse Unit) :
    scopesOf (stateOf (deeper body input s)) = if input.maxDepth ≤ s.depth then scopesOf s
      else scopesOf (stateOf (body input { s with depth := s.depth + 1 })) := by
  rcases deeper_cases input s body with ⟨full, run⟩ | ⟨room, ⟨_, _, ran, run⟩ | ⟨_, _, ran, run⟩⟩
  · rw [run, if_pos full]
    rfl
  all_goals
    rw [run, ran, if_neg (by omega)]
    rfl

/-- The items of a namespace are read one after the other, as long as each of them ends well. -/
theorem repeatStep_apply (levels : Nat) (id : NodeId) :
    repeatStep (bodyStep (item levels id)) input s =
      if Ends input s then .ok () s
      else match item levels id input s with
        | .error e s' => .error e s'
        | .ok _ s' =>
          if s.cursor < s'.cursor ∧ s.cursor < input.tokens.size then
            repeatStep (bodyStep (item levels id)) input s'
          else .ok () (stall s') := by
  rw [repeatStep_eq, bodyStep_apply]
  by_cases ends : (input.token s.cursor).kind = .rightBrace ∨ (input.token s.cursor).kind = .eof
  · rw [if_pos ends, if_pos (show Ends input s from ends)]
  · rw [if_neg ends, if_neg (show ¬Ends input s from ends)]
    cases item levels id input s <;> rfl

/-- What reading the item at a start does to the open namespaces: those that are open before it
stay, and there are more exactly if a namespace without braces is read. -/
def Opens (input : ParseInput) (start : ItemStart) : Prop :=
  ∃ left, scopesOf (stateOf (item start.levels start.parent input start.state)) =
      left ++ scopesOf start.state ∧
    (left = [] ↔ ¬ReadsBare input start)

/-- A namespace without braces is read among the items of a namespace from a state on. -/
def BareAhead (input : ParseInput) (levels : Nat) (id : NodeId) (s : ParseState) : Prop :=
  ∃ t, ReflTransGen (NextItem input levels id) s t ∧ ¬Ends input t ∧
    ReadsBare input ⟨levels, id, t⟩

theorem not_bareAhead_of_ends (ends : Ends input s) : ¬BareAhead input levels id s := by
  rintro ⟨t, reach, there, -⟩
  obtain rfl | ⟨s', next, -⟩ := reach.cases_head
  · exact there ends
  · exact next.there ends

theorem bareAhead_iff (there : ¬Ends input s) :
    BareAhead input levels id s ↔
      ReadsBare input ⟨levels, id, s⟩ ∨
        ∃ s', NextItem input levels id s s' ∧ BareAhead input levels id s' := by
  constructor
  · rintro ⟨t, reach, stands, bare⟩
    obtain rfl | ⟨s', next, rest⟩ := reach.cases_head
    · exact .inl bare
    · exact .inr ⟨s', next, t, rest, stands, bare⟩
  · rintro (bare | ⟨s', next, t, reach, stands, bare⟩)
    · exact ⟨s, .refl, there, bare⟩
    · exact ⟨t, reach.head next, stands, bare⟩

/-- What the items of a namespace from a state on do to the open namespaces. -/
theorem opens_repeatStep (each : ∀ t, Opens input ⟨levels, id, t⟩) :
    ∃ left, scopesOf (stateOf (repeatStep (bodyStep (item levels id)) input s)) =
        left ++ scopesOf s ∧
      (left = [] ↔ ¬BareAhead input levels id s) := by
  induction rounds : input.tokens.size - s.cursor using Nat.strongRecOn generalizing s with
  | _ rounds ih =>
  rw [repeatStep_apply]
  by_cases ends : Ends input s
  · rw [if_pos ends]
    exact ⟨[], rfl, by simp [not_bareAhead_of_ends ends]⟩
  · rw [if_neg ends, bareAhead_iff ends]
    obtain ⟨first, opened, bare⟩ := each s
    dsimp only at opened
    -- where no further item is looked for, the item at `s` is the last one
    have last (stops : ∀ s', ¬NextItem input levels id s s') :
        (first = [] ↔ ¬(ReadsBare input ⟨levels, id, s⟩ ∨
          ∃ s', NextItem input levels id s s' ∧ BareAhead input levels id s')) := by
      simp [bare, stops]
    cases run : item levels id input s with
    | error e s' =>
      rw [run] at opened
      exact ⟨first, opened, last fun _ next => by cases run.symm.trans next.run⟩
    | ok _ s' =>
      rw [run] at opened
      dsimp only [stateOf] at opened
      dsimp only
      by_cases more : s.cursor < s'.cursor ∧ s.cursor < input.tokens.size
      · rw [if_pos more]
        obtain ⟨later, opened', bare'⟩ := ih _ (by omega) rfl (s := s')
        have next (t : ParseState) : NextItem input levels id s t ↔ t = s' := by
          constructor
          · intro next
            cases run.symm.trans next.run
            rfl
          · rintro rfl
            exact ⟨ends, run, more⟩
        refine ⟨later ++ first, by rw [opened', opened, List.append_assoc], ?_⟩
        simp [bare, bare', next, and_comm]
      · rw [if_neg more]
        refine ⟨first, opened, last fun t next => more ?_⟩
        cases run.symm.trans next.run
        exact next.more

theorem opens_namespaceBody (each : ∀ t, Opens input ⟨levels, id, t⟩) :
    ∃ left, scopesOf (stateOf (namespaceBody (item levels) id input s)) = left ++ scopesOf s ∧
      (left = [] ↔ ¬BareAhead input levels id s) := by
  have body : scopesOf (stateOf (namespaceBody (item levels) id input s)) =
      scopesOf (stateOf (repeatStep (bodyStep (item levels id)) input s)) := scopesOf_bind _ _
  rw [body]
  exact opens_repeatStep each

/-- The item is itself a namespace without braces, or one is read right inside it. -/
theorem readsBare_iff (start : ItemStart) :
    ReadsBare input start ↔
      BareAt input start.state ∨ ∃ inner, Reads input start inner ∧ ReadsBare input inner := by
  constructor
  · rintro ⟨inner, reach, bare⟩
    obtain rfl | ⟨next, reads, rest⟩ := reach.cases_head
    · exact .inl bare
    · exact .inr ⟨next, reads, inner, rest, bare⟩
  · rintro (bare | ⟨next, reads, inner, rest, bare⟩)
    · exact ⟨start, .refl, bare⟩
    · exact ⟨inner, rest.head reads, bare⟩

theorem pathAt_seenContent :
    pathAt input { s with seenContent := true } = pathAt input s := rfl

theorem item_braced (levels : Nat) (parent : NodeId) (braced : BracedAt input s) :
    ∃ id s', namespaceHead parent input { s with seenContent := true } = .ok id s' ∧
      scopesOf s' = pathAt input s :: scopesOf s ∧
      item levels parent input s =
        closing (deeper (bodyAt levels id)) input (advanced input s') := by
  obtain ⟨id, s', head, opened, behind⟩ :=
    namespaceHead_apply (s := { s with seenContent := true }) parent ⟨braced.keyword, braced.name⟩
  refine ⟨id, s', head, opened, ?_⟩
  have brace : eat .leftBrace input s' = .ok true (advanced input s') :=
    eat_taken (behind ▸ braced.brace)
  rw [item_namespace levels parent braced.keyword, namespaceBlock_eq, bind_ok head]
  rw [bind_apply, brace]
  rfl

theorem scopesOf_bare (levels : Nat) (parent : NodeId) (bare : BareAt input s) :
    scopesOf (stateOf (item levels parent input s)) = pathAt input s :: scopesOf s := by
  obtain ⟨id, s', head, opened, behind⟩ :=
    namespaceHead_apply (s := { s with seenContent := true }) parent ⟨bare.keyword, bare.name⟩
  have noBrace : eat .leftBrace input s' = .ok false s' := eat_left (behind ▸ bare.noBrace)
  rw [item_namespace levels parent bare.keyword, namespaceBlock_eq, bind_ok head]
  rw [bind_apply, noBrace, ← pathAt_seenContent]
  exact (Settled.both (x := do let _ ← eat .semicolon) input s').1.trans opened

theorem scopesOf_unnamed (levels : Nat) (parent : NodeId)
    (keyword : (input.token s.cursor).kind = .block .scope)
    (noName : ¬(input.token (s.cursor + 1)).isName) :
    scopesOf (stateOf (item levels parent input s)) = scopesOf s := by
  obtain ⟨e, s', failed, same⟩ :=
    scopesOf_namespaceHead (s := { s with seenContent := true }) parent noName
  rw [item_namespace levels parent keyword, namespaceBlock_eq, bind_apply, failed]
  exact same

/-- The innermost of the namespaces that are open behind the items of a namespace is closed. That
is another one than theirs if a namespace without braces is among them. -/
theorem opens_braced (parent : NodeId) (braced : BracedAt input s)
    (each : ∀ inner id t, levels = inner + 1 → Opens input ⟨inner, id, t⟩) :
    ∃ left, scopesOf (stateOf (item levels parent input s)) =
        (left ++ pathAt input s :: scopesOf s).tail ∧
      (left = [] ↔
        ¬∃ inner, Reads input ⟨levels, parent, s⟩ inner ∧ ReadsBare input inner) := by
  obtain ⟨id, s', head, opened, run⟩ := item_braced levels parent braced
  rw [run, scopesOf_closing, ← opened, scopesOf_deeper]
  by_cases full : input.maxDepth ≤ (advanced input s').depth
  · rw [if_pos full]
    refine ⟨[], congrArg List.tail scopesOf_advanced, ?_⟩
    simp only [true_iff]
    rintro ⟨inner, ⟨_, head', room, _⟩, -⟩
    cases head.symm.trans head'
    omega
  rw [if_neg full]
  cases levels with
  | zero =>
    have same : scopesOf (stateOf (bodyAt 0 id input
        { advanced input s' with depth := (advanced input s').depth + 1 })) = scopesOf s' :=
      (Settled.both (x := outOfLevels) input _).1.trans scopesOf_advanced
    refine ⟨[], congrArg List.tail same, ?_⟩
    simp only [true_iff]
    rintro ⟨inner, ⟨⟩, -⟩
  | succ levels =>
    obtain ⟨left, after, bare⟩ := opens_namespaceBody
      (s := { advanced input s' with depth := (advanced input s').depth + 1 })
      fun t => each levels id t rfl
    have same : scopesOf { advanced input s' with depth := (advanced input s').depth + 1 } =
      scopesOf s' := scopesOf_advanced
    rw [same] at after
    refine ⟨left, congrArg List.tail after, bare.trans (not_congr ?_)⟩
    constructor
    · rintro ⟨t, reach, there, bare⟩
      exact ⟨_, .inside braced head (by omega) reach there, bare⟩
    · rintro ⟨inner, reads, bare⟩
      cases reads with
      | inside _ head' _ reach there =>
        cases head.symm.trans head'
        exact ⟨_, reach, there, bare⟩

theorem opens_of_not_namespace (other : ¬NamespaceAt input s) (levels : Nat) (parent : NodeId) :
    Opens input ⟨levels, parent, s⟩ := by
  have none : ¬ReadsBare input ⟨levels, parent, s⟩ := by
    rw [readsBare_iff]
    rintro (bare | ⟨inner, ⟨braced, -⟩, -⟩)
    · exact other bare.toNamespaceAt
    · exact other braced.toNamespaceAt
  refine ⟨[], ?_, by simp [none]⟩
  by_cases keyword : (input.token s.cursor).kind = .block .scope
  · exact scopesOf_unnamed levels parent keyword fun name => other ⟨keyword, name⟩
  · exact scopesOf_otherItem levels parent keyword

theorem opens_item (levels : Nat) (parent : NodeId) (s : ParseState) :
    Opens input ⟨levels, parent, s⟩ := by
  induction levels using Nat.strongRecOn generalizing parent s with
  | _ levels ih =>
  by_cases stands : NamespaceAt input s
  · by_cases brace : (input.token (s.cursor + 2)).kind = .leftBrace
    · obtain ⟨left, after, bare⟩ := opens_braced parent ⟨stands, brace⟩
        fun inner id t (below : levels = inner + 1) => ih inner (by omega) id t
      have none : ReadsBare input ⟨levels, parent, s⟩ ↔
          ∃ inner, Reads input ⟨levels, parent, s⟩ inner ∧ ReadsBare input inner := by
        rw [readsBare_iff]
        exact or_iff_right fun bare => bare.noBrace brace
      cases left with
      | nil => exact ⟨[], after, by simpa [none] using bare⟩
      | cons path left =>
        refine ⟨left ++ [pathAt input s], by simpa using after, ?_⟩
        rw [none, ← bare]
        simp
    · have bare : BareAt input s := ⟨stands, brace⟩
      refine ⟨[pathAt input s], scopesOf_bare levels parent bare, ?_⟩
      simp [readsBare_iff ⟨levels, parent, s⟩, bare]
  · exact opens_of_not_namespace stands levels parent

/-- A namespace with braces leaves the open namespaces as they were before it exactly if no
namespace without braces is read inside it, whether its items end well or not. Else its own path
stays open, with others inside it. -/
theorem scopesOf_braced_eq_iff (input : ParseInput) (s : ParseState) (levels : Nat)
    (parent : NodeId) (braced : BracedAt input s) :
    let after := scopesOf (stateOf (item levels parent input s))
    (after = scopesOf s ↔
      ¬∃ inner, TransGen (Reads input) ⟨levels, parent, s⟩ inner ∧ BareAt input inner.state) ∧
    (after ≠ scopesOf s → ∃ left, after = left ++ pathAt input s :: scopesOf s) := by
  have inside : (∃ inner, TransGen (Reads input) ⟨levels, parent, s⟩ inner ∧
        BareAt input inner.state) ↔
      ∃ inner, Reads input ⟨levels, parent, s⟩ inner ∧ ReadsBare input inner := by
    constructor
    · rintro ⟨inner, reach, bare⟩
      obtain ⟨next, reads, rest⟩ := TransGen.head'_iff.1 reach
      exact ⟨next, reads, inner, rest, bare⟩
    · rintro ⟨next, reads, inner, rest, bare⟩
      exact ⟨inner, TransGen.head'_iff.2 ⟨next, reads, rest⟩, bare⟩
  obtain ⟨left, after, bare⟩ := opens_braced parent braced
    fun inner id t (_ : levels = inner + 1) => opens_item inner id t
  intro behind
  rw [inside, ← bare, show behind = _ from after]
  cases left with
  | nil => simp
  | cons path left =>
    have longer : left ++ pathAt input s :: scopesOf s ≠ scopesOf s := fun same => by
      have lengths := congrArg List.length same
      simp at lengths
      omega
    simpa using longer

theorem scopesOf_braced_outer :
    let source := "[Namespace] outer \x7b [Namespace] inner; \x7d"
    ∃ stream, TokenStream.ofSource source = .ok stream ∧
      let input := ParseInput.ofTokens source stream.tokens {}
      BracedAt input {} ∧ scopesOf (stateOf (item 1 Forest.root input {})) = ["outer"] ∧
        ∃ inner, TransGen (Reads input) ⟨1, Forest.root, {}⟩ inner ∧ BareAt input inner.state := by
  intro source
  have read : (TokenStream.ofSource source).toOption.map (fun stream =>
        let input := ParseInput.ofTokens source stream.tokens {}
        (decide ((input.token 0).kind = .block .scope), (input.token 1).isName,
          decide ((input.token 2).kind = .leftBrace),
          scopesOf (stateOf (item 1 Forest.root input {})))) =
      some (true, true, true, ["outer"]) := by decide +kernel
  cases tokenizes : TokenStream.ofSource source with
  | error e =>
    rw [tokenizes] at read
    cases read
  | ok stream =>
    rw [tokenizes] at read
    have facts := Option.some.inj read
    simp only [Prod.mk.injEq, decide_eq_true_eq] at facts
    obtain ⟨keyword, name, brace, after⟩ := facts
    have braced : BracedAt (ParseInput.ofTokens source stream.tokens {}) {} :=
      ⟨⟨keyword, name⟩, brace⟩
    refine ⟨stream, rfl, braced, after, ?_⟩
    have left := (scopesOf_braced_eq_iff _ {} 1 Forest.root braced).1
    rw [after] at left
    exact Classical.byContradiction fun none => absurd (left.2 none) (by decide)

end Items

end Parse

end TemplateMarkup
