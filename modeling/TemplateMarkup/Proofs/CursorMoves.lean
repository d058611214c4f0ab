import TemplateMarkup.Proofs.NestingDepths
import TemplateMarkup.Proofs.OriginBlocks
import TemplateMarkup.Proofs.ScriptText

/-! How a parse moves: forward, within the tokens, and no deeper than it may. Each production is
shown to stay in a frame, also where it fails. -/
namespace TemplateMarkup

/-- The last token is the end of the source. -/
def ParseInput.Ended (input : ParseInput) : Prop :=
  (input.token (input.tokens.size - 1)).kind = .eof

theorem ParseInput.Ended.lt {input : ParseInput} {i : Nat} (ended : input.Ended)
    (more : (input.token i).kind ≠ .eof) : i + 1 < input.tokens.size := by
  refine Classical.byContradiction fun past => more ?_
  have last : input.token i = input.token (input.tokens.size - 1) := by
    rcases Nat.lt_or_ge i input.tokens.size with inside | outside
    · congr 1
      omega
    · exact token_of_size_le outside
  rw [last]
  exact ended

namespace Parse

/-- How much a parse may nest: `room` more elements and namespaces may stand below `parent`, and
blocks are built for `levels` more. -/
structure Frame where
  room : Nat
  parent : Option NodeId
  levels : Nat

variable {α β : Type} {F : Frame} {input : ParseInput} {s s' s'' : ParseState}

/-- A state is reached by going forward in a frame. As many blocks are open as before, and where
the limit is met before the levels run out nothing is cut short. -/
structure Reaches (F : Frame) (input : ParseInput) (s s' : ParseState) : Prop where
  le : s.cursor ≤ s'.cursor
  lt : s'.cursor < input.tokens.size
  inRange : input.Laid → s'.inRange = s.inRange
  depth : s'.depth = s.depth
  stalled : input.maxDepth ≤ s.depth + F.levels → s'.stalled = s.stalled
  sprouts : ∀ n, s.document.forest.Nesting F.parent n → n + F.room ≤ input.maxDepth →
    s.document.forest.Sprouts input.maxDepth s'.document.forest

theorem Reaches.trans (first : Reaches F input s s') (rest : Reaches F input s' s'') :
    Reaches F input s s'' where
  le := Nat.le_trans first.le rest.le
  lt := rest.lt
  inRange laid := (rest.inRange laid).trans (first.inRange laid)
  depth := rest.depth.trans first.depth
  stalled enough := (rest.stalled (by rwa [first.depth])).trans (first.stalled enough)
  sprouts n nesting fits :=
    (first.sprouts n nesting fits).trans
      (rest.sprouts n ((first.sprouts n nesting fits).depth _ n nesting) fits)

theorem Reaches.of_same (le : s.cursor ≤ s'.cursor) (lt : s'.cursor < input.tokens.size)
    (inRange : input.Laid → s'.inRange = s.inRange)
    (forest : s'.document.forest = s.document.forest) (depth : s'.depth = s.depth)
    (stalled : s'.stalled = s.stalled) : Reaches F input s s' :=
  ⟨le, lt, inRange, depth, fun _ => stalled, fun _ _ _ => forest ▸ .refl _ _⟩

/-- With more room no more is asked, and what hangs below nothing may hang anywhere. -/
theorem Reaches.widen {G : Frame} (reaches : Reaches F input s s') (le : F.room ≤ G.room)
    (below : F.parent = none ∨ F.parent = G.parent) (levels : F.levels = G.levels) :
    Reaches G input s s' where
  le := reaches.le
  lt := reaches.lt
  inRange := reaches.inRange
  depth := reaches.depth
  stalled := levels ▸ reaches.stalled
  sprouts n nesting fits := by
    rcases below with free | same
    · exact reaches.sprouts 0 (free ▸ .top) (by omega)
    · exact reaches.sprouts n (same ▸ nesting) (by omega)

/-- From a state a parse stays in a frame, and where it succeeds something holds. -/
def Goes (F : Frame) (input : ParseInput) (s : ParseState) (x : Parse α)
    (post : α → ParseState → Prop) : Prop :=
  input.Ended → s.cursor < input.tokens.size → Reaches F input s (stateOf (x input s)) ∧
    ∀ a s', x input s = .ok a s' → post a s'

/-- A parse that stays in a frame from wherever it starts. -/
class Moves (F : Frame) (x : Parse α) : Prop where
  reaches : ∀ input s, input.Ended → s.cursor < input.tokens.size →
    Reaches F input s (stateOf (x input s))

/-- A parse that, before a token, takes it if it succeeds with more to do. -/
class Takes (F : Frame) (more : α → Prop) (x : Parse α) : Prop where
  moves : Moves F x
  takes : ∀ input s a s', input.Ended → (input.token s.cursor).kind ≠ .eof →
    x input s = .ok a s' → more a → s.cursor < s'.cursor

/-- A parse that, before a token, takes it if it succeeds. -/
abbrev Eats (F : Frame) (x : Parse α) : Prop := Takes F (fun _ => True) x

/-- A step that, before a token, takes it if another is to follow. -/
abbrev Strides (F : Frame) (x : Parse (Option α)) : Prop := Takes F (fun next => next.isSome) x

/-- A step that takes a token wherever another is to follow, so at the end of the source none is. -/
class Steps (F : Frame) (x : Parse (Option α)) : Prop where
  moves : Moves F x
  forward : ∀ input s a s', input.Ended → s.cursor < input.tokens.size →
    x input s = .ok (some a) s' → s.cursor < s'.cursor

instance (priority := low) moves_of_eats (x : Parse α) [eats : Eats F x] : Moves F x := eats.moves

instance (priority := low) moves_of_strides (x : Parse (Option α)) [strides : Strides F x] :
    Moves F x := strides.moves

theorem Eats.lt {x : Parse α} {a : α} (eats : Eats F x) (ended : input.Ended)
    (token : (input.token s.cursor).kind ≠ .eof) (run : x input s = .ok a s') :
    s.cursor < s'.cursor :=
  eats.takes input s a s' ended token run trivial

section Rules

variable {more : α → Prop}

theorem Moves.run {x : Parse α} [moves : Moves F x] {a : α} (ended : input.Ended)
    (inside : s.cursor < input.tokens.size) (run : x input s = .ok a s') : Reaches F input s s' := by
  have reaches := moves.reaches input s ended inside
  rwa [run] at reaches

theorem Goes.bind {x : Parse α} {f : α → Parse β} {pre : α → ParseState → Prop}
    {post : β → ParseState → Prop} (first : Goes F input s x pre)
    (rest : ∀ a s', x input s = .ok a s' → pre a s' → Reaches F input s s' →
      Goes F input s' (f a) post) : Goes F input s (x >>= f) post := by
  intro ended inside
  obtain ⟨first, holds⟩ := first ended inside
  rw [bind_apply]
  cases run : x input s with
  | error e s' =>
    rw [run] at first
    exact ⟨first, fun _ _ failed => by cases failed⟩
  | ok a s' =>
    rw [run] at first
    obtain ⟨reaches, holds'⟩ := rest a s' run (holds a s' run) first ended first.lt
    exact ⟨first.trans reaches, holds'⟩

theorem Moves.goes {x : Parse α} [moves : Moves F x] : Goes F input s x fun _ _ => True :=
  fun ended inside => ⟨moves.reaches input s ended inside, fun _ _ _ => trivial⟩

theorem Goes.andThen {x : Parse α} {f : α → Parse β} {post : β → ParseState → Prop} [Moves F x]
    (rest : ∀ a s', x input s = .ok a s' → Reaches F input s s' → Goes F input s' (f a) post) :
    Goes F input s (x >>= f) post :=
  Goes.bind Moves.goes fun a s' run _ => rest a s' run

/-- Looking at something moves nothing. -/
theorem Goes.still {x : Parse α} {f : α → Parse β} {post : β → ParseState → Prop} {a : α}
    (run : x input s = .ok a s) (rest : Goes F input s (f a) post) :
    Goes F input s (x >>= f) post := by
  intro ended inside
  rw [bind_apply, run]
  exact rest ended inside

theorem Moves.of_goes {x : Parse α} (goes : ∀ input s, Goes F input s x fun _ _ => True) :
    Moves F x :=
  ⟨fun input s ended inside => (goes input s ended inside).1⟩

instance moves_bind (x : Parse α) (f : α → Parse β) [Moves F x] [∀ a, Moves F (f a)] :
    Moves F (x >>= f) := .of_goes fun _ _ => .andThen fun _ _ _ _ => Moves.goes

/-- What may take a token, and where it does not is followed by what does. -/
theorem Takes.choice (hit : β → Prop) {x : Parse β} {f : β → Parse α} [first : Takes F hit x]
    (taken : ∀ b, hit b → Moves F (f b)) (missed : ∀ b, ¬hit b → Takes F more (f b)) :
    Takes F more (x >>= f) where
  moves := @moves_bind _ _ _ x f first.moves fun b =>
    (Classical.em (hit b)).elim (taken b) fun miss => (missed b miss).moves
  takes input s a s' ended token run hasMore := by
    obtain ⟨b, t, here, there⟩ := bind_eq_ok run
    have moved := first.moves.run ended (Nat.lt_of_succ_lt (ended.lt token)) here
    by_cases hits : hit b
    · exact Nat.lt_of_lt_of_le (first.takes input s b t ended token here hits)
        ((taken b hits).run ended moved.lt there).le
    rcases Nat.lt_or_eq_of_le moved.le with before | same
    · exact Nat.lt_of_lt_of_le before ((missed b hits).moves.run ended moved.lt there).le
    · rw [same] at token ⊢
      exact (missed b hits).takes input t a s' ended token there hasMore

/-- The first of two parses takes a token. -/
instance takes_first (x : Parse β) (f : β → Parse α) [first : Eats F x] [∀ b, Moves F (f b)] :
    Takes F more (x >>= f) :=
  .choice (fun _ => True) (fun _ _ => inferInstance) fun _ miss => absurd trivial miss

/-- The second of two parses takes a token unless the first does. -/
instance takes_second (x : Parse β) (f : β → Parse α) [first : Moves F x]
    [rest : ∀ b, Takes F more (f b)] : Takes F more (x >>= f) :=
  have : Takes F (fun _ => False) x := ⟨first, fun _ _ _ _ _ _ _ no => no.elim⟩
  .choice (fun _ => False) (fun _ no => no.elim) fun b _ => rest b

instance moves_ite (c : Prop) [Decidable c] (x y : Parse α) [hx : Moves F x] [hy : Moves F y] :
    Moves F (if c then x else y) := by
  split
  · exact hx
  · exact hy

instance takes_ite (c : Prop) [Decidable c] (x y : Parse α) [hx : Takes F more x]
    [hy : Takes F more y] : Takes F more (if c then x else y) := by
  split
  · exact hx
  · exact hy

/-- What a step keeps true of what is gathered, a loop keeps true. Its steps take tokens, so it
does not stall. -/
theorem goes_loop {step : α → Parse (Option α)} {holds : α → ParseState → Prop}
    (each : ∀ a s, holds a s → Goes F input s (step a) fun next t =>
      holds (next.getD a) t ∧ (next.isSome → s.cursor < t.cursor))
    {a : α} (start : holds a s) : Goes F input s (loop step a) holds := by
  intro ended inside
  fun_induction loop step a input s
  case case1 acc s e s' run =>
    have first := (each acc s start ended inside).1
    rw [run] at first
    exact ⟨first, fun _ _ failed => by cases failed⟩
  case case3 acc s acc' s' run more ih =>
    obtain ⟨first, held⟩ := each acc s start ended inside
    rw [run] at first
    obtain ⟨rest, held'⟩ := ih (held _ s' run).1 first.lt
    exact ⟨first.trans rest, held'⟩
  case case2 acc s s' run =>
    obtain ⟨first, held⟩ := each acc s start ended inside
    rw [run] at first
    refine ⟨first, fun a t done => ?_⟩
    cases done
    exact (held _ _ run).1
  case case4 acc s acc' s' run stuck =>
    obtain ⟨-, held⟩ := each acc s start ended inside
    exact absurd ⟨(held _ s' run).2 rfl, inside⟩ stuck

instance moves_loop (step : α → Parse (Option α)) [steps : ∀ a, Steps F (step a)] (a : α) :
    Moves F (loop step a) := by
  refine .of_goes fun input s => goes_loop (fun a s _ ended inside =>
    ⟨(steps a).moves.reaches input s ended inside, fun next t run => ⟨trivial, fun more => ?_⟩⟩)
    trivial
  obtain ⟨next, rfl⟩ := Option.isSome_iff_exists.1 more
  exact (steps a).forward input s next t ended inside run

/-- A step that takes tokens and has nothing to add at the end of the source. -/
theorem Steps.of_strides {x : Parse (Option α)} [strides : Strides F x]
    (ends : ∀ input s a s', (input.token s.cursor).kind = .eof → x input s ≠ .ok (some a) s') :
    Steps F x where
  moves := strides.moves
  forward input s a s' ended _ run :=
    strides.takes input s _ s' ended (fun last => ends input s a s' last run) run rfl

/-- A parse that goes on by a case distinction. -/
theorem Moves.andThen {x : Parse α} {f : α → Parse β} [Moves F x] (rest : ∀ a, Moves F (f a)) :
    Moves F (x >>= f) := inferInstance

theorem Takes.andThen {x : Parse β} {f : β → Parse α} [Moves F x]
    (rest : ∀ b, Takes F more (f b)) : Takes F more (x >>= f) := inferInstance

theorem Takes.first {x : Parse β} {f : β → Parse α} [Eats F x] (rest : ∀ b, Moves F (f b)) :
    Takes F more (x >>= f) := inferInstance

end Rules

section Steps

variable {more : α → Prop}

/-- What is looked up where the tokens lie in the source is there. -/
theorem goes_of_lookup {x : Parse α}
    (looks : input.Ended → ∃ a inRange, x input s = .ok a { s with inRange })
    (there : input.Laid → s.cursor < input.tokens.size → ∃ a, x input s = .ok a s) :
    Goes F input s x fun _ t => t.cursor = s.cursor := by
  intro ended inside
  obtain ⟨a, inRange, run⟩ := looks ended
  rw [run]
  refine ⟨.of_same (Nat.le_refl _) inside (fun laid => ?_) rfl rfl rfl, fun _ _ same => ?_⟩
  · obtain ⟨b, same⟩ := there laid inside
    exact congrArg ParseState.inRange (EStateM.Result.ok.inj (run.symm.trans same)).2
  · cases same
    rfl

theorem Looks.goes {x : Parse α} [looks : Looks x]
    (there : input.Laid → s.cursor < input.tokens.size → ∃ a, x input s = .ok a s) :
    Goes F input s x fun _ t => t.cursor = s.cursor :=
  goes_of_lookup (fun _ => looks.looks input s) there

instance (priority := low) moves_of_still (x : Parse α) [still : Still x] : Moves F x :=
  ⟨fun input s ended inside => (Looks.goes (fun _ _ => still.still input s) ended inside).1⟩

instance {more : Token → Prop} : Takes F more advance where
  moves := by
    refine ⟨fun input s ended inside => ?_⟩
    rw [advance_apply, stateOf]
    split
    · exact .of_same (Nat.le_succ _) (by dsimp only; omega) (fun _ => rfl) rfl rfl rfl
    · exact .of_same (Nat.le_refl _) inside (fun _ => rfl) rfl rfl rfl
  takes input s a s' ended token run _ := by
    have inside := ended.lt token
    rw [advance_apply, if_pos (by omega)] at run
    cases run
    exact Nat.lt_succ_self _

/-- A failure takes nothing, and has nothing to take. -/
instance (problem : ParseProblem) (span : Span) : Takes F more (fail problem span) where
  moves := ⟨fun _ _ _ inside => .of_same (Nat.le_refl _) inside (fun _ => rfl) rfl rfl rfl⟩
  takes _ _ _ _ _ _ run := by cases run

instance (what : String) : Takes F more (unexpected what) := by
  unfold unexpected
  infer_instance

instance : Strides F (pure none : Parse (Option α)) :=
  ⟨inferInstance, fun _ _ _ _ _ _ run hasMore => by cases run; cases hasMore⟩

instance (cause : ParseWarningCause) (span : Span) : Moves F (warn cause span) :=
  ⟨fun _ _ _ inside => .of_same (Nat.le_refl _) inside (fun _ => rfl) rfl rfl rfl⟩

instance (f : SymbolTable → SymbolTable) : Moves F (modifySymbols f) :=
  ⟨fun _ _ _ inside => .of_same (Nat.le_refl _) inside (fun _ => rfl) rfl rfl rfl⟩

instance (f : SymbolTable → α × SymbolTable) : Moves F (withSymbols f) :=
  ⟨fun _ _ _ inside => .of_same (Nat.le_refl _) inside (fun _ => rfl) rfl rfl rfl⟩

instance moves_map (f : α → β) (x : Parse α) [Moves F x] : Moves F (f <$> x) :=
  moves_bind x fun a => pure (f a)

instance takes_map (f : β → α) (x : Parse β) [Eats F x] : Takes F more (f <$> x) :=
  takes_first x fun b => pure (f b)

instance : Takes F (fun more => more = true) (pure false : Parse Bool) :=
  ⟨inferInstance, fun _ _ _ _ _ _ run hasMore => by cases run; cases hasMore⟩

instance (step : Parse Bool) [takes : Takes F (fun more => more = true) step] (done : Unit) :
    Strides F (repeated step done) where
  moves := @moves_bind _ _ _ step _ takes.moves fun _ => inferInstance
  takes input s a s' ended token run hasMore := by
    obtain ⟨more, t, here, there⟩ := bind_eq_ok run
    cases more <;> cases there
    · cases hasMore
    · exact takes.takes input s _ _ ended token here rfl

theorem repeated_ne_some {step : Parse Bool} {done next : Unit}
    (stops : step input s = .ok false s) : repeated step done input s ≠ .ok (some next) s' := by
  rw [repeated, bind_ok stops]
  exact fun same => by cases same

instance (item : Parse Unit) [Eats F item] : Takes F (fun more => more = true) (bodyStep item) := by
  unfold bodyStep
  infer_instance

instance (item : Parse Unit) [Eats F item] (done : Unit) :
    Steps F (repeated (bodyStep item) done) :=
  .of_strides fun input s _ _ last =>
    repeated_ne_some (by rw [bodyStep_apply, if_pos (.inr last)])

/-- What to stop at that stops at the end of the source. -/
class StopsAtEnd (stop : Parse Bool) : Prop where
  last : ∀ input s, (input.token s.cursor).kind = .eof → stop input s = .ok true s

instance (stop : Parse Bool) [Moves F stop] [stops : StopsAtEnd stop] (done : Unit) :
    Steps F (repeated (skipStep stop) done) :=
  have : Takes F (fun more => more = true) (skipStep stop) := by
    unfold skipStep
    infer_instance
  .of_strides fun input s _ _ last => repeated_ne_some (by
    rw [skipStep, bind_ok (stops.last input s last)]
    rfl)

instance (step : Parse Bool) [∀ done, Steps F (repeated step done)] :
    Moves F (repeatStep step) := by
  unfold repeatStep
  infer_instance

instance (stop : Parse Bool) [Moves F stop] [StopsAtEnd stop] : Moves F (skipUntil stop) := by
  unfold skipUntil
  infer_instance

instance (kind : TokenKind) (what : String) {more : Token → Prop} :
    Takes F more (expect kind what) := by
  unfold expect
  infer_instance

instance (what : String) {more : Token → Prop} : Takes F more (expectName what) := by
  unfold expectName
  infer_instance

instance (kind : TokenKind) : Takes F (fun eaten => eaten = true) (eat kind) := by
  unfold eat
  infer_instance

instance (kind : TokenKind) : Moves F (eat kind) :=
  Takes.moves (fun eaten => eaten = true)

/-- A token that is asked for may be the one that is taken. -/
instance takes_eat {kind : TokenKind} (x y : Parse α) [behind : Moves F x]
    [other : Takes F more y] : Takes F more (eat kind >>= fun eaten => if eaten then x else y) :=
  .choice (fun eaten => eaten = true)
    (fun _ taken => by rwa [if_pos taken]) fun _ left => by rwa [if_neg left]

instance (start : Nat) : Moves F (matchingBrace start) := by
  refine .andThen fun input => ?_
  split <;> infer_instance

theorem goes_moveTo {index : Nat} (le : s.cursor ≤ index) (inside : index < input.tokens.size) :
    Goes F input s (moveTo index) fun _ _ => True :=
  fun _ _ => ⟨.of_same le inside (fun _ => rfl) rfl rfl rfl, fun _ _ _ => trivial⟩

end Steps

section Levels

/-- A block one level deeper has one level less. Where there are none the limit is met. -/
theorem Moves.deeper {x : Parse α} (moves : Moves ⟨F.room, F.parent, F.levels - 1⟩ x) :
    Moves F (deeper x) := by
  refine ⟨fun input s ended inside => ?_⟩
  have reaches := moves.reaches input { s with depth := s.depth + 1 } ended inside
  rcases deeper_cases input s x with ⟨_, run⟩ | ⟨room, ⟨_, t, ran, run⟩ | ⟨_, t, ran, run⟩⟩
  · rw [run]
    exact .of_same (Nat.le_refl _) inside (fun _ => rfl) rfl rfl rfl
  all_goals
    rw [ran] at reaches
    rw [run]
    have depth : t.depth = s.depth + 1 := reaches.depth
    refine ⟨reaches.le, reaches.lt, reaches.inRange, ?_, fun enough => ?_, reaches.sprouts⟩
    · change t.depth - 1 = s.depth
      omega
    · exact reaches.stalled (by dsimp only; omega)

variable {more : α → Prop}

theorem Takes.deeper {x : Parse α} (takes : Takes ⟨F.room, F.parent, F.levels - 1⟩ more x) :
    Takes F more (deeper x) where
  moves := takes.moves.deeper
  takes input s a s' ended token ended' hasMore := by
    rcases deeper_cases input s x with ⟨_, run⟩ | ⟨room, ⟨_, t, ran, run⟩ | ⟨_, t, ran, run⟩⟩
    · cases run.symm.trans ended'
    · cases run.symm.trans ended'
      exact takes.takes input { s with depth := s.depth + 1 } a t ended token ran hasMore
    · cases run.symm.trans ended'

/-- Levels run out only beyond the limit. -/
instance {room : Nat} {parent : Option NodeId} :
    Takes ⟨room, parent, 0⟩ more (deeper outOfLevels) where
  moves := by
    refine ⟨fun input s ended inside => ?_⟩
    unfold Parse.deeper
    by_cases full : input.maxDepth ≤ s.depth
    · rw [if_pos full]
      exact .of_same (Nat.le_refl _) inside (fun _ => rfl) rfl rfl rfl
    · rw [if_neg full]
      exact ⟨Nat.le_refl _, inside, fun _ => rfl, rfl, fun enough => absurd enough full,
        fun _ _ _ => .refl _ _⟩
  takes input s a s' _ _ run _ := by
    unfold Parse.deeper at run
    split at run <;> cases run

end Levels

section Values

instance (path : String) : Steps F (pathStep path) :=
  have : Strides F (pathStep path) := by
    unfold pathStep
    infer_instance
  .of_strides fun input s a s' last run => by
    simp only [pathStep, bind_apply, check_apply, last] at run
    cases run

instance (name : String) : Steps F (nameStep name) :=
  have : Strides F (nameStep name) := by
    unfold nameStep
    infer_instance
  .of_strides fun input s a s' last run => by
    simp only [nameStep, bind_apply, check_apply, last] at run
    cases run

instance {more : String → Prop} : Takes F more namespacePath := .first fun _ => inferInstance

instance {more : String → Prop} : Takes F more definitionName := .first fun _ => inferInstance

instance : Moves F elementIndex := by
  refine .andThen fun _ => .andThen fun token => ?_
  split <;> infer_instance

theorem closingParen?_closes {depth i close : Nat}
    (found : input.closingParen? depth i = some close) :
    (input.token close).kind = .rightParen := by
  fun_induction ParseInput.closingParen? input depth i
  case case1 ih | case3 ih | case8 ih => exact ih found
  case case2 inside kind =>
    cases found
    rwa [ParseInput.getElem_eq_token inside] at kind
  all_goals cases found

theorem varRefShape?_closes {i : Nat} {shape : VarRefShape}
    (found : varRefShape? input i = some shape) :
    (input.token shape.close).kind = .rightParen := by
  unfold varRefShape? at found
  simp only [Option.bind_eq_bind, Option.bind_eq_some_iff, Option.guard_eq_some'] at found
  obtain ⟨group, -, -, -, paren, -, -, -, name, -, -, -, after, there, found⟩ := found
  split at found
  · next closes =>
    cases found
    obtain ⟨inside, same⟩ := Array.getElem?_eq_some_iff.1 there
    rw [ParseInput.getElem_eq_token inside] at same
    rw [same]
    exact beq_iff_eq.1 closes
  · simp only [Option.bind_eq_some_iff] at found
    obtain ⟨-, -, close, closed, _, -, found⟩ := found
    cases found
    exact closingParen?_closes closed

/-- A reference ends before the end of the source. -/
theorem varRefAt_bounds {i : Nat} {found : VarRef × Nat} (ended : input.Ended)
    (run : varRefAt i input s = .ok (some found) s') :
    i < found.2 ∧ found.2 < input.tokens.size := by
  unfold varRefAt at run
  rw [bind_apply, read_apply] at run
  cases shaped : varRefShape? input i with
  | none =>
    simp only [shaped] at run
    cases run
  | some shape =>
    simp only [shaped] at run
    have same : shape.close + 1 = found.2 := by
      split at run <;>
      · obtain ⟨_, _, -, run⟩ := bind_eq_ok run
        obtain ⟨_, _, -, run⟩ := bind_eq_ok run
        obtain ⟨_, _, -, run⟩ := bind_eq_ok run
        obtain ⟨_, _, -, run⟩ := bind_eq_ok run
        obtain ⟨_, _, -, run⟩ := bind_eq_ok run
        cases run
        rfl
    have bounds := ParseInput.varRefShape?_bounds shaped
    have closes : (input.token shape.close).kind ≠ .eof := by simp [varRefShape?_closes shaped]
    exact ⟨by omega, same ▸ ended.lt closes⟩

theorem goes_varRefAt (i : Nat) : Goes F input s (varRefAt i) fun _ t => t.cursor = s.cursor := by
  refine Looks.goes fun laid _ => ?_
  cases found : varRefShape? input i with
  | none => exact ⟨_, varRefAt_other s found⟩
  | some shape =>
    obtain ⟨ref, read, -⟩ := varRefAt_reference laid s found
    exact ⟨_, read⟩

theorem goes_spanning {i j : Nat} (le : i ≤ j) (inside : j < input.tokens.size) :
    Goes F input s (spanning i j) fun _ t => t.cursor = s.cursor :=
  Looks.goes fun laid _ => ⟨_, spanning_apply laid s le inside⟩

/-- The text in progress starts before the cursor. -/
def StartsBehind (draft : ValueDraft) (s : ParseState) : Prop := ∀ i ∈ draft.segment, i < s.cursor

/-- A step in a value takes a token or a reference, and nothing fails. -/
structure ValueSteps (input : ParseInput) (draft : ValueDraft) (s : ParseState)
    (next : Option ValueDraft) (s' : ParseState) : Prop where
  moved : ∃ inRange, s' = { s with cursor := s'.cursor, inRange } ∧
    (input.Laid → StartsBehind draft s → inRange = s.inRange)
  le : s.cursor ≤ s'.cursor
  lt : s'.cursor < input.tokens.size
  forward : next.isSome → s.cursor < s'.cursor
  behind : StartsBehind draft s → StartsBehind (next.getD draft) s'

theorem valueStep_steps (draft : ValueDraft) (ended : input.Ended)
    (inside : s.cursor < input.tokens.size) :
    ∃ next s', valueStep draft input s = .ok next s' ∧ ValueSteps input draft s next s' := by
  cases ends : (input.token s.cursor).kind.endsStatement with
  | true =>
    exact ⟨none, s, valueStep_ends ends, ⟨s.inRange, rfl, fun _ _ => rfl⟩, Nat.le_refl _, inside,
      by simp, id⟩
  | false =>
    have token : (input.token s.cursor).kind ≠ .eof := by
      intro same
      simp [same, TokenKind.endsStatement] at ends
    have below := ended.lt token
    obtain ⟨found, there, read⟩ := Looks.looks (x := varRefAt s.cursor) input s
    have kept := (goes_varRefAt (F := ⟨0, none, 0⟩) s.cursor ended inside).1.inRange
    rw [read] at kept
    cases found with
    | none =>
      refine ⟨_, { s with cursor := s.cursor + 1, inRange := there }, by
        simp only [valueStep, bind_apply, peekKind_apply, ends, ite_apply, Bool.false_eq_true,
          if_false, cursor_apply, read, advance_apply,
          if_pos (show s.cursor < input.tokens.size - 1 by omega)]
        rfl, ⟨there, rfl, fun laid _ => kept laid⟩, Nat.le_succ _, below,
        fun _ => Nat.lt_succ_self _, fun behind => ?_⟩
      rintro i ⟨⟩
      cases segment : draft.segment with
      | none => exact Nat.lt_succ_self _
      | some start => exact Nat.lt_succ_of_lt (behind start segment)
    | some found =>
      have bounds := varRefAt_bounds ended read
      have le := Nat.le_of_lt bounds.1
      cases segment : draft.segment with
      | none =>
        exact ⟨_, { s with cursor := found.2, inRange := there }, by
          simp only [valueStep, bind_apply, peekKind_apply, ends, ite_apply, Bool.false_eq_true,
            if_false, cursor_apply, read, segment]
          rfl, ⟨there, rfl, fun laid _ => kept laid⟩, le, bounds.2, fun _ => bounds.1,
          fun _ i none => by cases none⟩
      | some start =>
        obtain ⟨text, there', sliced⟩ :=
          Looks.looks (x := upTo start s.cursor) input { s with inRange := there }
        refine ⟨_, { s with cursor := found.2, inRange := there' }, by
          simp only [valueStep, bind_apply, peekKind_apply, ends, ite_apply, Bool.false_eq_true,
            if_false, cursor_apply, read, segment, sliced]
          rfl, ⟨there', rfl, fun laid behind => ?_⟩, le, bounds.2, fun _ => bounds.1,
          fun _ i none => by cases none⟩
        have same := sliced.symm.trans (upTo_apply laid { s with inRange := there }
          (Nat.le_of_lt (behind start segment)) inside)
        cases same
        exact kept laid

theorem goes_valueStep {draft : ValueDraft} (behind : StartsBehind draft s) :
    Goes F input s (valueStep draft) fun next t =>
      StartsBehind (next.getD draft) t ∧ (next.isSome → s.cursor < t.cursor) := by
  intro ended inside
  obtain ⟨next, s', run, steps⟩ := valueStep_steps draft ended inside
  obtain ⟨inRange, same, kept⟩ := steps.moved
  rw [run]
  refine ⟨?_, fun _ _ done => ?_⟩
  · rw [same]
    exact .of_same steps.le steps.lt (fun laid => kept laid behind) rfl rfl rfl
  · cases done
    exact ⟨steps.behind behind, steps.forward⟩

instance : Moves F value := by
  refine .of_goes fun input s => .still rfl (.bind (goes_loop (fun _ _ => goes_valueStep)
    fun i found => by cases found) fun draft s₁ _ behind _ => .still rfl ?_)
  cases segment : draft.segment with
  | none => exact Moves.goes
  | some first =>
    have before := behind first segment
    exact fun ended inside => Goes.bind (goes_spanning (by omega) (by omega))
      (fun _ _ _ _ _ => Moves.goes) ended inside

/-- What has been passed is given back, if there is anything. -/
theorem goes_passed {start : Nat} {f : String → Parse β} [∀ text, Moves F (f text)]
    (lt : start < s.cursor) : Goes F input s (spanning start (s.cursor - 1) >>= f)
      fun _ t => start < t.cursor := by
  intro ended inside
  refine Goes.bind (goes_spanning (by omega) (by omega)) (fun text s₁ _ same _ ended inside => ?_)
    ended inside
  refine ⟨(Moves.goes ended inside).1, fun a t run => ?_⟩
  have after := (Moves.run (F := F) ended inside run).le
  omega

theorem goes_unexpected {what : String} {post : α → ParseState → Prop} :
    Goes F input s (unexpected what) post := by
  refine fun ended inside => ⟨(Moves.goes ended inside).1, fun a t run => ?_⟩
  obtain ⟨e, failed⟩ := unexpected_apply (α := α) input s what
  cases failed.symm.trans run

theorem goes_eats {x : Parse α} [eats : Eats F x] (token : (input.token s.cursor).kind ≠ .eof) :
    Goes F input s x fun _ t => s.cursor < t.cursor :=
  fun ended inside => ⟨(Moves.goes ended inside).1, fun _ _ run => eats.lt ended token run⟩

instance (lineEnds : Bool) (start line : Nat) : StopsAtEnd (literalStop lineEnds start line) :=
  ⟨fun input s last => by
    simp only [literalStop, bind_apply, peek_apply, last]
    rfl⟩

theorem goes_literal (lineEnds : Bool) :
    Goes F input s (literal lineEnds) fun _ t => s.cursor < t.cursor := by
  refine .still rfl (.still rfl ?_)
  split
  · next text string _ =>
    exact goes_eats fun same => by cases string.symm.trans same
  · refine .still rfl (.andThen fun _ s₁ _ reaches => .still rfl ?_)
    have le := reaches.le
    split
    · exact goes_unexpected
    · next moved => exact goes_passed (Nat.lt_of_le_of_ne le fun same => moved (by simp [same]))

end Values

end Parse

end TemplateMarkup
