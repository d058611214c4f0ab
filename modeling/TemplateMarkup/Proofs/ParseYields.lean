import TemplateMarkup.Proofs.ParsedForests
import TemplateMarkup.Proofs.QuietParses

/-! What a parse takes of the subtrees that are held, and what it gives back. Where it fails, what
it took is left to itself. -/
namespace TemplateMarkup.Parse

variable {α β : Type} {hosts : List Host} {taken taken' : List NodeId} {x : Parse α}
  {f : α → Parse β} {gives gives' : α → List NodeId} {given : β → List NodeId}

/-- A node that was made after all those in a list. -/
def Behind (hosts : List Host) (id : NodeId) : Prop :=
  ∀ host ∈ hosts, host.id.index < id.index

/-- A parse that puts nodes below `hosts` and new nodes only, and turns the subtrees `taken` into
those of its result, which are some of them or new. -/
def Yields (hosts : List Host) (taken : List NodeId) (x : Parse α)
    (gives : α → List NodeId) : Prop :=
  ∀ input s held, s.document.Sound hosts (taken ++ held) →
    match x input s with
    | .ok a s' => s'.document.Sound hosts (gives a ++ held) ∧
        (∀ id ∈ gives a, id ∈ taken ∨ Behind hosts id) ∧
        s.document.forest.GrowsBelow hosts s'.document.forest
    | .error _ s' => s'.document.Sound hosts held

theorem yields_perm {a : α} (perm : taken.Perm (gives a)) : Yields hosts taken (pure a) gives :=
  fun _ _ held sound => ⟨sound.perm (perm.append_right held),
    fun _ member => .inl (perm.mem_iff.2 member), .refl⟩

theorem yields_pure {a : α} (same : gives a = taken) : Yields hosts taken (pure a) gives :=
  yields_perm (by rw [same])

theorem Yields.quiet [quiet : Quiet x] : Yields hosts taken x fun _ => taken := by
  intro input s held sound
  have same := quiet.document input s
  cases run : x input s with
  | ok a s' =>
    rw [run] at same
    dsimp only [stateOf] at same ⊢
    rw [same]
    exact ⟨sound, fun _ member => .inl member, .refl⟩
  | error e s' =>
    rw [run] at same
    dsimp only [stateOf] at same ⊢
    rw [same]
    exact sound.drop

/-- Every result of a parse satisfies a predicate. -/
def Returns (x : Parse α) (result : α → Prop) : Prop :=
  ∀ input s a s', x input s = .ok a s' → result a

theorem returns_pure {result : α → Prop} {a : α} (holds : result a) :
    Returns (pure a) result := by
  intro input s b s' run
  cases run
  exact holds

theorem Returns.bind {x : Parse α} {f : α → Parse β} {first : α → Prop} {result : β → Prop}
    (holds : Returns x first) (rest : ∀ a, first a → Returns (f a) result) :
    Returns (x >>= f) result := by
  intro input s b s' run
  obtain ⟨a, middle, start, run⟩ := bind_eq_ok run
  exact rest a (holds input s a middle start) input middle b s' run

theorem Returns.andThen {x : Parse α} {f : α → Parse β} {result : β → Prop}
    (rest : ∀ a, Returns (f a) result) : Returns (x >>= f) result :=
  fun input _ b s' run => by
    obtain ⟨a, middle, -, run⟩ := bind_eq_ok run
    exact rest a input middle b s' run

theorem Returns.ite {c : Prop} [Decidable c] {x y : Parse α} {result : α → Prop}
    (left : Returns x result) (right : Returns y result) : Returns (if c then x else y) result := by
  split
  · exact left
  · exact right

theorem returns_of_error {x : Parse α} {result : α → Prop}
    (fails : ∀ input s, ∃ e, x input s = .error e s) : Returns x result := by
  intro input s a s' run
  obtain ⟨e, failed⟩ := fails input s
  rw [failed] at run
  cases run

theorem Returns.loop {step : α → Parse (Option α)} {result : α → Prop}
    (each : ∀ acc, result acc → Returns (step acc) fun next => ∀ acc ∈ next, result acc) {acc : α}
    (start : result acc) : Returns (loop step acc) result := by
  intro input s a s' run
  fun_induction Parse.loop step acc input s
  case case1 => cases run
  case case2 =>
    cases run
    exact start
  case case3 acc s next t ran more ih =>
    exact ih (each acc start input s _ t ran next rfl) run
  case case4 acc s next t ran stop =>
    cases run
    exact each acc start input s _ _ ran _ rfl

/-- Goes on with what is known of the result. -/
theorem Yields.bindReturns {result : α → Prop} (first : Yields hosts taken x gives)
    (returns : Returns x result) (rest : ∀ a, result a → Yields hosts (gives a) (f a) given) :
    Yields hosts taken (x >>= f) given := by
  intro input s held sound
  have middle := first input s held sound
  rw [bind_apply]
  cases run : x input s with
  | error e s' =>
    rw [run] at middle
    exact middle
  | ok a s' =>
    rw [run] at middle
    have last := rest a (returns input s a s' run) input s' held middle.1
    dsimp only
    cases run' : f a input s' with
    | error e s'' =>
      rw [run'] at last
      exact last
    | ok b s'' =>
      rw [run'] at last
      refine ⟨last.1, fun id member => ?_, middle.2.2.trans last.2.2⟩
      rcases last.2.1 id member with old | new
      · exact middle.2.1 id old
      · exact .inr new

theorem Yields.bind (first : Yields hosts taken x gives)
    (rest : ∀ a, Yields hosts (gives a) (f a) given) : Yields hosts taken (x >>= f) given :=
  first.bindReturns (fun _ _ _ _ _ => trivial) fun a _ => rest a

/-- Goes on after a parse that leaves the document as it is. -/
theorem Yields.andThen [Quiet x] (rest : ∀ a, Yields hosts taken (f a) given) :
    Yields hosts taken (x >>= f) given := Yields.quiet.bind rest

theorem Yields.pureThen {a : α} (rest : Yields hosts taken (f a) given) :
    Yields hosts taken (pure a >>= f) given := rest

theorem Yields.ite {c : Prop} [Decidable c] {x y : Parse α} (left : Yields hosts taken x gives)
    (right : Yields hosts taken y gives) : Yields hosts taken (if c then x else y) gives := by
  split
  · exact left
  · exact right

/-- Other subtrees wait beside a parse. -/
theorem Yields.frame (yields : Yields hosts taken x gives) (others : List NodeId) :
    Yields hosts (taken ++ others) x fun a => gives a ++ others := by
  intro input s held sound
  rw [List.append_assoc] at sound
  have after := yields input s (others ++ held) sound
  cases run : x input s with
  | ok a s' =>
    rw [run] at after
    dsimp only
    rw [List.append_assoc]
    refine ⟨after.1, fun id member => ?_, after.2.2⟩
    rcases List.mem_append.1 member with mine | other
    · rcases after.2.1 id mine with old | new
      · exact .inl (List.mem_append_left _ old)
      · exact .inr new
    · exact .inl (List.mem_append_right _ other)
  | error e s' =>
    rw [run] at after
    exact after.drop

theorem yields_of_error (fails : ∀ input s, ∃ e, x input s = .error e s) :
    Yields hosts taken x gives := by
  intro input s held sound
  obtain ⟨e, run⟩ := fails input s
  rw [run]
  exact sound.drop

theorem yields_unexpected (what : String) : Yields hosts taken (unexpected what) gives :=
  yields_of_error fun input s => unexpected_apply input s what

theorem yields_unexpectedThen (what : String) :
    Yields hosts taken (unexpected what >>= f) given :=
  yields_of_error fun input s => by
    obtain ⟨e, run⟩ := unexpected_apply input s what
    exact ⟨e, by rw [bind_apply, run]⟩

theorem yields_tooDeep : Yields hosts taken tooDeep gives :=
  yields_of_error fun _ _ => ⟨_, rfl⟩

theorem yields_fail (problem : ParseProblem) (span : Span) :
    Yields hosts taken (fail problem span) gives := yields_of_error fun _ _ => ⟨_, rfl⟩

theorem Yields.deeper (inside : Yields hosts taken x gives) :
    Yields hosts taken (deeper x) gives := by
  intro input s held sound
  have after := inside input { s with depth := s.depth + 1 } held sound
  rcases deeper_cases input s x with ⟨_, run⟩ | ⟨_, ⟨a, s', ran, run⟩ | ⟨e, s', ran, run⟩⟩
  · rw [run]
    exact sound.drop
  · rw [ran] at after
    rw [run]
    exact after
  · rw [ran] at after
    rw [run]
    exact after

theorem yields_outOfLevels : Yields hosts taken outOfLevels gives :=
  .andThen fun _ => yields_tooDeep

/-- What a step of a loop gives: what it adds up to, or what there was. -/
def stepGives (gives : α → List NodeId) (acc : α) : Option α → List NodeId
  | none => gives acc
  | some acc => gives acc

theorem Yields.loop (gives : α → List NodeId) {step : α → Parse (Option α)}
    (each : ∀ acc, Yields hosts (gives acc) (step acc) (stepGives gives acc)) (acc : α) :
    Yields hosts (gives acc) (loop step acc) gives := by
  intro input s held sound
  fun_induction Parse.loop step acc input s
  case case1 acc s _ s' run | case2 acc s s' run | case4 acc s _ s' run _ =>
    have after := each acc input s held sound
    rw [run] at after
    exact after
  case case3 acc s acc' s' run more ih =>
    have after := each acc input s held sound
    rw [run] at after
    have later := ih after.1
    cases run' : Parse.loop step acc' input s' with
    | ok last s'' =>
      rw [run'] at later
      refine ⟨later.1, fun id member => ?_, after.2.2.trans later.2.2⟩
      rcases later.2.1 id member with old | new
      · exact after.2.1 id old
      · exact .inr new
    | error e s'' =>
      rw [run'] at later
      exact later

theorem Yields.repeatStep {step : Parse Bool} (each : Yields hosts [] step fun _ => []) :
    Yields hosts [] (repeatStep step) fun _ => [] := by
  refine Yields.loop (fun _ => []) (fun _ => each.bind fun more => ?_) ()
  cases more
  · exact yields_pure rfl
  · exact yields_pure rfl

theorem Yields.bodyStep {item : Parse Unit} (each : Yields hosts [] item fun _ => []) :
    Yields hosts [] (Parse.repeatStep (bodyStep item)) fun _ => [] := by
  refine .repeatStep (.andThen fun _ => .andThen fun _ => .ite (yields_pure rfl) ?_)
  exact each.bind fun _ => yields_pure rfl

/-- What the caller holds of a new node: nothing if it has a parent. -/
def newNode : Option NodeId → NodeId → List NodeId
  | none, id => [id]
  | some _, _ => []

theorem behind_size {document : Document} {held : List NodeId}
    (sound : document.Sound hosts held) : Behind hosts ⟨document.forest.slots.size⟩ :=
  fun p member => (sound.hosted.hosts p member).lt_size

variable {parent : Option NodeId} {node : Node}

/-- A new node takes over what its usages bring. -/
theorem addNode_sound {s : ParseState} {held : List NodeId} (enters : node.Enters hosts parent)
    (input : ParseInput) (sound : s.document.Sound hosts (node.payload ++ held)) :
    ∃ s', addNode parent node input s = .ok ⟨s.document.forest.slots.size⟩ s' ∧
      s'.document.Sound hosts (newNode parent ⟨s.document.forest.slots.size⟩ ++ held) ∧
      s'.document.forest.get? ⟨s.document.forest.slots.size⟩ = some node ∧
      s.document.forest.GrowsBelow hosts s'.document.forest := by
  have here : (s.document.forest.insertDetached node).2.get? ⟨s.document.forest.slots.size⟩ =
      some node := by rw [Forest.get?_insertDetached, if_pos rfl]
  cases parent with
  | none =>
    exact ⟨_, rfl, sound.insertDetached (enters.loose rfl), here,
      Forest.growsBelow_insertDetached⟩
  | some p =>
    have space : node.isSpace → ⟨p, true⟩ ∈ hosts := fun isSpace => enters.space isSpace p rfl
    exact ⟨_, rfl, sound.addChild (enters.below p rfl) enters.plain space,
      Forest.get?_insertAt.trans here, Forest.growsBelow_insertChild (enters.below p rfl)
        (sound.hosted.among (enters.below p rfl)).lt_size⟩

/-- A new node that others go below. -/
theorem Yields.addNode {f : NodeId → Parse β} (payload : node.payload = taken)
    (enters : node.Enters hosts parent) (isHost : node.isHost)
    (rest : ∀ id, Yields (⟨id, node.isSpace⟩ :: hosts) (newNode parent id) (f id) given) :
    Yields hosts taken (Parse.addNode parent node >>= f) given := by
  subst payload
  intro input s held sound
  obtain ⟨s', run, after, here, grows⟩ := addNode_sound enters input sound
  have behind := behind_size sound
  have later := rest ⟨s.document.forest.slots.size⟩ input s' held (after.host here isHost)
  rw [bind_ok run]
  cases run' : f ⟨s.document.forest.slots.size⟩ input s' with
  | ok b s'' =>
    rw [run'] at later
    refine ⟨later.1.lower (List.subset_cons_self _ _), fun id member => .inr ?_,
      grows.transHost later.2.2 (Nat.le_refl _)⟩
    rcases later.2.1 id member with old | new
    · cases parent with
      | none =>
        rw [List.mem_singleton.1 old]
        exact behind
      | some p => cases old
    · exact fun p member => new p (.tail _ member)
  | error e s'' =>
    rw [run'] at later
    exact later.lower (List.subset_cons_self _ _)

theorem yields_addNode (payload : node.payload = taken) (enters : node.Enters hosts parent) :
    Yields hosts taken (Parse.addNode parent node) (newNode parent) := by
  subst payload
  intro input s held sound
  obtain ⟨s', run, after, -, grows⟩ := addNode_sound enters input sound
  rw [run]
  refine ⟨after, fun id member => .inr ?_, grows⟩
  cases parent with
  | none =>
    rw [List.mem_singleton.1 member]
    exact behind_size sound
  | some p => cases member

end TemplateMarkup.Parse
