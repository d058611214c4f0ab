import Mathlib.Data.Option.Basic
import TemplateMarkup.Proofs.ResolveSteps
import TemplateMarkup.Proofs.TokenPlaces
import TemplateMarkup.Resolving.Variables

/-! The text of a value against the source that it was read from. What stands between a reference
and the token after it is lost; all else is kept. -/
namespace TemplateMarkup

namespace Value

theorem join_appendText (text : String) (parts : List ValuePart) :
    String.join ((appendText text parts).map partText) =
      String.join (parts.map partText) ++ text := by
  fun_induction appendText text parts with
  | case1 | case2 => simp [partText]
  | case3 part parts _ ih => simp [ih, String.append_assoc]

theorem toText_pushText (value : Value) (text : String) :
    (value.pushText text).toText = value.toText ++ text := by
  unfold pushText
  split
  · rename_i empty
    rw [String.isEmpty_iff.1 empty, String.append_empty]
  · exact join_appendText text value.parts

theorem toText_pushVar (value : Value) (ref : VarRef) :
    (value.pushVar ref).toText = value.toText ++ ref.raw := by
  simp [toText, pushVar, partText]

end Value

namespace SourceText

/-- A text for a stretch of the source: the stretch itself if it is `kept`, and else a shorter
text. -/
structure Shown (source : List Char) (start stop : Nat) (text : String) (kept : Prop) : Prop where
  whole : kept → text = segment source start stop
  shorter : ¬ kept → byteLength text.toList < stop - start

namespace Shown

variable {source : List Char} {a b c : Nat} {text text' : String} {kept kept' : Prop}

theorem congr (h : Shown source a b text kept) (same : kept ↔ kept') :
    Shown source a b text kept' :=
  ⟨fun k => h.whole (same.2 k), fun k => h.shorter (mt same.1 k)⟩

theorem exact (source : List Char) (a b : Nat) : Shown source a b (segment source a b) True :=
  ⟨fun _ => rfl, fun h => absurd trivial h⟩

theorem le (h : Shown source a b text kept) (ha : IsCut source a) (hb : IsCut source b)
    (ab : a ≤ b) : byteLength text.toList ≤ b - a := by
  by_cases k : kept
  · exact Nat.le_of_eq (by rw [h.whole k, byteLength_segment ha hb ab])
  · exact Nat.le_of_lt (h.shorter k)

theorem append (h : Shown source a b text kept) (h' : Shown source b c text' kept')
    (ha : IsCut source a) (hb : IsCut source b) (hc : IsCut source c) (ab : a ≤ b) (bc : b ≤ c) :
    Shown source a c (text ++ text') (kept ∧ kept') := by
  have left := h.le ha hb ab
  have right := h'.le hb hc bc
  constructor
  · rintro ⟨k, k'⟩
    rw [h.whole k, h'.whole k', segment_append ha hb hc ab bc]
  · intro lost
    rw [String.toList_append, byteLength_append]
    by_cases k : kept
    · have := h'.shorter fun k' => lost ⟨k, k'⟩
      omega
    · have := h.shorter k
      omega

/-- Nothing is the text of a stretch only where the stretch is empty. -/
theorem gap (ha : IsCut source a) (ab : a ≤ b) :
    Shown source a b "" (b = a) := by
  constructor
  · rintro rfl
    have := byteLength_segment ha ha (Nat.le_refl _)
    rw [Nat.sub_self, byteLength_eq_zero] at this
    exact (String.toList_eq_nil_iff.1 this).symm
  · intro apart
    simp
    omega

theorem eq_iff (h : Shown source a b text kept) (ha : IsCut source a) (hb : IsCut source b)
    (ab : a ≤ b) : text = segment source a b ↔ kept := by
  refine ⟨fun same => ?_, h.whole⟩
  refine Classical.byContradiction fun lost => ?_
  have := h.shorter lost
  rw [same, byteLength_segment ha hb ab] at this
  omega

end Shown

end SourceText

namespace ParseInput
open SourceText Parse

variable {input : ParseInput}

variable {index : Nat}

theorem closingParen?_bounds {depth close : Nat}
    (h : input.closingParen? depth index = some close) :
    index ≤ close ∧ close < input.tokens.size := by
  fun_induction closingParen? input depth index
  case case1 ih | case3 ih | case8 ih =>
    have := ih h
    omega
  case case2 inside _ =>
    cases h
    exact ⟨Nat.le_refl _, inside⟩
  all_goals cases h

theorem varRefShape?_bounds {shape : VarRefShape}
    (h : varRefShape? input index = some shape) :
    index + 2 < shape.close ∧ shape.close < input.tokens.size ∧
      (shape.overrides = true → index + 4 < shape.close) := by
  unfold varRefShape? at h
  simp only [Option.bind_eq_bind, Option.bind_eq_some_iff, Option.guard_eq_some'] at h
  obtain ⟨group, -, -, -, paren, -, -, -, name, -, -, -, after, inside, h⟩ := h
  obtain ⟨bound, -⟩ := Array.getElem?_eq_some_iff.1 inside
  split at h
  · cases h
    simp
    omega
  · simp only [Option.bind_eq_some_iff] at h
    obtain ⟨-, -, close, found, _, apart, h⟩ := h
    cases h
    have bounds := closingParen?_bounds found
    have other : close ≠ index + 4 := by
      rintro rfl
      simp at apart
    refine ⟨?_, bounds.2, fun _ => ?_⟩
    · dsimp only
      omega
    · dsimp only
      omega

/-- A value that is read from one index on comes to another, passing references as a whole. -/
inductive ComesTo (input : ParseInput) : Nat → Nat → Prop
  | here (index : Nat) : ComesTo input index index
  | token {index later : Nat} : varRefShape? input index = none →
      ComesTo input (index + 1) later → ComesTo input index later
  | reference {index later : Nat} {shape : VarRefShape} : varRefShape? input index = some shape →
      ComesTo input (shape.close + 1) later → ComesTo input index later

/-- No reference between two indexes has a gap behind it, unless it is the last that stands
there. -/
def Unspaced (input : ParseInput) (first stop : Nat) : Prop :=
  ∀ index shape, ComesTo input first index → varRefShape? input index = some shape →
    shape.close + 1 < stop → input.adjacent (shape.close + 1) = true

theorem ComesTo.le {first later : Nat} (h : ComesTo input first later) : first ≤ later := by
  induction h with
  | here => exact Nat.le_refl _
  | token _ _ ih => omega
  | reference found _ ih =>
    have := varRefShape?_bounds found
    omega

theorem unspaced_self (input : ParseInput) (first : Nat) : Unspaced input first first := by
  intro index shape comes found before
  have := comes.le
  have := varRefShape?_bounds found
  omega

theorem unspaced_token {stop : Nat} (h : varRefShape? input index = none) :
    Unspaced input index stop ↔ Unspaced input (index + 1) stop := by
  constructor
  · intro unspaced i shape comes
    exact unspaced i shape (.token h comes)
  · intro unspaced i shape comes found
    cases comes with
    | here => rw [h] at found; cases found
    | token _ rest => exact unspaced i shape rest found
    | reference other _ => rw [h] at other; cases other

theorem unspaced_reference {stop : Nat} {shape : VarRefShape}
    (h : varRefShape? input index = some shape) :
    Unspaced input index stop ↔
      (shape.close + 1 < stop → input.adjacent (shape.close + 1) = true) ∧
        Unspaced input (shape.close + 1) stop := by
  constructor
  · intro unspaced
    exact ⟨unspaced index shape (.here index) h,
      fun i shape' comes => unspaced i shape' (.reference h comes)⟩
  · rintro ⟨behind, unspaced⟩ i shape' comes found
    cases comes with
    | here =>
      rw [h] at found
      cases found
      exact behind
    | token other _ => rw [h] at other; cases other
    | reference other rest =>
      rw [h] at other
      cases other
      exact unspaced i shape' rest found

end ParseInput

namespace Parse
open SourceText

section Slices

variable {input : ParseInput} (laid : input.Laid) (s : ParseState) {i j : Nat}
include laid

theorem spanning_apply (le : i ≤ j) (inside : j < input.tokens.size) :
    spanning i j input s =
      .ok (segment input.source (input.token i).span.start (input.token j).span.stop) s := by
  have ordered : (input.token i).span.start ≤ (input.token j).span.stop :=
    Nat.le_trans (laid.start_le_start le inside) (laid.start_le_stop j inside)
  have found := slice?_eq_segment (laid.starts i (by omega)) (laid.stops j inside) ordered
  simp only [spanning, slice, bind_apply, tokenAt_apply s (show i < input.tokens.size by omega),
    tokenAt_apply s inside, read_apply, Nat.max_eq_left ordered, found, pure_apply]

theorem upTo_apply (le : i ≤ j) (inside : j < input.tokens.size) :
    upTo i j input s =
      .ok (segment input.source (input.token i).span.start (input.token j).span.start) s := by
  have ordered := laid.start_le_start le inside
  have found := slice?_eq_segment (laid.starts i (by omega)) (laid.starts j inside) ordered
  simp only [upTo, slice, bind_apply, tokenAt_apply s (show i < input.tokens.size by omega),
    tokenAt_apply s inside, read_apply, Nat.max_eq_left ordered, found, pure_apply]

theorem between_apply (lt : i < j) (inside : j < input.tokens.size) :
    between i j input s =
      .ok (segment input.source (input.token i).span.stop (input.token j).span.start) s := by
  have ordered := laid.stop_le_start i j lt inside
  have found := slice?_eq_segment (laid.stops i (by omega)) (laid.starts j inside) ordered
  simp only [between, slice, bind_apply, tokenAt_apply s (show i < input.tokens.size by omega),
    tokenAt_apply s inside, read_apply, Nat.max_eq_left ordered, found, pure_apply]

theorem overrideValue_apply {close : Nat} (lt : i < close) (inside : close < input.tokens.size) :
    ∃ text, overrideValue i close input s = .ok text s := by
  have source : ∃ text, (do return Text.trim (← spanning i (close - 1)) : Parse String) input s =
      .ok text s := by
    rw [bind_apply, spanning_apply laid s (by omega) (by omega)]
    exact ⟨_, rfl⟩
  simp only [overrideValue, bind_apply, tokenAt_apply s (show i < input.tokens.size by omega)]
  cases (input.token i).kind with
  | string value =>
    cases close == i + 1 with
    | true => exact ⟨value, rfl⟩
    | false => exact source
  | _ => exact source

theorem varRefAt_reference {shape : VarRefShape} (h : varRefShape? input i = some shape) :
    ∃ ref : VarRef, varRefAt i input s = .ok (some (ref, shape.close + 1)) s ∧
      ref.raw = segment input.source (input.token i).span.start
        (input.token shape.close).span.stop := by
  obtain ⟨apart, inside, overriding⟩ := ParseInput.varRefShape?_bounds h
  have built (override : Option String) : ∃ ref : VarRef,
      (do
        let ref : VarRef :=
          { group := (← tokenAt i).text
            name := (← tokenAt (i + 2)).text
            override
            scope := ← currentScope
            raw := ← spanning i shape.close }
        return some (ref, shape.close + 1) : Parse (Option (VarRef × Nat))) input s =
          .ok (some (ref, shape.close + 1)) s ∧
        ref.raw = segment input.source (input.token i).span.start
          (input.token shape.close).span.stop := by
    simp only [bind_apply, tokenAt_apply s (show i < input.tokens.size by omega),
      tokenAt_apply s (show i + 2 < input.tokens.size by omega), currentScope_apply,
      spanning_apply laid s (show i ≤ shape.close by omega) inside, pure_apply]
    exact ⟨_, rfl, rfl⟩
  unfold varRefAt
  simp only [bind_apply, read_apply, h]
  cases overrides : shape.overrides with
  | true =>
    obtain ⟨text, given⟩ := overrideValue_apply laid s (overriding overrides) inside
    have asked : (some <$> overrideValue (i + 4) shape.close : Parse (Option String)) input s =
        .ok (some text) s := by
      rw [map_eq_pure_bind, bind_apply, given]
      rfl
    rw [if_pos rfl, bind_apply, asked]
    exact built (some text)
  | false =>
    rw [if_neg (by simp), bind_apply]
    exact built none

omit laid in
theorem varRefAt_other (h : varRefShape? input i = none) : varRefAt i input s = .ok none s := by
  unfold varRefAt
  simp only [bind_apply, read_apply, h]
  rfl

/-- Past a token that ends no statement there is another one. -/
theorem lt_of_open (h : (input.token i).kind.endsStatement = false) :
    i + 1 < input.tokens.size := by
  refine Classical.byContradiction fun past => ?_
  have size := input.nonempty
  have last : input.token i = input.token (input.tokens.size - 1) := by
    rcases Nat.lt_or_ge i input.tokens.size with inside | outside
    · congr 1
      omega
    · exact ParseInput.token_of_size_le outside
  rw [last, laid.ends] at h
  cases h

end Slices

section Draft

variable {input : ParseInput}

theorem adjacent_iff {i : Nat} (positive : 0 < i) (inside : i < input.tokens.size) :
    input.adjacent i = true ↔ (input.token i).span.start = (input.token (i - 1)).span.stop := by
  obtain ⟨i, rfl⟩ := Nat.exists_eq_succ_of_ne_zero (Nat.ne_of_gt positive)
  have before : input.tokens[i]? = some (input.token i) :=
    ParseInput.getElem?_eq_token (by omega)
  simp only [ParseInput.adjacent, ParseInput.getElem?_eq_token inside, before, beq_iff_eq]
  rfl

/-- Up to where the finished part of a value goes, when its reading has come from `first` to
`here`. -/
def finishedTo (input : ParseInput) (first here : Nat) (draft : ValueDraft) : Nat :=
  match draft.segment with
  | some start => (input.token start).span.start
  | none =>
    if here = first then (input.token first).span.start else (input.token (here - 1)).span.stop

/-- The text in progress, up to `here`. -/
def pendingText (input : ParseInput) (here : Nat) (draft : ValueDraft) : String :=
  match draft.segment with
  | some start =>
    segment input.source (input.token start).span.start (input.token here).span.start
  | none => ""

/-- The token at `here` stands right behind a reference that the value ends in so far. -/
def Joined (input : ParseInput) (first here : Nat) (draft : ValueDraft) : Prop :=
  draft.segment = none → first < here → input.adjacent here = true

/-- The finished part of a value shows the source, and all of it if it is `kept`. -/
structure Drafted (input : ParseInput) (first here : Nat) (draft : ValueDraft) (kept : Prop) :
    Prop where
  le : first ≤ here
  bound : first < here → here ≤ input.tokens.size
  progress : ∀ start, draft.segment = some start → first ≤ start ∧ start < here
  shown : Shown input.source (input.token first).span.start (finishedTo input first here draft)
    draft.value.toText kept

variable {first here : Nat} {kept : Prop}

theorem Drafted.flush {draft : ValueDraft}
    (h : Drafted input first here draft kept) (laid : input.Laid)
    (inside : here < input.tokens.size) :
    Shown input.source (input.token first).span.start (input.token here).span.start
      (draft.value.toText ++ pendingText input here draft)
      (kept ∧ Joined input first here draft) := by
  have shown := h.shown
  have le := h.le
  have firstCut := laid.starts first (by omega)
  have hereCut := laid.starts here inside
  cases segment : draft.segment with
  | some start =>
    obtain ⟨after, before⟩ := h.progress start segment
    simp only [finishedTo, segment] at shown
    simp only [pendingText, Joined, segment]
    have pending := Shown.exact input.source (input.token start).span.start
      (input.token here).span.start
    refine (shown.append pending firstCut (laid.starts start (by omega)) hereCut
      (laid.start_le_start after (by omega)) (laid.start_le_start (by omega) inside)).congr ?_
    simp
  | none =>
    simp only [finishedTo, segment] at shown
    simp only [pendingText, Joined, segment, String.append_empty]
    by_cases start : here = first
    · rw [if_pos start] at shown
      subst start
      exact shown.congr (by simp)
    · rw [if_neg start] at shown
      have stopCut := laid.stops (here - 1) (by omega)
      have behind := laid.stop_le_start (here - 1) here (by omega) inside
      have ordered := Nat.le_trans (laid.start_le_start (show first ≤ here - 1 by omega) (by omega))
        (laid.start_le_stop (here - 1) (by omega))
      have whole := shown.append (Shown.gap stopCut behind) firstCut stopCut hereCut ordered behind
      rw [String.append_empty] at whole
      refine whole.congr (and_congr_right fun _ => ?_)
      rw [adjacent_iff (by omega) inside]
      exact ⟨fun joined _ _ => joined, fun joined => joined trivial (by omega)⟩

variable {s : ParseState} {draft : ValueDraft}

theorem valueStep_ends (h : (input.token s.cursor).kind.endsStatement = true) :
    valueStep draft input s = .ok none s := by
  simp only [valueStep, bind_apply, peekKind_apply, h]
  rfl

theorem valueStep_token (laid : input.Laid)
    (h : (input.token s.cursor).kind.endsStatement = false)
    (plain : varRefShape? input s.cursor = none) :
    valueStep draft input s =
      .ok (some { draft with segment := some (draft.segment.getD s.cursor) })
        { s with cursor := s.cursor + 1 } := by
  have next := lt_of_open laid h
  simp only [valueStep, bind_apply, peekKind_apply, h, ite_apply, Bool.false_eq_true, if_false,
    cursor_apply, varRefAt_other s plain, advance_apply,
    if_pos (show s.cursor < input.tokens.size - 1 by omega)]
  rfl

theorem valueStep_reference (laid : input.Laid)
    (h : (input.token s.cursor).kind.endsStatement = false) {shape : VarRefShape}
    (found : varRefShape? input s.cursor = some shape)
    (progress : ∀ start, draft.segment = some start → start < s.cursor) :
    ∃ value : Value, valueStep draft input s =
        .ok (some { value }) { s with cursor := shape.close + 1 } ∧
      value.toText = draft.value.toText ++ pendingText input s.cursor draft ++
        segment input.source (input.token s.cursor).span.start
          (input.token shape.close).span.stop := by
  have next := lt_of_open laid h
  obtain ⟨ref, read, raw⟩ := varRefAt_reference laid s found
  cases segment : draft.segment with
  | some start =>
    have before := progress start segment
    refine ⟨(draft.value.pushText (pendingText input s.cursor draft)).pushVar ref, ?_, ?_⟩
    · simp only [valueStep, bind_apply, peekKind_apply, h, ite_apply, Bool.false_eq_true, if_false,
        cursor_apply, read, segment,
        upTo_apply laid s (show start ≤ s.cursor by omega) (show s.cursor < _ by omega)]
      simp only [pendingText, segment]
      rfl
    · rw [Value.toText_pushVar, Value.toText_pushText, raw]
  | none =>
    refine ⟨draft.value.pushVar ref, ?_, ?_⟩
    · simp only [valueStep, bind_apply, peekKind_apply, h, ite_apply, Bool.false_eq_true, if_false,
        cursor_apply, read, segment]
      rfl
    · rw [Value.toText_pushVar, raw]
      simp [pendingText, segment]

theorem Drafted.token (h : Drafted input first here draft kept)
    (laid : input.Laid) (inside : here < input.tokens.size) :
    Drafted input first (here + 1) { draft with segment := some (draft.segment.getD here) }
      (kept ∧ Joined input first here draft) where
  le := Nat.le_succ_of_le h.le
  bound := fun _ => inside
  progress := by
    have le := h.le
    intro start same
    cases segment : draft.segment with
    | none =>
      simp only [segment, Option.getD_none, Option.some.injEq] at same
      omega
    | some start' =>
      have := h.progress start' segment
      simp only [segment, Option.getD_some, Option.some.injEq] at same
      omega
  shown := by
    cases segment : draft.segment with
    | none =>
      have shown := h.flush laid inside
      simpa [pendingText, finishedTo, segment] using shown
    | some start =>
      have shown := h.shown
      simp only [finishedTo, segment] at shown
      refine shown.congr ?_
      simp [Joined, segment]

theorem Drafted.reference
    (h : Drafted input first here draft kept) (laid : input.Laid) {close : Nat} {value : Value}
    (lt : here < close) (inside : close < input.tokens.size)
    (text : value.toText = draft.value.toText ++ pendingText input here draft ++
      segment input.source (input.token here).span.start (input.token close).span.stop) :
    Drafted input first (close + 1) { value } (kept ∧ Joined input first here draft) where
  le := by have := h.le; omega
  bound := fun _ => inside
  progress := by simp
  shown := by
    have le := h.le
    have shown := h.flush laid (by omega)
    have raw := Shown.exact input.source (input.token here).span.start (input.token close).span.stop
    have whole := shown.append raw (laid.starts first (by omega)) (laid.starts here (by omega))
      (laid.stops close inside) (laid.start_le_start le (by omega))
      (Nat.le_trans (laid.start_le_start (show here ≤ close by omega) inside)
        (laid.start_le_stop close inside))
    rw [← text] at whole
    simp only [finishedTo, if_neg (show close + 1 ≠ first by omega), Nat.add_sub_cancel]
    exact whole.congr (by simp)

/-- What one step of a value can do. -/
theorem valueStep_cases (laid : input.Laid)
    (h : Drafted input first s.cursor draft kept) :
    valueStep draft input s = .ok none s ∨
      ∃ draft' next, valueStep draft input s = .ok (some draft') { s with cursor := next } ∧
        s.cursor < next ∧ s.cursor < input.tokens.size ∧
        Drafted input first next draft' (kept ∧ Joined input first s.cursor draft) ∧
        ∀ stop, ParseInput.Unspaced input s.cursor stop ↔
          (next < stop → Joined input first next draft') ∧ ParseInput.Unspaced input next stop := by
  cases ends : (input.token s.cursor).kind.endsStatement with
  | true => exact .inl (valueStep_ends ends)
  | false =>
    right
    have inside := lt_of_open laid ends
    have le := h.le
    cases found : varRefShape? input s.cursor with
    | none =>
      refine ⟨_, _, valueStep_token laid ends found, by omega, by omega,
        h.token laid (by omega), fun stop => ?_⟩
      rw [ParseInput.unspaced_token found]
      simp [Joined]
    | some shape =>
      have bounds := ParseInput.varRefShape?_bounds found
      obtain ⟨value, step, text⟩ := valueStep_reference laid ends found
        fun start same => (h.progress start same).2
      refine ⟨_, _, step, by omega, by omega,
        h.reference laid (by omega) bounds.2.1 text, fun stop => ?_⟩
      rw [ParseInput.unspaced_reference found]
      have behind : first < shape.close + 1 := by omega
      simp [Joined, behind]

variable {s' : ParseState}

/-- A value is read up to some token, and shows all of its source if no reference in it has a gap
behind it. -/
theorem loop_drafted {draft' : ValueDraft}
    (laid : input.Laid) (h : Drafted input first s.cursor draft kept)
    (run : loop valueStep draft input s = .ok draft' s') :
    s.cursor ≤ s'.cursor ∧ Drafted input first s'.cursor draft'
      (kept ∧ (s.cursor < s'.cursor → Joined input first s.cursor draft) ∧
        ParseInput.Unspaced input s.cursor s'.cursor) := by
  fun_induction loop valueStep draft input s generalizing kept
  case case1 => cases run
  case case2 draft s s₁ step =>
    cases run
    rcases valueStep_cases laid h with same | ⟨draft₁, next, same, -⟩
    · rw [same] at step
      cases step
      refine ⟨Nat.le_refl _, h.le, h.bound, h.progress, h.shown.congr ?_⟩
      simp [ParseInput.unspaced_self]
    · rw [same] at step
      cases step
  case case3 draft s draft₁ s₁ step advances ih =>
    rcases valueStep_cases laid h with same | ⟨draft₂, next, same, lt, -, drafted, unspaced⟩
    · rw [same] at step
      cases step
    · rw [same] at step
      cases step
      obtain ⟨le, finished⟩ := ih drafted run
      refine ⟨by dsimp only at le; omega, finished.le, finished.bound, finished.progress,
        finished.shown.congr ?_⟩
      have before : s.cursor < s'.cursor := Nat.lt_of_lt_of_le lt le
      simp only [before, forall_const, unspaced, and_assoc]
  case case4 draft s draft₁ s₁ step stands =>
    rcases valueStep_cases laid h with same | ⟨draft₂, next, same, lt, inside, -⟩
    · rw [same] at step
      cases step
    · rw [same] at step
      cases step
      exact absurd ⟨lt, inside⟩ stands

private theorem guarded_eq_ok {c : Bool} {v v' : Value}
    (h : (if c then unexpected "a value" input s else .ok v s) = .ok v' s') :
    c = false ∧ v = v' ∧ s = s' := by
  cases c with
  | true =>
    obtain ⟨e, fails⟩ := unexpected_apply (α := Value) input s "a value"
    rw [if_pos rfl, fails] at h
    cases h
  | false =>
    cases h
    exact ⟨rfl, rfl, rfl⟩

/-- The text of a value is its source, from its first token through its last, if no reference in
it has a gap behind it, and shorter otherwise. -/
theorem value_shown {v : Value} (laid : input.Laid)
    (run : value input s = .ok v s') :
    s.cursor < s'.cursor ∧ s'.cursor ≤ input.tokens.size ∧
      Shown input.source (input.token s.cursor).span.start
        (input.token (s'.cursor - 1)).span.stop v.toText
        (ParseInput.Unspaced input s.cursor s'.cursor) := by
  obtain ⟨_, _, standing, run⟩ := bind_eq_ok run
  cases standing
  obtain ⟨draft, s₁, read, run⟩ := bind_eq_ok run
  obtain ⟨_, _, standing, run⟩ := bind_eq_ok run
  cases standing
  have isOpen : (input.token s.cursor).kind.endsStatement = false := by
    cases ends : (input.token s.cursor).kind.endsStatement with
    | false => rfl
    | true =>
      rw [loop, valueStep_ends ends] at read
      cases read
      simp only [bind_apply, pure_apply, ite_apply] at run
      simpa using (guarded_eq_ok run).1
  have inside := lt_of_open laid isOpen
  have empty : Drafted input s.cursor s.cursor {} True := by
    refine ⟨Nat.le_refl _, by omega, by simp, ?_⟩
    have gap := Shown.gap (laid.starts s.cursor (by omega)) (Nat.le_refl _)
    simpa [finishedTo, Value.toText] using gap
  obtain ⟨le, finished⟩ := loop_drafted laid empty read
  have bound := finished.bound
  have shown : Shown input.source (input.token s.cursor).span.start
      (finishedTo input s.cursor s₁.cursor draft) draft.value.toText
      (ParseInput.Unspaced input s.cursor s₁.cursor) :=
    finished.shown.congr (by simp [Joined])
  cases segment : draft.segment with
  | none =>
    simp only [segment, bind_apply, pure_apply, ite_apply] at run
    obtain ⟨moved, rfl, rfl⟩ := guarded_eq_ok run
    have apart : s₁.cursor ≠ s.cursor := by simpa using moved
    simp only [finishedTo, segment, if_neg apart] at shown
    exact ⟨by omega, bound (by omega), shown⟩
  | some start =>
    obtain ⟨after, before⟩ := finished.progress start segment
    have last : s₁.cursor - 1 < input.tokens.size := by
      have := bound (by omega)
      omega
    simp only [segment, bind_apply, pure_apply, ite_apply,
      spanning_apply laid s₁ (show start ≤ s₁.cursor - 1 by omega) last] at run
    obtain ⟨-, rfl, rfl⟩ := guarded_eq_ok run
    simp only [finishedTo, segment] at shown
    refine ⟨by omega, bound (by omega), ?_⟩
    rw [Value.toText_pushText]
    have rest := Shown.exact input.source (input.token start).span.start
      (input.token (s₁.cursor - 1)).span.stop
    refine (shown.append rest (laid.starts s.cursor (by omega)) (laid.starts start (by omega))
      (laid.stops _ last) (laid.start_le_start after (by omega)) ?_).congr (by simp)
    exact Nat.le_trans (laid.start_le_start (show start ≤ s₁.cursor - 1 by omega) last)
      (laid.start_le_stop _ last)

end Draft

end Parse

namespace Resolve

variable {r : ResolveState}

theorem resolveVarAt_unknown {ref : VarRef}
    (h : r.document.symbols.lookupKey ref.group .var none ref.scope = none) (levels : Nat) :
    resolveVarAt levels ref r = .ok none r := by
  have unknown (render : Option (Value → Resolve String)) :
      resolveVarWith render ref r = .ok none r := by
    simp only [resolveVarWith, bind_apply, symbols_apply, h, pure_apply]
  cases levels with
  | zero => exact unknown none
  | succ levels => exact unknown _

theorem mapM_still {α β : Type} {f : α → Resolve β} {g : α → β} {parts : List α}
    (h : ∀ part ∈ parts, f part r = .ok (g part) r) :
    parts.mapM f r = .ok (parts.map g) r := by
  induction parts with
  | nil => rfl
  | cons part parts ih =>
    have rest := ih fun part member => h part (.tail _ member)
    rw [List.mapM_cons, bind_apply, h part (.head _)]
    dsimp only
    rw [bind_apply, rest]
    rfl

/-- A value all of whose groups are unknown is rendered as it was written. -/
theorem renderValue_unknown {v : Value}
    (h : ∀ ref ∈ v.vars, r.document.symbols.lookupKey ref.group .var none ref.scope = none) :
    renderValue v r = .ok (Text.trim v.toText) r := by
  rw [renderValue, renderWith, bind_apply, mapM_still (g := Value.partText)]
  · rfl
  · intro part member
    cases part with
    | text text => rfl
    | var ref =>
      have known : ref ∈ v.vars := List.mem_filterMap.2 ⟨.var ref, member, rfl⟩
      have unknown := resolveVarAt_unknown (h ref known) maxVarDepth
      dsimp only
      rw [bind_apply, resolveVar, unknown]
      rfl

end Resolve

namespace Parse
open SourceText

/-- A value has the text of its source, from its first token through its last, exactly if each of
its references is the last thing in it or has the next token right behind it. Where its groups
are all unknown, its text is what is written for it, up to white space at the ends. -/
theorem value_toText_eq_source_iff {source : String} {stream : TokenStream}
    (tokenizes : TokenStream.ofSource source = .ok stream) (options : ParseOptions)
    {s s' : ParseState} {v : Value}
    (run : value (ParseInput.ofTokens source stream.tokens options) s = .ok v s') :
    let input := ParseInput.ofTokens source stream.tokens options
    s.cursor < s'.cursor ∧
      (∃ text, slice? source.toList (input.token s.cursor).span.start
          (input.token (s'.cursor - 1)).span.stop = some text ∧
        (v.toText = text ↔ input.Unspaced s.cursor s'.cursor)) ∧
      ∀ r : ResolveState,
        (∀ ref ∈ v.vars, r.document.symbols.lookupKey ref.group .var none ref.scope = none) →
          Resolve.renderValue v r = .ok (Text.trim v.toText) r := by
  intro input
  have laid := ParseInput.laid_ofSource tokenizes options
  obtain ⟨lt, bound, shown⟩ := value_shown laid run
  have first := laid.starts s.cursor (by omega)
  have last := laid.stops (s'.cursor - 1) (by omega)
  have ordered := Nat.le_trans
    (laid.start_le_start (show s.cursor ≤ s'.cursor - 1 by omega) (by omega))
    (laid.start_le_stop (s'.cursor - 1) (by omega))
  exact ⟨lt, ⟨_, slice?_eq_segment first last ordered, shown.eq_iff first last ordered⟩,
    fun r unknown => Resolve.renderValue_unknown unknown⟩

/-- The space behind a reference is lost. -/
theorem value_toText_spaced :
    ∃ stream v s', TokenStream.ofSource "var(a) solid" = .ok stream ∧
      value (ParseInput.ofTokens "var(a) solid" stream.tokens {}) {} = .ok v s' ∧
      v.toText = "var(a)solid" ∧
      ¬ (ParseInput.ofTokens "var(a) solid" stream.tokens {}).Unspaced 0 s'.cursor := by
  have read : (match TokenStream.ofSource "var(a) solid" with
      | .error _ => none
      | .ok stream =>
        let input := ParseInput.ofTokens "var(a) solid" stream.tokens {}
        match value input {} with
        | .error _ _ => none
        | .ok v s' => some (v.toText, slice? "var(a) solid".toList (input.token 0).span.start
            (input.token (s'.cursor - 1)).span.stop)) =
      some ("var(a)solid", some "var(a) solid") := by decide +kernel
  split at read
  · cases read
  · rename_i stream tokenizes
    dsimp only at read
    split at read
    · cases read
    · rename_i v s' run
      simp only [Option.some.injEq, Prod.mk.injEq] at read
      obtain ⟨shown, source⟩ := read
      refine ⟨stream, v, s', tokenizes, run, shown, fun unspaced => ?_⟩
      obtain ⟨-, ⟨text, slice, same⟩, -⟩ := value_toText_eq_source_iff tokenizes {} run
      rw [source] at slice
      cases slice
      have kept := same.2 unspaced
      rw [shown] at kept
      exact absurd kept (by decide)

end Parse

end TemplateMarkup
