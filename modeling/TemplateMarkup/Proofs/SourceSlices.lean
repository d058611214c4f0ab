import TemplateMarkup.SourceText

/-! Slices of a source between the ends of its characters. -/
namespace TemplateMarkup.SourceText

@[simp] theorem byteLength_nil : byteLength [] = 0 := rfl

@[simp] theorem byteLength_cons (c : Char) (cs : List Char) :
    byteLength (c :: cs) = c.utf8Size + byteLength cs := rfl

@[simp] theorem byteLength_append (a b : List Char) :
    byteLength (a ++ b) = byteLength a + byteLength b := by
  induction a with
  | nil => simp
  | cons c cs ih =>
    rw [List.cons_append, byteLength_cons, byteLength_cons, ih]
    omega

theorem byteLength_eq_zero {cs : List Char} : byteLength cs = 0 ↔ cs = [] := by
  cases cs with
  | nil => simp
  | cons c cs =>
    have := c.utf8Size_pos
    simp only [byteLength_cons, reduceCtorEq, iff_false]
    omega

theorem dropBytes?_append (a b : List Char) : dropBytes? (byteLength a) (a ++ b) = some b := by
  induction a with
  | nil => cases b <;> simp [dropBytes?]
  | cons c cs ih =>
    have := c.utf8Size_pos
    rw [List.cons_append, byteLength_cons, dropBytes?, if_neg (by omega), if_pos (by omega),
      Nat.add_sub_cancel_left, ih]

theorem takeBytes?_append (a b : List Char) : takeBytes? (byteLength a) (a ++ b) = some a := by
  induction a with
  | nil => cases b <;> simp [takeBytes?]
  | cons c cs ih =>
    have := c.utf8Size_pos
    rw [List.cons_append, byteLength_cons, takeBytes?, if_neg (by omega), if_pos (by omega),
      Nat.add_sub_cancel_left, ih, Option.map_some]

theorem slice?_append (a b c : List Char) :
    slice? (a ++ b ++ c) (byteLength a) (byteLength a + byteLength b) =
      some (String.ofList b) := by
  rw [slice?, if_pos (Nat.le_add_right _ _), List.append_assoc, dropBytes?_append,
    Nat.add_sub_cancel_left]
  change (takeBytes? (byteLength b) (b ++ c)).bind (fun text => some (String.ofList text)) = _
  rw [takeBytes?_append]
  rfl

/-- An offset between two characters of a source, or at one of its ends. -/
def IsCut (source : List Char) (offset : Nat) : Prop :=
  ∃ front back, source = front ++ back ∧ byteLength front = offset

/-- Of two ways to cut a source the one at the smaller offset cuts off less. -/
theorem exists_between {front back front' back' : List Char}
    (same : front ++ back = front' ++ back') (le : byteLength front ≤ byteLength front') :
    ∃ middle, front' = front ++ middle ∧ back = middle ++ back' := by
  rcases List.append_eq_append_iff.1 same with ⟨middle, h, h'⟩ | ⟨middle, h, h'⟩
  · exact ⟨middle, h, h'⟩
  · have none : byteLength middle = 0 := by
      rw [h, byteLength_append] at le
      omega
    rw [byteLength_eq_zero] at none
    subst none
    exact ⟨[], by simpa using h.symm, by simpa using h'.symm⟩

/-- The text between two offsets; nothing where they are not cuts in order. -/
def segment (source : List Char) (start stop : Nat) : String :=
  (slice? source start stop).getD ""

section Cuts

variable {source : List Char} {a b c : Nat}

theorem slice?_eq_segment (ha : IsCut source a) (hb : IsCut source b) (le : a ≤ b) :
    slice? source a b = some (segment source a b) := by
  obtain ⟨front, back, rfl, rfl⟩ := ha
  obtain ⟨front', back', same, rfl⟩ := hb
  obtain ⟨middle, rfl, rfl⟩ := exists_between same le
  rw [segment, ← List.append_assoc, byteLength_append, slice?_append, Option.getD_some]

/-- Slices that meet make one slice. -/
theorem segment_append (ha : IsCut source a) (hb : IsCut source b) (hc : IsCut source c)
    (le : a ≤ b) (le' : b ≤ c) :
    segment source a b ++ segment source b c = segment source a c := by
  obtain ⟨front, back, rfl, rfl⟩ := ha
  obtain ⟨front₂, back₂, same, rfl⟩ := hb
  obtain ⟨first, rfl, rfl⟩ := exists_between same le
  obtain ⟨front₃, back₃, same', rfl⟩ := hc
  rw [← List.append_assoc] at same'
  obtain ⟨second, rfl, rfl⟩ := exists_between same' le'
  have left := slice?_append front first (second ++ back₃)
  have right := slice?_append (front ++ first) second back₃
  have whole := slice?_append front (first ++ second) back₃
  simp only [byteLength_append, List.append_assoc, Nat.add_assoc] at left right whole ⊢
  rw [segment, segment, segment, left, right, whole]
  simp [String.ofList_append]

theorem byteLength_segment (ha : IsCut source a) (hb : IsCut source b) (le : a ≤ b) :
    byteLength (segment source a b).toList = b - a := by
  obtain ⟨front, back, rfl, rfl⟩ := ha
  obtain ⟨front', back', same, rfl⟩ := hb
  obtain ⟨middle, rfl, rfl⟩ := exists_between same le
  rw [segment, ← List.append_assoc, byteLength_append, slice?_append]
  simp

end Cuts

end TemplateMarkup.SourceText
