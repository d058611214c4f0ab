import TemplateMarkup.OrderedMap

/-! What a lookup finds after a write. -/
namespace TemplateMarkup.OrderedMap

variable {κ ν : Type} [DecidableEq κ]

theorem lookupEntry_writeEntry (key k : κ) (value : ν) (entries : List (κ × ν)) :
    lookupEntry k (writeEntry key value entries) =
      if k = key then some value else lookupEntry k entries := by
  induction entries with
  | nil => simp only [writeEntry, lookupEntry, eq_comm]
  | cons e rest ih =>
    obtain ⟨k', v⟩ := e
    by_cases h : k' = key
    · subst h
      simp only [writeEntry, if_true, lookupEntry, eq_comm]
      split <;> simp_all
    · simp only [writeEntry, h, if_false, lookupEntry, ih]
      split
      · rw [if_neg]
        rintro rfl
        exact h ‹_›
      · rfl

@[simp] theorem get?_insert (m : OrderedMap κ ν) (key k : κ) (value : ν) :
    (m.insert key value).get? k = if k = key then some value else m.get? k :=
  lookupEntry_writeEntry key k value m.entries

theorem get?_modify (m : OrderedMap κ ν) (key k : κ) (f : ν → ν) :
    (m.modify key f).get? k = if k = key then (m.get? k).map f else m.get? k := by
  unfold modify
  cases h : m.get? key with
  | none | some =>
    by_cases hk : k = key
    · subst hk
      simp [h]
    · simp [hk]

theorem lookupEntry_isSome (key : κ) (entries : List (κ × ν)) :
    (lookupEntry key entries).isSome ↔ key ∈ entries.map Prod.fst := by
  induction entries with
  | nil => simp [lookupEntry]
  | cons e rest ih =>
    obtain ⟨k, v⟩ := e
    by_cases h : k = key
    · simp [lookupEntry, h]
    · simp only [lookupEntry, h, if_false, ih, List.map_cons, List.mem_cons]
      exact ⟨.inr, fun hx => hx.resolve_left fun e => h e.symm⟩

theorem get?_isSome {m : OrderedMap κ ν} {key : κ} : (m.get? key).isSome ↔ key ∈ m.keys :=
  lookupEntry_isSome key m.entries

theorem mem_keys_of_get? {m : OrderedMap κ ν} {key : κ} {value : ν}
    (h : m.get? key = some value) : key ∈ m.keys :=
  get?_isSome.1 (by simp [h])

theorem mem_of_lookupEntry {key : κ} {value : ν} {entries : List (κ × ν)}
    (h : lookupEntry key entries = some value) : (key, value) ∈ entries := by
  induction entries with
  | nil => cases h
  | cons e rest ih =>
    obtain ⟨k, v⟩ := e
    by_cases hk : k = key
    · subst hk
      simp only [lookupEntry, if_true, Option.some.injEq] at h
      simp [h]
    · simp only [lookupEntry, hk, if_false] at h
      exact List.mem_cons_of_mem _ (ih h)

theorem mem_entries_of_get? {m : OrderedMap κ ν} {key : κ} {value : ν}
    (h : m.get? key = some value) : (key, value) ∈ m.entries :=
  mem_of_lookupEntry h

theorem keys_writeEntry_of_mem {key : κ} {value : ν} {entries : List (κ × ν)}
    (h : key ∈ entries.map Prod.fst) :
    (writeEntry key value entries).map Prod.fst = entries.map Prod.fst := by
  induction entries with
  | nil => simp at h
  | cons e rest ih =>
    obtain ⟨k, v⟩ := e
    by_cases hk : k = key
    · simp [writeEntry, hk]
    · rw [List.map_cons, List.mem_cons] at h
      simp [writeEntry, hk, ih (h.resolve_left fun e => hk e.symm)]

/-- Changing a value moves no key. -/
@[simp] theorem keys_modify (m : OrderedMap κ ν) (key : κ) (f : ν → ν) :
    (m.modify key f).keys = m.keys := by
  unfold modify
  cases h : m.get? key with
  | none => rfl
  | some value => exact keys_writeEntry_of_mem (mem_keys_of_get? h)

omit [DecidableEq κ] in
theorem size_eq_length_keys (m : OrderedMap κ ν) : m.size = m.keys.length := by
  simp [size, keys]

theorem split_of_lookupEntry {key : κ} {value : ν} {entries : List (κ × ν)}
    (h : lookupEntry key entries = some value) :
    ∃ front back, entries = front ++ (key, value) :: back ∧
      ∀ other, writeEntry key other entries = front ++ (key, other) :: back := by
  induction entries with
  | nil => cases h
  | cons e rest ih =>
    obtain ⟨k, v⟩ := e
    by_cases hk : k = key
    · subst hk
      rw [lookupEntry, if_pos rfl] at h
      cases h
      exact ⟨[], rest, rfl, fun other => by rw [writeEntry, if_pos rfl]; rfl⟩
    · rw [lookupEntry, if_neg hk] at h
      obtain ⟨front, back, split, written⟩ := ih h
      refine ⟨(k, v) :: front, back, by rw [split]; rfl, fun other => ?_⟩
      rw [writeEntry, if_neg hk, written]
      rfl

/-- Changing one value leaves the others where they stand. -/
theorem split_of_get? {m : OrderedMap κ ν} {key : κ} {value : ν} (h : m.get? key = some value) :
    ∃ front back, m.values = front ++ value :: back ∧
      ∀ f : ν → ν, (m.modify key f).values = front ++ f value :: back := by
  obtain ⟨front, back, split, written⟩ := split_of_lookupEntry h
  refine ⟨front.map Prod.snd, back.map Prod.snd, by simp [values, split], fun f => ?_⟩
  simp [values, modify, h, insert, written]

theorem lookupEntry_of_mem {key : κ} {value : ν} {entries : List (κ × ν)}
    (nodup : (entries.map Prod.fst).Nodup) (member : (key, value) ∈ entries) :
    lookupEntry key entries = some value := by
  induction entries with
  | nil => cases member
  | cons e rest ih =>
    obtain ⟨k, v⟩ := e
    rw [List.map_cons, List.nodup_cons] at nodup
    rcases List.mem_cons.1 member with same | member
    · cases same
      rw [lookupEntry, if_pos rfl]
    · have other : k ≠ key := by
        rintro rfl
        exact nodup.1 (List.mem_map.2 ⟨_, member, rfl⟩)
      rw [lookupEntry, if_neg other]
      exact ih nodup.2 member

theorem get?_of_mem_values {m : OrderedMap κ ν} {value : ν} (h : value ∈ m.values) :
    ∃ key, m.get? key = some value := by
  obtain ⟨⟨key, _⟩, member, rfl⟩ := List.mem_map.1 h
  exact ⟨key, lookupEntry_of_mem m.nodup member⟩

theorem mem_values_of_get? {m : OrderedMap κ ν} {key : κ} {value : ν}
    (h : m.get? key = some value) : value ∈ m.values :=
  List.mem_map_of_mem (mem_entries_of_get? h)

/-- A key that is new goes behind all others. -/
theorem toList_insert {m : OrderedMap κ ν} {key : κ} (new : m.get? key = none) (value : ν) :
    (m.insert key value).toList = m.toList ++ [(key, value)] := by
  unfold get? at new
  simp only [toList, insert]
  generalize m.entries = entries at new
  induction entries with
  | nil => rfl
  | cons e rest ih =>
    obtain ⟨k, v⟩ := e
    have other : k ≠ key := by
      rintro rfl
      rw [lookupEntry, if_pos rfl] at new
      cases new
    rw [lookupEntry, if_neg other] at new
    rw [writeEntry, if_neg other, ih new]
    rfl

theorem values_insert {m : OrderedMap κ ν} {key : κ} (new : m.get? key = none) (value : ν) :
    (m.insert key value).values = m.values ++ [value] := by
  have entries := toList_insert new value
  simp only [toList] at entries
  simp [values, entries]

/-- Entries whose keys are new and different go behind all others. -/
theorem toList_insertAll {m : OrderedMap κ ν} {entries : List (κ × ν)}
    (nodup : (m.keys ++ entries.map Prod.fst).Nodup) :
    (m.insertAll entries).toList = m.toList ++ entries := by
  induction entries generalizing m with
  | nil => simp [insertAll]
  | cons e entries ih =>
    have new : m.get? e.1 = none := by
      refine Option.not_isSome_iff_eq_none.1 fun there => ?_
      exact (List.nodup_append.1 nodup).2.2 _ (get?_isSome.1 there) _ (by simp) rfl
    have inserted := toList_insert new e.2
    have keys : (m.insert e.1 e.2).keys = m.keys ++ [e.1] := by
      simp only [toList] at inserted
      simp [OrderedMap.keys, inserted]
    have step := ih (m := m.insert e.1 e.2) (by rw [keys]; simpa using nodup)
    rw [inserted] at step
    simpa [insertAll] using step

end TemplateMarkup.OrderedMap
