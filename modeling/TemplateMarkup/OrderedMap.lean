/-! Maps that remember the order in which their keys were first written. -/
namespace TemplateMarkup

/-- Entries in order, no key twice. -/
structure OrderedMap (κ ν : Type) where
  entries : List (κ × ν)
  nodup : (entries.map Prod.fst).Nodup

namespace OrderedMap

variable {κ ν : Type}

def empty : OrderedMap κ ν := ⟨[], by simp⟩

instance : EmptyCollection (OrderedMap κ ν) := ⟨empty⟩

instance : Inhabited (OrderedMap κ ν) := ⟨empty⟩

def toList (m : OrderedMap κ ν) : List (κ × ν) := m.entries

def keys (m : OrderedMap κ ν) : List κ := m.entries.map Prod.fst

def values (m : OrderedMap κ ν) : List ν := m.entries.map Prod.snd

def size (m : OrderedMap κ ν) : Nat := m.entries.length

def isEmpty (m : OrderedMap κ ν) : Bool := m.entries.isEmpty

theorem ext_entries {m n : OrderedMap κ ν} (h : m.entries = n.entries) : m = n := by
  cases m
  cases n
  cases h
  rfl

instance [DecidableEq κ] [DecidableEq ν] : DecidableEq (OrderedMap κ ν) := fun m n =>
  if h : m.entries = n.entries then isTrue (ext_entries h)
  else isFalse fun e => h (congrArg entries e)

theorem nodup_insertAt {i : Nat} {key : κ} {value : ν} {entries : List (κ × ν)}
    (h : (entries.map Prod.fst).Nodup) (hk : key ∉ entries.map Prod.fst) :
    ((entries.take i ++ (key, value) :: entries.drop i).map Prod.fst).Nodup := by
  have split : ((entries.take i).map Prod.fst ++ (entries.drop i).map Prod.fst).Nodup := by
    rw [← List.map_append, List.take_append_drop]
    exact h
  have absent : key ∉ (entries.take i).map Prod.fst ∧ key ∉ (entries.drop i).map Prod.fst := by
    rw [← List.take_append_drop i entries, List.map_append, List.mem_append] at hk
    exact ⟨fun hx => hk (.inl hx), fun hx => hk (.inr hx)⟩
  rw [List.nodup_append] at split
  obtain ⟨front, back, apart⟩ := split
  rw [List.map_append, List.map_cons, List.nodup_append, List.nodup_cons]
  refine ⟨front, ⟨absent.2, back⟩, ?_⟩
  intro a ha b hb
  rcases List.mem_cons.1 hb with rfl | hb
  · exact fun e => absent.1 (e ▸ ha)
  · exact apart a ha b hb

variable [DecidableEq κ]

def lookupEntry (key : κ) : List (κ × ν) → Option ν
  | [] => none
  | (k, v) :: rest => if k = key then some v else lookupEntry key rest

def get? (m : OrderedMap κ ν) (key : κ) : Option ν := lookupEntry key m.entries

def contains (m : OrderedMap κ ν) (key : κ) : Bool := (m.get? key).isSome

/-- The number of keys before `key`, if the map has it. -/
def indexOf? (m : OrderedMap κ ν) (key : κ) : Option Nat := m.keys.findIdx? (· = key)

/-- Writes a value over the one a key has, or a new entry at the end. -/
def writeEntry (key : κ) (value : ν) : List (κ × ν) → List (κ × ν)
  | [] => [(key, value)]
  | (k, v) :: rest =>
    if k = key then (key, value) :: rest else (k, v) :: writeEntry key value rest

theorem mem_keys_writeEntry {key x : κ} {value : ν} {entries : List (κ × ν)} :
    x ∈ (writeEntry key value entries).map Prod.fst ↔ x = key ∨ x ∈ entries.map Prod.fst := by
  induction entries with
  | nil => simp [writeEntry]
  | cons e rest ih =>
    obtain ⟨k, v⟩ := e
    by_cases h : k = key
    · subst h
      simp [writeEntry]
    · simp only [writeEntry, h, if_false, List.map_cons, List.mem_cons, ih]
      constructor
      · rintro (h | h | h)
        · exact .inr (.inl h)
        · exact .inl h
        · exact .inr (.inr h)
      · rintro (h | h | h)
        · exact .inr (.inl h)
        · exact .inl h
        · exact .inr (.inr h)

theorem nodup_writeEntry {key : κ} {value : ν} {entries : List (κ × ν)}
    (h : (entries.map Prod.fst).Nodup) :
    ((writeEntry key value entries).map Prod.fst).Nodup := by
  induction entries with
  | nil => simp [writeEntry]
  | cons e rest ih =>
    obtain ⟨k, v⟩ := e
    simp only [List.map_cons, List.nodup_cons] at h
    by_cases hk : k = key
    · subst hk
      simpa [writeEntry] using h
    · rw [writeEntry, if_neg hk, List.map_cons, List.nodup_cons, mem_keys_writeEntry]
      exact ⟨fun hx => hx.elim hk h.1, ih h.2⟩

/-- A key that the map has keeps its place and takes the new value; another goes to the end. -/
def insert (m : OrderedMap κ ν) (key : κ) (value : ν) : OrderedMap κ ν :=
  ⟨writeEntry key value m.entries, nodup_writeEntry m.nodup⟩

def without (key : κ) (entries : List (κ × ν)) : List (κ × ν) :=
  entries.filter fun e => e.1 ≠ key

theorem keys_without (key : κ) (entries : List (κ × ν)) :
    (without key entries).map Prod.fst = (entries.map Prod.fst).filter fun k => k ≠ key := by
  induction entries with
  | nil => rfl
  | cons e rest ih =>
    by_cases h : e.1 = key <;> simp_all [without]

theorem nodup_without {key : κ} {entries : List (κ × ν)} (h : (entries.map Prod.fst).Nodup) :
    ((without key entries).map Prod.fst).Nodup := by
  rw [keys_without]
  exact h.filter _

/-- Takes a key out; the others keep their order. -/
def erase (m : OrderedMap κ ν) (key : κ) : OrderedMap κ ν :=
  ⟨without key m.entries, nodup_without m.nodup⟩

theorem key_not_mem_without (key : κ) (entries : List (κ × ν)) :
    key ∉ (without key entries).map Prod.fst := by
  rw [keys_without]
  simp

/-- Puts a key before the key that stands at `index` once the key itself is taken out, or at
the end when there are not so many. -/
def insertAt (m : OrderedMap κ ν) (index : Nat) (key : κ) (value : ν) : OrderedMap κ ν :=
  let rest := m.erase key
  ⟨rest.entries.take index ++ (key, value) :: rest.entries.drop index,
    nodup_insertAt rest.nodup (key_not_mem_without key m.entries)⟩

/-- Inserts entries one after the other. -/
def insertAll (m : OrderedMap κ ν) (entries : List (κ × ν)) : OrderedMap κ ν :=
  entries.foldl (fun m e => m.insert e.1 e.2) m

def ofList (entries : List (κ × ν)) : OrderedMap κ ν := insertAll {} entries

/-- Changes the value of a key that the map has. -/
def modify (m : OrderedMap κ ν) (key : κ) (f : ν → ν) : OrderedMap κ ν :=
  match m.get? key with
  | some value => m.insert key (f value)
  | none => m

end OrderedMap

end TemplateMarkup
