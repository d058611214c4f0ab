import Mathlib.Data.List.Nodup
import TemplateMarkup.Proofs.OrderedMapLookup
import TemplateMarkup.Resolving.Edits

/-! Properties are inserted as one block. Those of the block that were there before leave their old
places, on either side of it, and all others keep their order. -/
namespace TemplateMarkup

namespace OrderedMap

variable {κ ν : Type} [DecidableEq κ] {m : OrderedMap κ ν} {key : κ}
  {entries front back : List (κ × ν)}

section Leaving

theorem without_append (key : κ) (front back : List (κ × ν)) :
    without key (front ++ back) = without key front ++ without key back := List.filter_append ..

theorem without_of_not_mem (absent : key ∉ entries.map Prod.fst) :
    without key entries = entries := by
  refine List.filter_eq_self.2 fun e member => ?_
  simp only [ne_eq, decide_eq_true_eq]
  rintro rfl
  exact absent (List.mem_map_of_mem member)

/-- The entries whose keys are not among some. -/
def apart (keys : List κ) (entries : List (κ × ν)) : List (κ × ν) :=
  entries.filter fun e => e.1 ∉ keys

theorem keys_apart (keys : List κ) (entries : List (κ × ν)) :
    (apart keys entries).map Prod.fst = (entries.map Prod.fst).filter (· ∉ keys) := by
  rw [apart, List.filter_map]
  rfl

theorem apart_cons (key : κ) (keys : List κ) (entries : List (κ × ν)) :
    apart (key :: keys) entries = apart keys (without key entries) := by
  rw [apart, apart, without, List.filter_filter]
  refine List.filter_congr fun e _ => ?_
  rw [← Bool.decide_and]
  simp [and_comm]

/-- A key that stays when others leave goes with what stands before it. -/
theorem apart_concat {keys : List κ} (value : ν) (stays : key ∉ keys) (entries : List (κ × ν)) :
    apart keys (entries ++ [(key, value)]) = apart keys entries ++ [(key, value)] := by
  rw [apart, List.filter_append]
  simp [apart, stays]

end Leaving

section Finding

theorem get?_eq_some_iff {value : ν} : m.get? key = some value ↔ (key, value) ∈ m.entries :=
  ⟨mem_of_lookupEntry, lookupEntry_of_mem m.nodup⟩

theorem indexOf?_eq_none_iff : m.indexOf? key = none ↔ key ∉ m.keys := by
  rw [indexOf?, List.findIdx?_eq_none_iff]
  simp only [decide_eq_false_iff_not]
  exact ⟨fun none there => none key there rfl, fun absent k there same => absent (same ▸ there)⟩

theorem split_of_indexOf? {index : Nat} (found : m.indexOf? key = some index) :
    ∃ front value back, m.entries = front ++ (key, value) :: back ∧ front.length = index ∧
      key ∉ front.map Prod.fst ∧ key ∉ back.map Prod.fst := by
  rw [indexOf?, List.findIdx?_eq_some_iff_getElem] at found
  obtain ⟨inside, same, -⟩ := found
  have inside' : index < m.entries.length := by simpa [keys] using inside
  have here : (m.entries[index]).1 = key := by simpa [keys] using same
  have split : m.entries =
      m.entries.take index ++ (key, (m.entries[index]).2) :: m.entries.drop (index + 1) := by
    rw [← here]
    exact ((List.take_append_drop index m.entries).symm).trans
      (congrArg _ (List.drop_eq_getElem_cons inside'))
  have nodup := m.nodup
  rw [split, List.map_append, List.map_cons, List.nodup_middle, List.nodup_cons,
    List.mem_append, not_or] at nodup
  exact ⟨_, _, _, split, by simp [Nat.le_of_lt inside'], nodup.1.1, nodup.1.2⟩

theorem length_without (key : κ) {place : Nat} (split : m.entries = front ++ back)
    (place_eq : front.length = place) :
    (without key front).length =
      (m.indexOf? key).elim place fun old => if old < place then place - 1 else place := by
  cases found : m.indexOf? key with
  | none =>
    have absent := indexOf?_eq_none_iff.1 found
    rw [keys, split, List.map_append, List.mem_append, not_or] at absent
    rw [without_of_not_mem absent.1, place_eq, Option.elim_none]
  | some old =>
    obtain ⟨before, value, behind, split', rfl, notBefore, notBehind⟩ := split_of_indexOf? found
    rw [split] at split'
    rw [Option.elim_some]
    rcases List.append_eq_append_iff.1 split' with ⟨more, rfl, same⟩ | ⟨more, rfl, same⟩
    · -- the key stands behind the place
      rw [List.map_append, List.mem_append, not_or] at notBefore
      rw [without_of_not_mem notBefore.1, if_neg (by simp [← place_eq]), place_eq]
    · cases more with
      | nil =>
        rw [List.append_nil] at place_eq ⊢
        rw [without_of_not_mem notBefore, if_neg (by omega), place_eq]
      | cons e more =>
        rw [List.cons_append] at same
        obtain ⟨rfl, rfl⟩ := List.cons.inj same
        rw [List.map_append, List.mem_append, not_or] at notBehind
        rw [without_append, without_of_not_mem notBefore]
        have gone : without key ((key, value) :: more) = more := by
          rw [without, List.filter_cons_of_neg (by simp)]
          exact without_of_not_mem notBehind.1
        simp only [List.length_append, List.length_cons] at place_eq
        rw [gone, List.length_append, if_pos (by omega)]
        omega

theorem entries_insertAt_erase {index : Nat} (key : κ) (value : ν)
    (split : m.entries = front ++ back)
    (index_eq : (without key front).length = index) :
    ((m.erase key).insertAt index key value).entries =
      without key front ++ (key, value) :: without key back := by
  have rest : (m.erase key).entries = without key front ++ without key back := by
    rw [← without_append, ← split]
    rfl
  have again : ((m.erase key).erase key).entries = without key front ++ without key back := by
    rw [← rest]
    exact without_of_not_mem (key_not_mem_without key m.entries)
  simp only [insertAt, again]
  rw [← index_eq, List.take_left, List.drop_left]

end Finding

end OrderedMap

namespace Content

variable {properties : OrderedMap String Value} {payload front back : List (String × Value)}

/-- A block that is inserted between two parts of the entries stands between what is left of
them. -/
theorem entries_insertFrom (nodup : (payload.map Prod.fst).Nodup)
    (split : properties.entries = front ++ back) :
    (insertFrom front.length payload properties).entries =
      OrderedMap.apart (payload.map Prod.fst) front ++ payload ++
        OrderedMap.apart (payload.map Prod.fst) back := by
  induction payload generalizing properties front back with
  | nil => simp [insertFrom, OrderedMap.apart, split]
  | cons e payload ih =>
    obtain ⟨name, value⟩ := e
    rw [List.map_cons, List.nodup_cons] at nodup
    have place := OrderedMap.length_without name split rfl
    have fits : (OrderedMap.without name front).length ≤ (properties.erase name).size := by
      change _ ≤ (OrderedMap.without name properties.entries).length
      rw [split, OrderedMap.without_append, List.length_append]
      omega
    -- the entry goes behind what is left before the place, and the place moves behind it
    have step := OrderedMap.entries_insertAt_erase name value split rfl
    rw [List.append_cons] at step
    have next := ih nodup.2 step
    rw [List.length_append, List.length_singleton, OrderedMap.apart_concat value nodup.1,
      ← OrderedMap.apart_cons, ← OrderedMap.apart_cons] at next
    have moved : (insertFrom front.length ((name, value) :: payload) properties).entries =
        (insertFrom ((OrderedMap.without name front).length + 1) payload
          ((properties.erase name).insertAt (OrderedMap.without name front).length name
            value)).entries := by
      rw [insertFrom]
      cases found : properties.indexOf? name with
      | none =>
        rw [found, Option.elim_none] at place
        rw [place] at fits ⊢
        dsimp only
        rw [Nat.min_eq_left fits]
      | some old =>
        rw [found, Option.elim_some] at place
        rw [place] at fits ⊢
        dsimp only
        rw [Nat.min_eq_left fits]
    rw [moved, next]
    simp

theorem entries_insertLast (nodup : (payload.map Prod.fst).Nodup) :
    (insertLast payload properties).entries =
      OrderedMap.apart (payload.map Prod.fst) properties.entries ++ payload := by
  induction payload generalizing properties with
  | nil => simp [insertLast, OrderedMap.apart]
  | cons e payload ih =>
    obtain ⟨name, value⟩ := e
    rw [List.map_cons, List.nodup_cons] at nodup
    have absent : (properties.erase name).get? name = none := by
      rw [← Option.not_isSome_iff_eq_none, OrderedMap.get?_isSome]
      exact OrderedMap.key_not_mem_without name properties.entries
    have step : ((properties.erase name).insert name value).entries =
        OrderedMap.without name properties.entries ++ [(name, value)] :=
      OrderedMap.toList_insert absent value
    have next := @ih ((properties.erase name).insert name value) nodup.2
    rw [step, OrderedMap.apart_concat value nodup.1, ← OrderedMap.apart_cons] at next
    exact next.trans (by simp)

end Content

namespace InsertPosition

/-- What a position points at. -/
def target? : InsertPosition → Option Target
  | .before target => some target
  | .after target => some target
  | .replace target => some target
  | .top => none
  | .bottom => none

/-- How a position divides a list: what stands before the place, what is replaced, and what stands
behind. `points` says at which member, behind which others, a target points. -/
inductive Divides {α : Type} (points : Target → List α → α → Prop) :
    InsertPosition → List α → List α → List α → Prop
  | top {all : List α} : Divides points .top [] [] all
  | bottom {all : List α} : Divides points .bottom all [] []
  | before {target : Target} {front back : List α} {x : α} (here : points target front x) :
      Divides points (.before target) front [] (x :: back)
  | after {target : Target} {front back : List α} {x : α} (here : points target front x) :
      Divides points (.after target) (front ++ [x]) [] back
  | replace {target : Target} {front back : List α} {x : α} (here : points target front x) :
      Divides points (.replace target) front [x] back

end InsertPosition

namespace Content

variable {properties : OrderedMap String Value} {position : InsertPosition}

theorem insertProperties_of_missing {target : Target} (points : position.target? = some target)
    (missing : target.name ∉ properties.keys) (payload : OrderedMap String Value) :
    insertProperties properties position payload = .error target.name := by
  have none := OrderedMap.indexOf?_eq_none_iff.2 missing
  unfold insertProperties anchor
  cases position with
  | top | bottom => cases points
  | before other | after other | replace other =>
    cases points
    dsimp only
    rw [none]
    rfl

/-- The entries before and behind the block, and what they come to. -/
theorem exists_insertProperties
    (there : ∀ target ∈ position.target?, target.name ∈ properties.keys)
    (payload : OrderedMap String Value) :
    ∃ front old back result, properties.entries = front ++ old ++ back ∧
      position.Divides (fun target _ key => key = target.name) (front.map Prod.fst)
        (old.map Prod.fst) (back.map Prod.fst) ∧
      insertProperties properties position payload = .ok result ∧
      result.entries = OrderedMap.apart payload.keys front ++ payload.entries ++
        OrderedMap.apart payload.keys back := by
  have found (target : Target) (points : position.target? = some target) :
      ∃ index, properties.indexOf? target.name = some index := by
    refine Option.ne_none_iff_exists'.1 fun none => ?_
    exact OrderedMap.indexOf?_eq_none_iff.1 none (there target points)
  cases position with
  | top =>
    have split : properties.entries = [] ++ properties.entries := rfl
    exact ⟨[], [], properties.entries, _, rfl, .top, rfl, entries_insertFrom payload.nodup split⟩
  | bottom =>
    refine ⟨properties.entries, [], [], _, by simp, .bottom, rfl, ?_⟩
    exact (entries_insertLast payload.nodup).trans (List.append_nil _).symm
  | before target =>
    obtain ⟨index, found⟩ := found target rfl
    obtain ⟨front, value, back, split, rfl, -, -⟩ := OrderedMap.split_of_indexOf? found
    refine ⟨front, [], (target.name, value) :: back, _, by simp [split], .before rfl, ?_,
      entries_insertFrom payload.nodup split⟩
    unfold insertProperties anchor
    dsimp only
    rw [found]
    rfl
  | after target =>
    obtain ⟨index, found⟩ := found target rfl
    obtain ⟨front, value, back, split, rfl, -, -⟩ := OrderedMap.split_of_indexOf? found
    have split' : properties.entries = (front ++ [(target.name, value)]) ++ back := by simp [split]
    refine ⟨front ++ [(target.name, value)], [], back, _, by simp [split], ?_, ?_,
      entries_insertFrom payload.nodup split'⟩
    · rw [List.map_append]
      exact .after rfl
    · unfold insertProperties anchor
      dsimp only
      rw [found, List.length_append]
      rfl
  | replace target =>
    obtain ⟨index, found⟩ := found target rfl
    obtain ⟨front, value, back, split, rfl, notBefore, notBehind⟩ :=
      OrderedMap.split_of_indexOf? found
    have rest : (properties.erase target.name).entries = front ++ back := by
      change OrderedMap.without target.name properties.entries = _
      rw [split, OrderedMap.without_append, OrderedMap.without_of_not_mem notBefore,
        OrderedMap.without, List.filter_cons_of_neg (by simp)]
      exact congrArg _ (OrderedMap.without_of_not_mem notBehind)
    refine ⟨front, [(target.name, value)], back, _, by simp [split], .replace rfl, ?_,
      entries_insertFrom payload.nodup rest⟩
    unfold insertProperties anchor
    dsimp only
    rw [found]
    rfl

end Content

namespace EditState

/-- Where the target is missing, its name is the error and the content stays as it was. Otherwise
the payload stands as one block, with its values, where the position says; before and behind it the
other keys keep their order and their values. -/
theorem insertProperties_block (state : EditState) (site : EditSite) (position : InsertPosition)
    (payload : OrderedMap String Value) :
    let properties := state.content.properties
    let after := (state.insertProperties site position payload).content
    (∀ target ∈ position.target?, target.name ∉ properties.keys →
      Content.insertProperties properties position payload = .error target.name ∧
        after = state.content) ∧
    ((∀ target ∈ position.target?, target.name ∈ properties.keys) →
      ∃ front old back, properties.keys = front ++ old ++ back ∧
        position.Divides (fun target _ key => key = target.name) front old back ∧
        Content.insertProperties properties position payload = .ok after.properties ∧
        after.properties.keys = front.filter (· ∉ payload.keys) ++ payload.keys ++
          back.filter (· ∉ payload.keys) ∧
        (∀ key ∈ payload.keys, after.properties.get? key = payload.get? key) ∧
        ∀ key ∈ front ++ back, key ∉ payload.keys →
          after.properties.get? key = properties.get? key) := by
  intro properties after
  constructor
  · intro target points missing
    have error := Content.insertProperties_of_missing points missing payload
    refine ⟨error, ?_⟩
    change (state.insertProperties site position payload).content = state.content
    unfold insertProperties
    rw [error]
    rfl
  · intro there
    obtain ⟨front, old, back, result, split, divides, ok, entries⟩ :=
      Content.exists_insertProperties there payload
    have after_eq : after.properties = result := by
      change (state.insertProperties site position payload).content.properties = result
      unfold insertProperties
      rw [ok]
    have value_of {key : String} {value : Value} (member : (key, value) ∈ result.entries) :
        result.get? key = some value := OrderedMap.get?_eq_some_iff.2 member
    rw [after_eq]
    refine ⟨front.map Prod.fst, old.map Prod.fst, back.map Prod.fst, ?_, divides, ok, ?_, ?_, ?_⟩
    · rw [← List.map_append, ← List.map_append, ← split]
      rfl
    · rw [OrderedMap.keys, entries, List.map_append, List.map_append, OrderedMap.keys_apart,
        OrderedMap.keys_apart]
      rfl
    · intro key member
      obtain ⟨value, found⟩ := Option.isSome_iff_exists.1 (OrderedMap.get?_isSome.2 member)
      rw [found]
      refine value_of ?_
      rw [entries]
      simp [OrderedMap.mem_entries_of_get? found]
    · intro key member stays
      rw [← List.map_append] at member
      obtain ⟨⟨name, value⟩, inside, rfl⟩ := List.mem_map.1 member
      have was : properties.get? name = some value := by
        rw [OrderedMap.get?_eq_some_iff, split]
        rcases List.mem_append.1 inside with inside | inside
        all_goals simp [inside]
      rw [was]
      refine value_of ?_
      rw [entries, List.append_assoc]
      rcases List.mem_append.1 inside with inside | inside
      all_goals simp [OrderedMap.apart, inside, stays]

/-- Keys of the payload on both sides of the place leave it where it is. -/
theorem insertProperties_block_both_sides :
    let content : Content :=
      { type := .style
        properties := .ofList [("a", .literal "1"), ("b", .literal "2"), ("c", .literal "3"),
          ("d", .literal "4")] }
    let state : EditState := { content, forest := .empty }
    let site := EditSite.definition
      { kind := .custom, type := .style, name := { scope := "", name := "Box" } }
    let payload := OrderedMap.ofList [("c", Value.literal "9"), ("a", Value.literal "8")]
    let after := (state.insertProperties site (.after ⟨"b", none⟩) payload).content.properties
    "b" ∈ content.properties.keys ∧ after.keys = ["b", "c", "a", "d"] ∧
      (∀ key ∈ payload.keys, after.get? key = payload.get? key) ∧
      after.get? "d" = content.properties.get? "d" := by
  intro content state site payload after
  have there : ∀ target ∈ (InsertPosition.after ⟨"b", none⟩).target?,
      target.name ∈ content.properties.keys := by
    rintro _ ⟨⟩
    decide
  obtain ⟨-, -, -, -, -, -, -, brought, -⟩ :=
    (insertProperties_block state site (.after ⟨"b", none⟩) payload).2 there
  exact ⟨by decide, by decide, brought, by decide⟩

end EditState

end TemplateMarkup
