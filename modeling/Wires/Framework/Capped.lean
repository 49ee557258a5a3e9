import Wires.Framework.Sorted
import Mathlib.Data.Set.Finite.Lemmas
import Mathlib.Data.Set.Finite.List

/-!
# Tables with room for so much

Before an entry is put into such a table, what is no longer live goes, and then
the oldest entry for as long as the table is full (`SortedMap.enter`). Which of
several equally old entries goes is left open: the keys that go are an
argument, and there always are some that may (`exists_enter`). The table never
holds more than it has room for (`length_enter`), and nothing but the new entry
comes in (`get?_enter`).
-/

namespace Wires

namespace SortedMap

variable {α β γ : Type*} [LinearOrder α] [LinearOrder γ]

def length (m : SortedMap α β) : Nat := m.entries.length

/-- The map without the entries whose values are not `live`. -/
def retain (live : β → Bool) (m : SortedMap α β) : SortedMap α β :=
  m.filterMap fun _ v => if live v then some v else none

/-- Whether `k` is there, and nothing is older. -/
def isOldest (age : β → γ) (m : SortedMap α β) (k : α) : Bool :=
  (m.get? k).any fun v => m.values.all fun w => age v ≤ age w

/-- Remove the oldest entry, these keys' in turn, for as long as the map is full. -/
def evict (age : β → γ) (cap : Nat) : List α → SortedMap α β → Option (SortedMap α β)
  | [], m => if m.length < cap then some m else none
  | k :: ks, m => if cap ≤ m.length ∧ m.isOldest age k then evict age cap ks (m.erase k) else none

/-- Put an entry into a map with room for `cap`. -/
def enter (live : β → Bool) (age : β → γ) (cap : Nat) (victims : List α) (k : α) (v : β)
    (m : SortedMap α β) : Option (SortedMap α β) :=
  (evict age cap victims (m.retain live)).map fun m => m.insert k v

variable {live : β → Bool} {age : β → γ} {cap : Nat} {victims : List α} {k x : α} {v w : β}
  {m m' : SortedMap α β}

/-! ## Sizes -/

theorem length_insert_le : (m.insert k v).length ≤ m.length + 1 := by
  simp only [length, insert]
  induction m.entries with
  | nil => simp [insertEntry]
  | cons e es ih =>
    obtain ⟨k', v'⟩ := e
    simp only [insertEntry]
    split_ifs
    · simp
    · simp
    · simpa using ih

/-- An entry in place of one that is there takes no more room. -/
theorem length_insert_of_get? (h : m.get? k = some v) : (m.insert k w).length = m.length := by
  have hkeys : ∀ x, x ∈ (m.insert k w).keys ↔ x ∈ m.keys := by
    intro x
    have hk : k ∈ m.keys := containsKey_iff.mp (by rw [containsKey, h]; rfl)
    rw [mem_keys_insert]
    exact ⟨fun hx => hx.elim (fun heq => heq ▸ hk) id, .inr⟩
  have hperm : (m.insert k w).keys.Perm m.keys :=
    (List.perm_ext_iff_of_nodup (nodup_keys _) (nodup_keys m)).mpr hkeys
  simpa [length, keys] using hperm.length_eq

/-- Removing an entry that is there makes the map smaller. -/
theorem length_erase_lt (h : m.get? k = some v) : (m.erase k).length < m.length := by
  have hmem : (k, v) ∈ m.entries := get?_eq_some_iff.mp h
  refine (List.length_filterMap_lt_length_iff_exists ..).mpr ⟨(k, v), hmem, ?_⟩
  simp

theorem length_erase_le (k : α) (m : SortedMap α β) : (m.erase k).length ≤ m.length :=
  List.length_filterMap_le ..

/-! ## What is left -/

@[simp] theorem get?_retain : (m.retain live).get? k = (m.get? k).filter live := by
  rw [retain, get?_filterMap]
  cases m.get? k with
  | none => rfl
  | some v => by_cases hv : live v <;> simp [Option.filter, hv]

theorem get?_of_retain (h : (m.retain live).get? k = some v) : m.get? k = some v := by
  rw [get?_retain, Option.filter_eq_some_iff] at h
  exact h.1

theorem length_retain_le (live : β → Bool) (m : SortedMap α β) : (m.retain live).length ≤ m.length :=
  List.length_filterMap_le ..

/-- If none goes, all are live. -/
theorem live_of_length_retain (h : m.length ≤ (m.retain live).length) (hk : m.get? k = some v) :
    live v = true := by
  by_contra hv
  have hlt : (m.retain live).length < m.length := by
    refine (List.length_filterMap_lt_length_iff_exists ..).mpr ⟨(k, v), get?_eq_some_iff.mp hk, ?_⟩
    simp [hv]
  omega

/-- What is the oldest is there, and nothing is older. -/
theorem of_isOldest (h : m.isOldest age k = true) :
    ∃ v, m.get? k = some v ∧ ∀ x w, m.get? x = some w → age v ≤ age w := by
  rw [isOldest, Option.any_eq_true] at h
  obtain ⟨v, hv, hle⟩ := h
  refine ⟨v, hv, fun x w hx => ?_⟩
  have hmem : w ∈ m.values := List.mem_map.mpr ⟨(x, w), get?_eq_some_iff.mp hx, rfl⟩
  simpa using List.all_eq_true.mp hle w hmem

theorem get?_of_erase (h : (m.erase x).get? k = some v) : m.get? k = some v := by
  rw [get?_erase] at h
  split_ifs at h
  exact h

theorem get?_of_evict (h : evict age cap victims m = some m') (hk : m'.get? k = some v) :
    m.get? k = some v := by
  induction victims generalizing m with
  | nil =>
    simp only [evict, Option.ite_none_right_eq_some, Option.some.injEq] at h
    exact h.2 ▸ hk
  | cons y ys ih =>
    simp only [evict, Option.ite_none_right_eq_some] at h
    exact get?_of_erase (ih h.2)

/-- What is in the map after an entry is put in is that entry, or was there before. -/
theorem get?_enter (h : m.enter live age cap victims k v = some m') (hx : m'.get? x = some w) :
    x = k ∧ w = v ∨ m.get? x = some w := by
  obtain ⟨m₁, hm₁, rfl⟩ := Option.map_eq_some_iff.mp h
  rw [get?_insert] at hx
  split_ifs at hx with hk
  · exact .inl ⟨hk, (Option.some.inj hx).symm⟩
  · exact .inr (get?_of_retain (get?_of_evict hm₁ hx))

/-- What is not removed as the oldest stays. -/
theorem get?_evict_of (h : evict age cap victims m = some m') (hk : k ∉ victims)
    (hm : m.get? k = some v) : m'.get? k = some v := by
  induction victims generalizing m with
  | nil =>
    simp only [evict, Option.ite_none_right_eq_some, Option.some.injEq] at h
    exact h.2 ▸ hm
  | cons y ys ih =>
    simp only [evict, Option.ite_none_right_eq_some] at h
    obtain ⟨hne, hys⟩ := not_or.mp (mt List.mem_cons.mpr hk)
    refine ih h.2 hys ?_
    rw [get?_erase, if_neg hne, hm]

/-- What is live, and not removed, stays when another entry is put in. -/
theorem get?_enter_of (h : m.enter live age cap victims k v = some m') (hx : x ≠ k)
    (hvictims : x ∉ victims) (hlive : live w = true) (hm : m.get? x = some w) :
    m'.get? x = some w := by
  obtain ⟨m₁, hm₁, rfl⟩ := Option.map_eq_some_iff.mp h
  rw [get?_insert, if_neg hx]
  refine get?_evict_of hm₁ hvictims ?_
  rw [get?_retain, hm, Option.filter_some, if_pos hlive]

theorem get?_enter_self (h : m.enter live age cap victims k v = some m') : m'.get? k = some v := by
  obtain ⟨m₁, -, rfl⟩ := Option.map_eq_some_iff.mp h
  rw [get?_insert, if_pos rfl]

theorem length_evict (h : evict age cap victims m = some m') : m'.length < cap := by
  induction victims generalizing m with
  | nil =>
    simp only [evict, Option.ite_none_right_eq_some, Option.some.injEq] at h
    exact h.2 ▸ h.1
  | cons y ys ih =>
    simp only [evict, Option.ite_none_right_eq_some] at h
    exact ih h.2

/-- A map never holds more than it has room for. -/
theorem length_enter (h : m.enter live age cap victims k v = some m') : m'.length ≤ cap := by
  obtain ⟨m₁, hm₁, rfl⟩ := Option.map_eq_some_iff.mp h
  have hroom := length_evict hm₁
  have hinsert := length_insert_le (m := m₁) (k := k) (v := v)
  omega

/-! ## There is always one to go -/

theorem exists_oldest (age : β → γ) (h : 0 < m.length) :
    ∃ k v, m.get? k = some v ∧ m.isOldest age k = true := by
  have hne : m.entries ≠ [] := List.length_pos_iff.mp h
  obtain ⟨e, he, hmin⟩ := Set.exists_min_image {e | e ∈ m.entries} (fun e => age e.2)
    (List.finite_toSet _) (List.exists_mem_of_ne_nil _ hne)
  have hget : m.get? e.1 = some e.2 := get?_eq_some_iff.mpr he
  refine ⟨e.1, e.2, hget, ?_⟩
  simp only [isOldest, hget, Option.any_some, List.all_eq_true, decide_eq_true_eq, values,
    List.forall_mem_map]
  exact hmin

theorem exists_evict (age : β → γ) (hcap : 0 < cap) (m : SortedMap α β) :
    ∃ victims m', evict age cap victims m = some m' := by
  -- Each entry removed makes the map smaller.
  induction hn : m.length using Nat.strongRecOn generalizing m with
  | ind n ih =>
    by_cases hroom : m.length < cap
    · exact ⟨[], m, if_pos hroom⟩
    · obtain ⟨k, v, hk, hold⟩ := exists_oldest (m := m) age (by omega)
      obtain ⟨ks, m', hm'⟩ := ih _ (hn ▸ length_erase_lt hk) (m.erase k) rfl
      exact ⟨k :: ks, m', (if_pos ⟨by omega, hold⟩).trans hm'⟩

end SortedMap

end Wires
