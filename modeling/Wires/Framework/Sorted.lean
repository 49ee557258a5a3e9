import Mathlib.Order.Lattice
import Mathlib.Data.List.Basic
import Mathlib.Tactic.Common

/-!
# Sorted maps and sets

`SortedMap α β` is a map as the list of its entries in increasing key order:
the strict order is a field, so two maps with the same entries are equal and
a key occurs once. `SortedMap.insert` replaces or adds an entry, and
`SortedMap.collect` inserts a list of entries in turn. Collecting a list that
is already sorted gives that list (`collect_entries`), which is what makes a
map that is flattened and rebuilt the same map. `SortedSet α` is a map to
`Unit`.
-/

namespace Wires

variable {α β : Type*} [LinearOrder α]

/-- A map whose entries are strictly increasing in their key. -/
structure SortedMap (α β : Type*) [LinearOrder α] where
  entries : List (α × β)
  sorted : (entries.map Prod.fst).Pairwise (· < ·)

/-- A set, as a map to `Unit`. -/
abbrev SortedSet (α : Type*) [LinearOrder α] := SortedMap α Unit

/-- The value of the last entry of a key. -/
def lastOf (es : List (α × β)) (k : α) : Option β := es.reverse.lookup k

theorem lastOf_cons (e : α × β) (es : List (α × β)) (k : α) :
    lastOf (e :: es) k = (lastOf es k).or (if k = e.1 then some e.2 else none) := by
  rw [lastOf, List.reverse_cons, List.lookup_append, List.lookup_cons]
  by_cases hk : k = e.1
  · rw [if_pos hk, beq_iff_eq.mpr hk]
    rfl
  · rw [if_neg hk, beq_false_of_ne hk]
    rfl

theorem mem_of_lastOf {es : List (α × β)} {k : α} {v : β} (h : lastOf es k = some v) :
    (k, v) ∈ es := by
  induction es with
  | nil => exact absurd h nofun
  | cons e es ih =>
    rw [lastOf_cons, Option.or_eq_some_iff] at h
    rcases h with hes | ⟨-, he⟩
    · exact List.mem_cons_of_mem e (ih hes)
    · split_ifs at he with hk
      obtain rfl := Option.some.inj he
      exact hk ▸ List.mem_cons_self

theorem lastOf_eq_none_iff {es : List (α × β)} {k : α} :
    lastOf es k = none ↔ k ∉ es.map Prod.fst := by
  induction es with
  | nil => simp [lastOf]
  | cons e es ih =>
    rw [lastOf_cons, Option.or_eq_none_iff, ih, List.map_cons, List.mem_cons, not_or]
    by_cases hk : k = e.1 <;> simp [hk]

/-- With no key twice, the last entry of a key is its only one. -/
theorem lastOf_eq_some_iff {es : List (α × β)} (h : (es.map Prod.fst).Nodup) {k : α} {v : β} :
    lastOf es k = some v ↔ (k, v) ∈ es := by
  refine ⟨mem_of_lastOf, fun hmem => ?_⟩
  induction es with
  | nil => exact absurd hmem List.not_mem_nil
  | cons e es ih =>
    rw [List.map_cons, List.nodup_cons] at h
    rw [lastOf_cons]
    rcases List.mem_cons.mp hmem with rfl | hmem
    · rw [lastOf_eq_none_iff.mpr h.1, if_pos rfl]
      rfl
    · rw [ih h.2 hmem]
      rfl

/-- The last of the entries whose keys are kept. -/
theorem lastOf_filter (p : α → Bool) (es : List (α × β)) (k : α) :
    lastOf (es.filter fun e => p e.1) k = if p k then lastOf es k else none := by
  induction es with
  | nil => simp [lastOf]
  | cons e es ih =>
    rw [List.filter_cons, lastOf_cons]
    by_cases he : p e.1
    · rw [if_pos he, lastOf_cons, ih]
      by_cases hk : k = e.1
      · simp [hk, he]
      · simp [hk]
    · rw [if_neg he, ih]
      by_cases hk : k = e.1
      · simp [hk, he]
      · simp [hk]

namespace SortedMap

@[ext] theorem ext {m n : SortedMap α β} (h : m.entries = n.entries) : m = n := by
  cases m; cases n; simp_all

instance [DecidableEq β] : DecidableEq (SortedMap α β) := fun _ _ =>
  decidable_of_iff _ ⟨SortedMap.ext, congrArg SortedMap.entries⟩

/-- The map with no entry. -/
def empty : SortedMap α β := ⟨[], List.Pairwise.nil⟩

instance : EmptyCollection (SortedMap α β) := ⟨empty⟩

@[simp] theorem entries_empty : (∅ : SortedMap α β).entries = [] := rfl

/-- The map with one entry. -/
def single (k : α) (v : β) : SortedMap α β := ⟨[(k, v)], List.pairwise_singleton _ _⟩

@[simp] theorem entries_single (k : α) (v : β) : (single k v).entries = [(k, v)] := rfl

/-- The keys, in order. -/
def keys (m : SortedMap α β) : List α := m.entries.map Prod.fst

/-- The values, in key order. -/
def values (m : SortedMap α β) : List β := m.entries.map Prod.snd

/-- The value at `k`, if any. -/
def get? (m : SortedMap α β) (k : α) : Option β := m.entries.lookup k

/-- Whether `k` has an entry. -/
def containsKey (m : SortedMap α β) (k : α) : Bool := (m.get? k).isSome

theorem nodup_keys (m : SortedMap α β) : m.keys.Nodup := m.sorted.imp ne_of_lt

theorem get?_eq_some_iff {m : SortedMap α β} {k : α} {v : β} :
    m.get? k = some v ↔ (k, v) ∈ m.entries := by
  obtain ⟨es, hs⟩ := m
  simp only [get?]
  induction es with
  | nil => simp
  | cons e es ih =>
    obtain ⟨k', v'⟩ := e
    simp only [List.map_cons, List.pairwise_cons] at hs
    by_cases hk : k = k'
    · subst hk
      have hout : (k, v) ∉ es := fun hm =>
        lt_irrefl k (hs.1 k (List.mem_map_of_mem (f := Prod.fst) hm))
      simp [List.lookup_cons_self, hout, eq_comm]
    · rw [List.lookup_cons]
      simp [hk, beq_false_of_ne hk, ih hs.2]

theorem containsKey_iff {m : SortedMap α β} {k : α} : m.containsKey k = true ↔ k ∈ m.keys := by
  simp only [containsKey, Option.isSome_iff_exists, get?_eq_some_iff, keys, List.mem_map,
    Prod.exists, exists_and_right, exists_eq_right]

theorem get?_eq_none_iff {m : SortedMap α β} {k : α} : m.get? k = none ↔ k ∉ m.keys := by
  rw [← containsKey_iff, containsKey]
  cases m.get? k <;> simp

/-- Insertion into the entry list: replaces the value of a key that is there. -/
def insertEntry (k : α) (v : β) : List (α × β) → List (α × β)
  | [] => [(k, v)]
  | (k', v') :: es =>
    if k < k' then (k, v) :: (k', v') :: es
    else if k = k' then (k, v) :: es
    else (k', v') :: insertEntry k v es

theorem mem_keys_insertEntry {k x : α} {v : β} {es : List (α × β)} :
    x ∈ (insertEntry k v es).map Prod.fst ↔ x = k ∨ x ∈ es.map Prod.fst := by
  induction es with
  | nil => simp [insertEntry]
  | cons e es ih =>
    obtain ⟨k', v'⟩ := e
    simp only [insertEntry]
    split_ifs with h1 h2
    · simp
    · simp [h2]
    · simp only [List.map_cons, List.mem_cons, ih]
      tauto

theorem sorted_insertEntry {k : α} {v : β} {es : List (α × β)}
    (h : (es.map Prod.fst).Pairwise (· < ·)) :
    ((insertEntry k v es).map Prod.fst).Pairwise (· < ·) := by
  induction es with
  | nil => simp [insertEntry]
  | cons e es ih =>
    obtain ⟨k', v'⟩ := e
    have h' := h
    simp only [List.map_cons, List.pairwise_cons] at h'
    simp only [insertEntry]
    split_ifs with h1 h2
    · refine List.pairwise_cons.mpr ⟨fun x hx => ?_, h⟩
      rcases List.mem_cons.mp hx with rfl | hx
      · exact h1
      · exact h1.trans (h'.1 x hx)
    · subst h2
      exact h
    · refine List.pairwise_cons.mpr ⟨fun x hx => ?_, ih h'.2⟩
      rcases mem_keys_insertEntry.mp hx with rfl | hx
      · exact lt_of_le_of_ne (not_lt.mp h1) (Ne.symm h2)
      · exact h'.1 x hx

/-- The map with `v` at `k`, whatever was there. -/
def insert (m : SortedMap α β) (k : α) (v : β) : SortedMap α β :=
  ⟨insertEntry k v m.entries, sorted_insertEntry m.sorted⟩

theorem lookup_insertEntry (k x : α) (v : β) (es : List (α × β))
    (h : (es.map Prod.fst).Pairwise (· < ·)) :
    (insertEntry k v es).lookup x = if x = k then some v else es.lookup x := by
  induction es with
  | nil => by_cases hx : x = k <;> simp [insertEntry, hx]
  | cons e es ih =>
    obtain ⟨k', v'⟩ := e
    simp only [List.map_cons, List.pairwise_cons] at h
    simp only [insertEntry]
    by_cases hx : x = k
    · subst hx
      rw [if_pos rfl]
      split_ifs with h1 h2
      · exact List.lookup_cons_self
      · exact List.lookup_cons_self
      · rw [List.lookup_cons, beq_false_of_ne h2, ih h.2, if_pos rfl]
    · rw [if_neg hx]
      split_ifs with h1 h2
      · rw [List.lookup_cons, beq_false_of_ne hx]
      · subst h2
        simp only [List.lookup_cons, beq_false_of_ne hx]
      · rw [List.lookup_cons, ih h.2, if_neg hx, List.lookup_cons]

theorem get?_insert (m : SortedMap α β) (k x : α) (v : β) :
    (m.insert k v).get? x = if x = k then some v else m.get? x :=
  lookup_insertEntry k x v m.entries m.sorted

theorem mem_keys_insert {m : SortedMap α β} {k x : α} {v : β} :
    x ∈ (m.insert k v).keys ↔ x = k ∨ x ∈ m.keys := mem_keys_insertEntry

/-- The map without the entries that `f` drops, and what it makes of the others' values. -/
def filterMap {γ : Type*} (m : SortedMap α β) (f : α → β → Option γ) : SortedMap α γ :=
  ⟨m.entries.filterMap fun e => (f e.1 e.2).map fun v => (e.1, v), by
    have hsub : ((m.entries.filterMap fun e => (f e.1 e.2).map fun v => (e.1, v)).map
        Prod.fst).Sublist (m.entries.map Prod.fst) := by
      induction m.entries with
      | nil => simp
      | cons e es ih =>
        cases hf : f e.1 e.2 with
        | none => simpa [List.filterMap_cons, hf] using ih.cons e.1
        | some v => simpa [List.filterMap_cons, hf] using ih.cons_cons e.1
    exact m.sorted.sublist hsub⟩

theorem lookup_filterMapEntry {γ : Type*} (f : α → β → Option γ) (k : α) {es : List (α × β)}
    (h : (es.map Prod.fst).Nodup) :
    (es.filterMap fun e => (f e.1 e.2).map fun v => (e.1, v)).lookup k =
      (es.lookup k).bind (f k) := by
  induction es with
  | nil => rfl
  | cons e es ih =>
    obtain ⟨k', v⟩ := e
    simp only [List.map_cons, List.nodup_cons] at h
    have hrest := ih h.2
    by_cases hk : k = k'
    · subst hk
      rw [List.lookup_cons_self, Option.bind_some, List.filterMap_cons]
      cases hf : f k v with
      | some w => simp
      | none =>
        have hnone : es.lookup k = none := by
          rw [List.lookup_eq_none_iff]
          intro p hp
          have hne : k ≠ p.1 := fun he => h.1 (he ▸ List.mem_map_of_mem hp)
          simpa using hne
        simpa [hnone] using hrest
    · rw [List.lookup_cons, beq_false_of_ne hk, List.filterMap_cons]
      cases hf : f k' v with
      | some w => simpa [List.lookup_cons, beq_false_of_ne hk] using hrest
      | none => simpa using hrest

theorem get?_filterMap {γ : Type*} (m : SortedMap α β) (f : α → β → Option γ) (k : α) :
    (m.filterMap f).get? k = (m.get? k).bind (f k) :=
  lookup_filterMapEntry f k m.nodup_keys

/-- The map with nothing at `k`. -/
def erase (m : SortedMap α β) (k : α) : SortedMap α β :=
  m.filterMap fun k' v => if k' = k then none else some v

theorem get?_erase (m : SortedMap α β) (k x : α) :
    (m.erase k).get? x = if x = k then none else m.get? x := by
  rw [erase, get?_filterMap]
  by_cases h : x = k <;> simp [h]

theorem mem_keys_erase {m : SortedMap α β} {k x : α} :
    x ∈ (m.erase k).keys ↔ x ≠ k ∧ x ∈ m.keys := by
  rw [← not_iff_not, ← get?_eq_none_iff, get?_erase, not_and_or, ← get?_eq_none_iff, not_not]
  by_cases h : x = k <;> simp [h]

/-- Looking up each key in turn gives the values. -/
theorem flatMap_get?_keys (m : SortedMap α β) :
    m.keys.flatMap (fun k => (m.get? k).toList) = m.values := by
  have hone : ∀ e ∈ m.entries, (m.get? e.1).toList = [e.2] := fun e he => by
    rw [get?_eq_some_iff.mpr he, Option.toList_some]
  rw [keys, values, List.flatMap_map]
  exact (List.flatMap_congr hone).trans List.map_eq_flatMap.symm

/-- The entries inserted in turn, a later one replacing an earlier one of its key. -/
def collect (es : List (α × β)) : SortedMap α β :=
  es.foldl (fun m e => m.insert e.1 e.2) ∅

/-- The map with the entries inserted in turn. -/
def extend (m : SortedMap α β) (es : List (α × β)) : SortedMap α β :=
  es.foldl (fun m e => m.insert e.1 e.2) m

/-- A key has the value of the last entry that names it, or what it had. -/
theorem get?_extend (m : SortedMap α β) (es : List (α × β)) (k : α) :
    (m.extend es).get? k = (lastOf es k).or (m.get? k) := by
  induction es generalizing m with
  | nil => rfl
  | cons e es ih =>
    have hstep : m.extend (e :: es) = (m.insert e.1 e.2).extend es := rfl
    rw [hstep, ih, get?_insert, lastOf_cons, Option.or_assoc]
    by_cases hk : k = e.1
    · rw [if_pos hk, if_pos hk]
      rfl
    · rw [if_neg hk, if_neg hk]
      rfl

/-- Who is in a set once these are added. -/
theorem containsKey_extend {m : SortedSet α} {ks : List α} {k : α} :
    (m.extend (ks.map fun x => (x, ()))).containsKey k = true ↔ k ∈ ks ∨ m.containsKey k = true := by
  have hlast : lastOf (ks.map fun x => (x, ())) k = none ↔ k ∉ ks := by
    rw [lastOf_eq_none_iff, List.map_map]
    simp
  rw [containsKey, get?_extend, Option.isSome_or, Bool.or_eq_true, ← Option.ne_none_iff_isSome, ne_eq,
    hlast, not_not, containsKey]

theorem mem_keys_collect {es : List (α × β)} {k : α} :
    k ∈ (collect es).keys ↔ k ∈ es.map Prod.fst := by
  suffices h : ∀ m : SortedMap α β, k ∈ (es.foldl (fun m e => m.insert e.1 e.2) m).keys ↔
      k ∈ m.keys ∨ k ∈ es.map Prod.fst by
    exact (h ∅).trans ⟨fun hk => hk.resolve_left nofun, .inr⟩
  induction es with
  | nil => exact fun m => ⟨.inl, fun hk => hk.resolve_right nofun⟩
  | cons e es ih =>
    intro m
    rw [List.foldl_cons, ih, mem_keys_insert, List.map_cons, List.mem_cons]
    tauto

theorem insertEntry_append_of_lt {k : α} {v : β} {es : List (α × β)}
    (h : ∀ x ∈ es.map Prod.fst, x < k) : insertEntry k v es = es ++ [(k, v)] := by
  induction es with
  | nil => rfl
  | cons e es ih =>
    obtain ⟨k', v'⟩ := e
    have hk : k' < k := h k' (by simp)
    rw [insertEntry, if_neg hk.asymm, if_neg hk.ne', ih fun x hx => h x (by simp_all),
      List.cons_append]

/-- Inserting entries above every key of a map appends them. -/
theorem entries_foldl_insert (m : SortedMap α β) (es : List (α × β))
    (h : ((m.entries ++ es).map Prod.fst).Pairwise (· < ·)) :
    (es.foldl (fun m e => m.insert e.1 e.2) m).entries = m.entries ++ es := by
  induction es generalizing m with
  | nil => simp
  | cons e es ih =>
    obtain ⟨k, v⟩ := e
    have hins : (m.insert k v).entries = m.entries ++ [(k, v)] := by
      refine insertEntry_append_of_lt fun x hx => ?_
      rw [List.map_append, List.pairwise_append] at h
      exact h.2.2 x hx k (by simp)
    rw [List.foldl_cons, ih (m.insert k v) (by simpa [hins] using h), hins]
    simp

/-- Collecting a sorted list gives that list. -/
theorem entries_collect {es : List (α × β)} (h : (es.map Prod.fst).Pairwise (· < ·)) :
    (collect es).entries = es := by
  simpa [collect] using entries_foldl_insert ∅ es (by simpa using h)

/-- A map collected from its own entries is that map. -/
@[simp] theorem collect_entries (m : SortedMap α β) : collect m.entries = m :=
  SortedMap.ext (entries_collect m.sorted)

theorem get?_collect (es : List (α × β)) (k : α) : (collect es).get? k = lastOf es k := by
  rw [show collect es = (∅ : SortedMap α β).extend es from rfl, get?_extend]
  exact Option.or_none

end SortedMap

end Wires
