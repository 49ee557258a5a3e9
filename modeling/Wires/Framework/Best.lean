import Mathlib.Data.List.Perm.Basic
import Mathlib.Data.List.Perm.Subperm
import Mathlib.Data.List.Dedup
import Mathlib.Data.List.Sort
import Mathlib.Data.List.MinMax

/-!
# The best of each owner, and the best few of those

Values come one at a time, each with an owner and a rank. `Leads` says what it
is to hold, of those seen, the best of each owner, as far as there is room:
whoever is held is held with their best, and whoever is not ranks no higher than
anyone held. Each way to take one more value in, or to refuse it, keeps that
(`keep`, `refuse`, `replace`, `join`, `displace`). The ranks held are then the
first ones of the best of each owner (`ranks`), whatever was held in between.
-/

namespace Wires

variable {α κ γ : Type*} [LinearOrder γ]

/-- The best rank of a list's values. -/
def bestRank (rank : α → γ) (ws : List α) : Option γ := (ws.map rank).max?

/-- The best rank of each owner. -/
def bests [DecidableEq κ] (owner : α → κ) (rank : α → γ) (ws : List α) : List γ :=
  (ws.map owner).dedup.filterMap fun k => bestRank rank (ws.filter fun w => owner w = k)

/-- The highest of some ranks, in order. -/
def leading (cap : Nat) (rs : List γ) : List γ := (rs.insertionSort (· ≥ ·)).take cap

/-- What is held of what was seen. -/
structure Leads (owner : α → κ) (rank : α → γ) (cap : Nat) (seen held : List α) : Prop where
  sub : ∀ h ∈ held, h ∈ seen
  nodup : (held.map owner).Nodup
  length : held.length ≤ cap
  best : ∀ h ∈ held, ∀ w ∈ seen, owner w = owner h → rank w ≤ rank h
  rest : ∀ w ∈ seen, owner w ∉ held.map owner → held.length = cap ∧ ∀ h ∈ held, rank w ≤ rank h

section

variable {owner : α → κ} {rank : α → γ} {cap : Nat} {seen held held' l : List α} {w h : α}

theorem bestRank_eq_some {ws : List α} {r : γ} :
    bestRank rank ws = some r ↔ (∃ w ∈ ws, rank w = r) ∧ ∀ w ∈ ws, rank w ≤ r := by
  rw [bestRank, List.max?_eq_some_iff]
  simp

theorem leading_perm {rs rs' : List γ} (h : rs.Perm rs') : leading cap rs = leading cap rs' := by
  have hsort : rs.insertionSort (· ≥ ·) = rs'.insertionSort (· ≥ ·) :=
    ((List.perm_insertionSort _ rs).trans (h.trans (List.perm_insertionSort _ rs').symm)).eq_of_pairwise
      (fun a b _ _ hab hba => le_antisymm hba hab) (List.pairwise_insertionSort _ _)
      (List.pairwise_insertionSort _ _)
  rw [leading, hsort, leading]

/-- The highest of ranks of which some are no lower than any other, and as many as there is room
for. -/
theorem leading_append {rs others : List γ} (hlength : rs.length ≤ cap)
    (hothers : ∀ r ∈ others, rs.length = cap ∧ ∀ r' ∈ rs, r ≤ r') :
    leading cap (rs ++ others) = rs.insertionSort (· ≥ ·) := by
  have hsorted : (rs.insertionSort (· ≥ ·) ++ others.insertionSort (· ≥ ·)).Pairwise (· ≥ ·) := by
    refine List.pairwise_append.mpr ⟨List.pairwise_insertionSort _ _,
      List.pairwise_insertionSort _ _, fun r hr r' hr' => ?_⟩
    exact (hothers r' ((List.mem_insertionSort _).mp hr')).2 r ((List.mem_insertionSort _).mp hr)
  have hperm : ((rs ++ others).insertionSort (· ≥ ·)).Perm
      (rs.insertionSort (· ≥ ·) ++ others.insertionSort (· ≥ ·)) :=
    (List.perm_insertionSort _ _).trans
      ((List.perm_insertionSort _ rs).append (List.perm_insertionSort _ others)).symm
  have heq := hperm.eq_of_pairwise (fun a b _ _ hab hba => le_antisymm hba hab)
    (List.pairwise_insertionSort _ _) hsorted
  rw [leading, heq]
  cases others with
  | nil =>
    rw [List.insertionSort_nil, List.append_nil, List.take_of_length_le]
    rwa [List.length_insertionSort]
  | cons r others =>
    have hfull := (hothers r List.mem_cons_self).1
    rw [List.take_append_of_le_length (by simp [hfull]), List.take_of_length_le (by simp [hfull])]

namespace Leads

/-- Nothing has been seen. -/
theorem nil (owner : α → κ) (rank : α → γ) (cap : Nat) : Leads owner rank cap [] [] where
  sub := by simp
  nodup := by simp
  length := by simp
  best := by simp
  rest := by simp

theorem rank_of_mem [DecidableEq κ] (hl : Leads owner rank cap seen held) (hh : h ∈ held) :
    bestRank rank (seen.filter fun w => owner w = owner h) = some (rank h) := by
  refine bestRank_eq_some.mpr ⟨⟨h, by simpa using hl.sub h hh, rfl⟩, fun w hw => ?_⟩
  simp only [List.mem_filter, decide_eq_true_eq] at hw
  exact hl.best h hh w hw.1 hw.2

/-- The ranks held are the highest of the best ranks of all owners. -/
theorem ranks [DecidableEq κ] (hl : Leads owner rank cap seen held) :
    (held.map rank).Perm (leading cap (bests owner rank seen)) := by
  have hheld : ((seen.map owner).dedup.filter fun k => k ∈ held.map owner).Perm (held.map owner) := by
    refine (List.perm_ext_iff_of_nodup ((List.nodup_dedup _).filter _) hl.nodup).mpr fun k => ?_
    simp only [List.mem_filter, List.mem_dedup, decide_eq_true_eq, and_iff_right_iff_imp]
    intro hk
    obtain ⟨h, hh, rfl⟩ := List.mem_map.mp hk
    exact List.mem_map_of_mem (hl.sub h hh)
  generalize hothers : ((seen.map owner).dedup.filter fun k => !decide (k ∈ held.map owner)) = others
  have hkeys : (seen.map owner).dedup.Perm (held.map owner ++ others) :=
    (List.filter_append_perm (fun k => decide (k ∈ held.map owner)) _).symm.trans
      (hothers ▸ hheld.append_right _)
  have hranks : (held.map owner).filterMap (fun k =>
      bestRank rank (seen.filter fun w => owner w = k)) = held.map rank := by
    rw [List.filterMap_map, ← List.filterMap_eq_map]
    exact List.filterMap_congr fun h hh => hl.rank_of_mem hh
  have hperm := hkeys.filterMap fun k => bestRank rank (seen.filter fun w => owner w = k)
  rw [List.filterMap_append, hranks] at hperm
  rw [bests, leading_perm hperm, leading_append]
  · exact (List.perm_insertionSort _ _).symm
  · rw [List.length_map]
    exact hl.length
  · intro r hr
    obtain ⟨k, hk, hbest⟩ := List.mem_filterMap.mp hr
    obtain ⟨⟨w, hw, rfl⟩, -⟩ := bestRank_eq_some.mp hbest
    simp only [List.mem_filter, decide_eq_true_eq] at hw
    obtain ⟨hseen, rfl⟩ := hw
    rw [← hothers] at hk
    have hnot : owner w ∉ held.map owner := by simpa using (List.mem_filter.mp hk).2
    obtain ⟨hfull, hle⟩ := hl.rest w hseen hnot
    rw [List.length_map]
    exact ⟨hfull, List.forall_mem_map.mpr hle⟩

/-! ## One more value -/

/-- A value that its owner already has one no worse than. -/
theorem keep (hl : Leads owner rank cap seen held) (hh : h ∈ held) (howner : owner w = owner h)
    (hle : rank w ≤ rank h) : Leads owner rank cap (w :: seen) held where
  sub x hx := List.mem_cons_of_mem _ (hl.sub x hx)
  nodup := hl.nodup
  length := hl.length
  best x hx y hy hxy := by
    rcases List.mem_cons.mp hy with rfl | hy
    · have hsame : x = h := List.inj_on_of_nodup_map hl.nodup hx hh (hxy.symm.trans howner)
      exact hsame ▸ hle
    · exact hl.best x hx y hy hxy
  rest y hy hnot := by
    rcases List.mem_cons.mp hy with rfl | hy
    · exact absurd (List.mem_map.mpr ⟨h, hh, howner.symm⟩) hnot
    · exact hl.rest y hy hnot

/-- A value of a new owner, no better than any held, where there is no room. -/
theorem refuse (hl : Leads owner rank cap seen held) (howner : owner w ∉ held.map owner)
    (hfull : held.length = cap) (hle : ∀ h ∈ held, rank w ≤ rank h) :
    Leads owner rank cap (w :: seen) held where
  sub x hx := List.mem_cons_of_mem _ (hl.sub x hx)
  nodup := hl.nodup
  length := hl.length
  best x hx y hy hxy := by
    rcases List.mem_cons.mp hy with rfl | hy
    · exact absurd (List.mem_map.mpr ⟨x, hx, hxy.symm⟩) howner
    · exact hl.best x hx y hy hxy
  rest y hy hnot := by
    rcases List.mem_cons.mp hy with rfl | hy
    · exact ⟨hfull, hle⟩
    · exact hl.rest y hy hnot

/-- A value better than the one its owner has. -/
theorem replace (hl : Leads owner rank cap seen held) (hold : held.Perm (h :: l))
    (hnew : held'.Perm (w :: l)) (howner : owner w = owner h) (hlt : rank h ≤ rank w) :
    Leads owner rank cap (w :: seen) held' := by
  have hmem : ∀ x ∈ l, x ∈ held := fun x hx => hold.mem_iff.mpr (List.mem_cons_of_mem _ hx)
  have hh : h ∈ held := hold.mem_iff.mpr List.mem_cons_self
  have hkeys : (held'.map owner).Perm (held.map owner) := by
    refine (hnew.map owner).trans ((hold.map owner).trans ?_).symm
    simp [howner]
  have hlength : held'.length = held.length := by simp [hnew.length_eq, hold.length_eq]
  have hnodup := hl.nodup
  rw [(hold.map owner).nodup_iff, List.map_cons, List.nodup_cons] at hnodup
  refine ⟨fun x hx => ?_, hkeys.nodup_iff.mpr hl.nodup, hlength ▸ hl.length, fun x hx y hy hxy => ?_,
    fun y hy hnot => ?_⟩
  · rcases List.mem_cons.mp (hnew.mem_iff.mp hx) with rfl | hx
    · exact List.mem_cons_self
    · exact List.mem_cons_of_mem _ (hl.sub x (hmem x hx))
  · rcases List.mem_cons.mp (hnew.mem_iff.mp hx) with rfl | hx
    · rcases List.mem_cons.mp hy with rfl | hy
      · exact le_rfl
      · exact (hl.best h hh y hy (hxy.trans howner)).trans hlt
    · rcases List.mem_cons.mp hy with rfl | hy
      · exact absurd (List.mem_map.mpr ⟨x, hx, hxy.symm.trans howner⟩) hnodup.1
      · exact hl.best x (hmem x hx) y hy hxy
  · rw [hkeys.mem_iff] at hnot
    rcases List.mem_cons.mp hy with rfl | hy
    · exact absurd (List.mem_map.mpr ⟨h, hh, howner.symm⟩) hnot
    · obtain ⟨hfull, hle⟩ := hl.rest y hy hnot
      refine ⟨hlength.trans hfull, fun x hx => ?_⟩
      rcases List.mem_cons.mp (hnew.mem_iff.mp hx) with rfl | hx
      · exact (hle h hh).trans hlt
      · exact hle x (hmem x hx)

/-- A value of a new owner, where there is room. -/
theorem join (hl : Leads owner rank cap seen held) (hnew : held'.Perm (w :: held))
    (howner : owner w ∉ held.map owner) (hroom : held.length < cap) :
    Leads owner rank cap (w :: seen) held' := by
  have hnone : ∀ y ∈ seen, owner y ∈ held.map owner := fun y hy => by
    by_contra hnot
    have hfull := (hl.rest y hy hnot).1
    omega
  have hkeys := hnew.map owner
  refine ⟨fun x hx => ?_, ?_, ?_, fun x hx y hy hxy => ?_, fun y hy hnot => ?_⟩
  · rcases List.mem_cons.mp (hnew.mem_iff.mp hx) with rfl | hx
    · exact List.mem_cons_self
    · exact List.mem_cons_of_mem _ (hl.sub x hx)
  · rw [hkeys.nodup_iff]
    exact List.nodup_cons.mpr ⟨howner, hl.nodup⟩
  · rw [hnew.length_eq, List.length_cons]
    omega
  · rcases List.mem_cons.mp (hnew.mem_iff.mp hx) with rfl | hx
    · rcases List.mem_cons.mp hy with rfl | hy
      · exact le_rfl
      · exact absurd (hxy ▸ hnone y hy) howner
    · rcases List.mem_cons.mp hy with rfl | hy
      · exact absurd (List.mem_map.mpr ⟨x, hx, hxy.symm⟩) howner
      · exact hl.best x hx y hy hxy
  · rw [hkeys.mem_iff, List.map_cons] at hnot
    rcases List.mem_cons.mp hy with rfl | hy
    · exact absurd List.mem_cons_self hnot
    · exact absurd (List.mem_cons_of_mem _ (hnone y hy)) hnot

/-- A value of a new owner that takes the place of the worst one held. -/
theorem displace (hl : Leads owner rank cap seen held) (hold : held.Perm (h :: l))
    (hnew : held'.Perm (w :: l)) (howner : owner w ∉ held.map owner) (hfull : held.length = cap)
    (hworst : ∀ x ∈ held, rank h ≤ rank x) (hlt : rank h ≤ rank w) :
    Leads owner rank cap (w :: seen) held' := by
  have hmem : ∀ x ∈ l, x ∈ held := fun x hx => hold.mem_iff.mpr (List.mem_cons_of_mem _ hx)
  have hh : h ∈ held := hold.mem_iff.mpr List.mem_cons_self
  have hkeys := hnew.map owner
  have hlength : held'.length = held.length := by simp [hnew.length_eq, hold.length_eq]
  have hnodup := hl.nodup
  rw [(hold.map owner).nodup_iff, List.map_cons, List.nodup_cons] at hnodup
  have hnot : owner w ∉ l.map owner := fun hc => howner (by
    obtain ⟨x, hx, hxw⟩ := List.mem_map.mp hc
    exact List.mem_map.mpr ⟨x, hmem x hx, hxw⟩)
  -- Whoever is not held ranks no higher than the one that goes.
  have hbelow : ∀ y ∈ seen, owner y ∉ l.map owner → rank y ≤ rank h := fun y hy hc => by
    by_cases hyh : owner y = owner h
    · exact hl.best h hh y hy hyh
    · refine (hl.rest y hy fun hin => ?_).2 h hh
      rcases List.mem_cons.mp (((hold.map owner).mem_iff).mp hin) with heq | hin
      · exact hyh heq
      · exact hc hin
  refine ⟨fun x hx => ?_, ?_, hlength ▸ hl.length, fun x hx y hy hxy => ?_, fun y hy hout => ?_⟩
  · rcases List.mem_cons.mp (hnew.mem_iff.mp hx) with rfl | hx
    · exact List.mem_cons_self
    · exact List.mem_cons_of_mem _ (hl.sub x (hmem x hx))
  · rw [hkeys.nodup_iff]
    exact List.nodup_cons.mpr ⟨hnot, hnodup.2⟩
  · rcases List.mem_cons.mp (hnew.mem_iff.mp hx) with rfl | hx
    · rcases List.mem_cons.mp hy with rfl | hy
      · exact le_rfl
      · exact (hbelow y hy (hxy ▸ hnot)).trans hlt
    · rcases List.mem_cons.mp hy with rfl | hy
      · exact absurd (List.mem_map.mpr ⟨x, hx, hxy.symm⟩) hnot
      · exact hl.best x (hmem x hx) y hy hxy
  · rw [hkeys.mem_iff, List.map_cons, List.mem_cons, not_or] at hout
    rcases List.mem_cons.mp hy with rfl | hy
    · exact absurd rfl hout.1
    · have hyh := hbelow y hy hout.2
      refine ⟨hlength.trans hfull, fun x hx => ?_⟩
      rcases List.mem_cons.mp (hnew.mem_iff.mp hx) with rfl | hx
      · exact hyh.trans hlt
      · exact hyh.trans (hworst x (hmem x hx))

/-- What was seen matters as a set only. -/
theorem congr (hl : Leads owner rank cap seen held) {seen' : List α} (h : ∀ x, x ∈ seen ↔ x ∈ seen') :
    Leads owner rank cap seen' held where
  sub x hx := (h x).mp (hl.sub x hx)
  nodup := hl.nodup
  length := hl.length
  best x hx y hy := hl.best x hx y ((h y).mpr hy)
  rest y hy := hl.rest y ((h y).mpr hy)

end Leads

end

end Wires
