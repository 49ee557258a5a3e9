import Wires.Framework.Calendar
import Wires.Impl.Utc
import Mathlib.Tactic.IntervalCases

/-!
# The time a text shows

`civil` counts from the first of March of the year 0, in eras of 400 years. A
day of an era is in one of its centuries, in one of the century's cycles of four
years, and in one of the cycle's years, all of which begin in March and have the
day more at their end (`Eras`). So the year it computes is that one
(`year_eq`), and what is left the day of it, which gives the month and its day
(`civilOf`).
-/

namespace Wires

open I64

/-- `days` is the day `doy` of the year `400 era + 100 c + 4 k + j`, which begins in March: of a
century's cycles the last, and of a cycle's years those before the last, have no day more. -/
structure Eras (days era c k j doy : Int) : Prop where
  days_eq : days + 719468 = 146097 * era + (36524 * c + 1461 * k + 365 * j + doy)
  c_mem : 0 ≤ c ∧ c ≤ 3
  k_mem : 0 ≤ k ∧ k ≤ 24
  j_mem : 0 ≤ j ∧ j ≤ 3
  doy_mem : 0 ≤ doy ∧ doy ≤ 365
  last : doy = 365 → j = 3 ∧ (k = 24 → c = 3)

theorem exists_eras (days : Int) : ∃ era c k j doy, Eras days era c k j doy := by
  generalize hdoe : (days + 719468) % 146097 = doe
  generalize hc : min (doe / 36524) 3 = c
  generalize hk : (doe - 36524 * c) / 1461 = k
  generalize hj : min ((doe - 36524 * c - 1461 * k) / 365) 3 = j
  refine ⟨(days + 719468) / 146097, c, k, j, doe - 36524 * c - 1461 * k - 365 * j, ?_, ?_, ?_, ?_, ?_, ?_⟩
  · omega
  · omega
  · omega
  · omega
  · omega
  · intro hlast
    omega

variable {days era c k j doy : Int}

/-- The year of the era, as `civil` computes it. -/
theorem Eras.year_eq (h : Eras days era c k j doy) {doe : Int}
    (hdoe : doe = 36524 * c + 1461 * k + 365 * j + doy) :
    (doe - doe / 1460 + doe / 36524 - doe / 146096) / 365 = 100 * c + 4 * k + j := by
  have hc := h.c_mem
  have hk := h.k_mem
  have hj := h.j_mem
  have hdoy := h.doy_mem
  have hlast := h.last
  -- The last day of an era is the only one past its fourth century.
  have hcentury : doe / 36524 - doe / 146096 = c := by
    by_cases hend : doe = 146096
    · omega
    · have hinside : 1461 * k + 365 * j + doy < 36524 := by omega
      omega
  have hcycle : doe / 1460 = 25 * c + k + (24 * c + k + 365 * j + doy) / 1460 := by omega
  omega

/-- The day of the year, as `civil` computes it. -/
theorem Eras.day_eq (h : Eras days era c k j doy) : 365 * (100 * c + 4 * k + j) +
    (100 * c + 4 * k + j) / 4 - (100 * c + 4 * k + j) / 100 + doy =
      36524 * c + 1461 * k + 365 * j + doy := by
  have hk := h.k_mem
  have hj := h.j_mem
  have hfourth : (100 * c + 4 * k + j) / 4 = 25 * c + k := by omega
  have hcentury : (100 * c + 4 * k + j) / 100 = c := by omega
  omega

theorem Eras.dayOfEra_mem (h : Eras days era c k j doy) :
    0 ≤ 36524 * c + 1461 * k + 365 * j + doy ∧ 36524 * c + 1461 * k + 365 * j + doy < 146097 := by
  have hc := h.c_mem
  have hk := h.k_mem
  have hj := h.j_mem
  have hdoy := h.doy_mem
  omega

theorem Eras.yearOfEra_mem (h : Eras days era c k j doy) :
    0 ≤ 100 * c + 4 * k + j ∧ 100 * c + 4 * k + j ≤ 399 := by
  have hc := h.c_mem
  have hk := h.k_mem
  have hj := h.j_mem
  omega

/-! ## Operators -/

theorem bind_of {α β : Type} {o : Option α} {f : α → Option β} {a : α} {b : β} (ho : o = some a)
    (hf : f a = some b) : (o >>= f) = some b := by
  rw [ho]
  exact hf

theorem fits {i : Int} (h : -9223372036854775808 ≤ i ∧ i ≤ 9223372036854775807) : InRange i :=
  h

theorem yearOfEra_eq {doe : Int} (h : 0 ≤ doe ∧ doe < 146097) : yearOfEra doe =
    some ((doe - doe / 1460 + doe / 36524 - doe / 146096) / 365) := by
  have hcycle := div_eq h.1 (show (1460 : Int) ≠ 0 by decide) (fits (by omega))
  have hcentury := div_eq h.1 (show (36524 : Int) ≠ 0 by decide) (fits (by omega))
  have hera := div_eq h.1 (show (146096 : Int) ≠ 0 by decide) (fits (by omega))
  unfold yearOfEra
  refine bind_of hcycle (bind_of (sub_eq (fits (by omega))) (bind_of hcentury ?_))
  refine bind_of (add_eq (fits (by omega))) (bind_of hera (bind_of (sub_eq (fits (by omega))) ?_))
  exact div_eq (by omega) (by decide) (fits (by omega))

theorem dayOfYear_eq {doe yoe : Int} (h : 0 ≤ doe ∧ doe < 146097) (hyoe : 0 ≤ yoe ∧ yoe ≤ 399) :
    dayOfYear doe yoe = some (doe - (365 * yoe + yoe / 4 - yoe / 100)) := by
  have hfourth := div_eq hyoe.1 (show (4 : Int) ≠ 0 by decide) (fits (by omega))
  have hcentury := div_eq hyoe.1 (show (100 : Int) ≠ 0 by decide) (fits (by omega))
  unfold dayOfYear
  refine bind_of (mul_eq (fits (by omega))) (bind_of hfourth (bind_of (add_eq (fits (by omega))) ?_))
  refine bind_of hcentury (bind_of (sub_eq (fits (by omega))) ?_)
  exact sub_eq (fits (by omega))

/-- The day `doy` from the first of March of the year `y`. -/
def civilOf (y doy : Int) : Civil :=
  let mp := (5 * doy + 2) / 153
  let m := if mp < 10 then mp + 3 else mp - 9
  ⟨if m ≤ 2 then y + 1 else y, m, doy - (153 * mp + 2) / 5 + 1⟩

theorem monthAndDay_eq {y : Int} (hy : -2 ^ 62 ≤ y ∧ y ≤ 2 ^ 62) (h : 0 ≤ doy ∧ doy ≤ 365) :
    monthAndDay y doy = some (civilOf y doy) := by
  have hmp : div (5 * doy + 2) 153 = some ((5 * doy + 2) / 153) :=
    div_eq (by omega) (by decide) (fits (by omega))
  have hmem : 0 ≤ (5 * doy + 2) / 153 ∧ (5 * doy + 2) / 153 ≤ 11 := by omega
  unfold monthAndDay civilOf
  refine bind_of (mul_eq (fits (by omega))) (bind_of (add_eq (fits (by omega))) (bind_of hmp ?_))
  generalize (5 * doy + 2) / 153 = mp at hmem ⊢
  have hbefore : div (153 * mp + 2) 5 = some ((153 * mp + 2) / 5) :=
    div_eq (by omega) (by decide) (fits (by omega))
  refine bind_of (mul_eq (fits (by omega))) (bind_of (add_eq (fits (by omega))) (bind_of hbefore ?_))
  refine bind_of (sub_eq (fits (by omega))) (bind_of (add_eq (fits (by omega))) ?_)
  show (if mp < 10 then _ else _) = some (Civil.mk (if (if mp < 10 then mp + 3 else mp - 9) ≤ 2 then y + 1
    else y) (if mp < 10 then mp + 3 else mp - 9) _)
  split_ifs with hten hlate hjan
  · omega
  · exact bind_of (add_eq (fits (by omega))) (if_neg hlate)
  · exact bind_of (sub_eq (fits (by omega))) ((if_pos hjan).trans (bind_of (add_eq (fits (by omega))) rfl))
  · omega

/-- `civil` overflows nowhere. -/
theorem Eras.civil_eq (h : Eras days era c k j doy) (hrange : -2 ^ 61 ≤ days ∧ days ≤ 2 ^ 61) :
    civil days = some (civilOf (100 * c + 4 * k + j + era * 400) doy) := by
  have hdays := h.days_eq
  have hmem := h.dayOfEra_mem
  have hyoe := h.yearOfEra_mem
  have hyear := yearOfEra_eq hmem
  rw [h.year_eq rfl] at hyear
  have hday : dayOfYear (36524 * c + 1461 * k + 365 * j + doy) (100 * c + 4 * k + j) = some doy := by
    rw [dayOfYear_eq hmem hyoe, ← h.day_eq, add_sub_cancel_left]
  have hera : divEuclid (days + 719468) 146097 = some era := by
    have hdiv : (days + 719468) / 146097 = era := by omega
    rw [← hdiv]
    exact divEuclid_eq (by decide) (fits (by omega))
  have hdoe : remEuclid (days + 719468) 146097 = some (36524 * c + 1461 * k + 365 * j + doy) := by
    have hmod : (days + 719468) % 146097 = 36524 * c + 1461 * k + 365 * j + doy := by omega
    rw [← hmod]
    exact remEuclid_eq (by decide) (fits (by omega))
  unfold civil
  refine bind_of (add_eq (fits (by omega))) (bind_of hera (bind_of hdoe (bind_of hyear ?_)))
  refine bind_of (mul_eq (fits (by omega))) (bind_of (add_eq (fits (by omega))) ?_)
  exact bind_of hday (monthAndDay_eq (by omega) h.doy_mem)

/-! ## The date -/

/-- From March on, the months' lengths are those that `153 / 5` gives. -/
theorem daysInMonth_march (y : Int) {m : Int} (h : 3 ≤ m) (hle : m ≤ 12) :
    (153 * (m - 3) + 2) / 5 + daysInMonth y m = (153 * (m + 1 - 3) + 2) / 5 := by
  interval_cases m <;> rfl

/-- The days of a year before a month after February are those of the year, less those from the
first of March to its end. -/
theorem daysToMonth_march (y : Int) {m : Int} (h : 3 ≤ m) (hle : m ≤ 13) :
    daysToMonth y m = yearLength y - 306 + (153 * (m - 3) + 2) / 5 := by
  induction m, h using Int.leInduction with
  | base =>
    have hsum : daysToMonth y 3 = daysToMonth y (1 + 1 + 1) := rfl
    rw [hsum, daysToMonth_succ y (by decide), daysToMonth_succ y (by decide), daysToMonth_one]
    unfold daysInMonth yearLength
    cases isLeap y with
    | true => rfl
    | false => rfl
  | succ m hm ih =>
    have hmonth := daysInMonth_march y hm (by omega)
    rw [daysToMonth_succ y (by omega), ih (by omega), ← hmonth]
    omega

/-- The day `doy` from the first of March of the year `y` is a date, so many days after it. -/
theorem exists_date {y : Int} (h : 0 ≤ doy ∧ doy ≤ 365) (hlast : doy = 365 → isLeap (y + 1) = true) :
    ∃ d : Date, civilOf y doy = ⟨d.year, d.month, d.day⟩ ∧
      d.dayNumber = daysToYear (y + 1) - 306 + doy := by
  unfold civilOf
  generalize hmp : (5 * doy + 2) / 153 = mp
  have hday : (153 * mp + 2) / 5 ≤ doy ∧ doy < (153 * (mp + 1) + 2) / 5 := by omega
  by_cases hten : mp < 10
  · have hm : 3 ≤ mp + 3 ∧ mp + 3 ≤ 12 := by omega
    have hlength := daysInMonth_march y hm.1 hm.2
    have hbefore := daysToMonth_march y hm.1 (by omega)
    have hyear := daysToYear_succ y
    rw [add_sub_cancel_right] at hlength hbefore
    rw [show mp + 3 + 1 - 3 = mp + 1 by omega] at hlength
    refine ⟨⟨y, mp + 3, doy - (153 * mp + 2) / 5 + 1, by omega, by omega⟩, ?_, ?_⟩
    · have hafter : ¬mp + 3 ≤ 2 := by omega
      simp only [hten, if_true, hafter, if_false]
    · rw [Date.dayNumber]
      show daysToYear y + daysToMonth y (mp + 3) + (doy - (153 * mp + 2) / 5 + 1 - 1) = _
      omega
  · have hbetween : mp = 10 ∨ mp = 11 := by omega
    have hfirst := daysToMonth_one (y + 1)
    have hjanuary : daysToMonth (y + 1) 2 = 31 := rfl
    rcases hbetween with rfl | rfl
    · have hlength : daysInMonth (y + 1) 1 = 31 := rfl
      refine ⟨⟨y + 1, 1, doy - 305, by omega, by omega⟩, ?_, ?_⟩
      · have hd : doy - (153 * 10 + 2) / 5 + 1 = doy - 305 := by omega
        show Civil.mk (y + 1) 1 (doy - (153 * 10 + 2) / 5 + 1) = Civil.mk (y + 1) 1 (doy - 305)
        rw [hd]
      · rw [Date.dayNumber]
        show daysToYear (y + 1) + daysToMonth (y + 1) 1 + (doy - 305 - 1) = _
        omega
    · have hlength : daysInMonth (y + 1) 2 = if isLeap (y + 1) then 29 else 28 := rfl
      have hin : doy - 336 ≤ daysInMonth (y + 1) 2 := by
        rw [hlength]
        split_ifs with hleap
        · omega
        · have hshort := mt hlast hleap
          omega
      refine ⟨⟨y + 1, 2, doy - 336, by omega, ⟨by omega, hin⟩⟩, ?_, ?_⟩
      · have hd : doy - (153 * 11 + 2) / 5 + 1 = doy - 336 := by omega
        show Civil.mk (y + 1) 2 (doy - (153 * 11 + 2) / 5 + 1) = Civil.mk (y + 1) 2 (doy - 336)
        rw [hd]
      · rw [Date.dayNumber]
        show daysToYear (y + 1) + daysToMonth (y + 1) 2 + (doy - 336 - 1) = _
        omega

/-- `civil` gives the date with that number. -/
theorem civil_eq_some (hrange : -2 ^ 61 ≤ days ∧ days ≤ 2 ^ 61) :
    ∃ d : Date, civil days = some ⟨d.year, d.month, d.day⟩ ∧ d.dayNumber = days := by
  obtain ⟨era, c, k, j, doy, h⟩ := exists_eras days
  have hc := h.c_mem
  have hk := h.k_mem
  have hj := h.j_mem
  have hdays := h.days_eq
  have hleap : doy = 365 → isLeap (100 * c + 4 * k + j + era * 400 + 1) = true := by
    intro hlong
    obtain ⟨hlastYear, hlastCycle⟩ := h.last hlong
    rw [isLeap_iff]
    omega
  obtain ⟨d, hd, hnumber⟩ := exists_date h.doy_mem hleap
  refine ⟨d, by rw [h.civil_eq hrange, hd], ?_⟩
  rw [hnumber, daysToYear_eq, add_sub_cancel_right]
  have hfourth : (100 * c + 4 * k + j + era * 400) / 4 = 25 * c + k + 100 * era := by omega
  have hcentury : (100 * c + 4 * k + j + era * 400) / 100 = c + 4 * era := by omega
  have hera : (100 * c + 4 * k + j + era * 400) / 400 = era := by omega
  omega

/-! ## The time -/

/-- The text of a time. -/
def DateTime.text (t : DateTime) : String :=
  utcText ⟨t.date.year, t.date.month, t.date.day⟩ t.hour t.minute t.second

/-- `utc` gives the text of a time of the day. -/
theorem utc_eq_some (ms : Int64) :
    ∃ t : DateTime, utc ms = some t.text ∧ t.date.dayNumber = ms.toInt / 86400000 ∧
      t.secondNumber = ms.toInt / 1000 := by
  have hlow : -9223372036854775808 ≤ ms.toInt := Int64.le_toInt ms
  have hhigh : ms.toInt < 9223372036854775808 := Int64.toInt_lt ms
  unfold utc
  generalize ms.toInt = i at hlow hhigh ⊢
  obtain ⟨d, hd, hnumber⟩ := @civil_eq_some (i / 1000 / 86400) (by omega)
  generalize hleft : i / 1000 % 86400 = left
  have hmem : 0 ≤ left ∧ left < 86400 := by omega
  have hsecs : divEuclid i 1000 = some (i / 1000) := divEuclid_eq (by decide) (fits (by omega))
  have hdays : divEuclid (i / 1000) 86400 = some (i / 1000 / 86400) :=
    divEuclid_eq (by decide) (fits (by omega))
  have hrem : remEuclid (i / 1000) 86400 = some left := by
    rw [← hleft]
    exact remEuclid_eq (by decide) (fits (by omega))
  have hhour : div left 3600 = some (left / 3600) := div_eq hmem.1 (by decide) (fits (by omega))
  have hpast : rem left 3600 = some (left % 3600) := rem_eq hmem.1 (by decide) (fits (by omega))
  have hminute : div (left % 3600) 60 = some (left % 3600 / 60) :=
    div_eq (by omega) (by decide) (fits (by omega))
  have hsecond : rem left 60 = some (left % 60) := rem_eq hmem.1 (by decide) (fits (by omega))
  refine ⟨⟨d, left / 3600, left % 3600 / 60, left % 60, by omega, by omega, by omega⟩, ?_, ?_, ?_⟩
  · exact bind_of hsecs (bind_of hdays (bind_of hrem (bind_of hd (bind_of hhour (bind_of hpast
      (bind_of hminute (bind_of hsecond rfl)))))))
  · show d.dayNumber = _
    omega
  · show 86400 * d.dayNumber + (3600 * (left / 3600) + 60 * (left % 3600 / 60) + left % 60) = _
    omega

/-- **Times.** `utc` overflows nowhere: what it shows of an instant is a date of the calendar and a
time of its day, the second of the instant; and of a later instant nothing earlier. -/
theorem utc_shows : ∃ shown : Int64 → DateTime,
    (∀ ms, utc ms = some (shown ms).text ∧ (shown ms).date.dayNumber = ms.toInt / 86400000 ∧
      (shown ms).secondNumber = ms.toInt / 1000) ∧
    ∀ ms ms', ms ≤ ms' → ¬(shown ms').Earlier (shown ms) := by
  choose shown htext hday hsecond using utc_eq_some
  refine ⟨shown, fun ms => ⟨htext ms, hday ms, hsecond ms⟩, fun ms ms' hle hearlier => ?_⟩
  have hlt := hearlier.secondNumber_lt
  rw [hsecond, hsecond] at hlt
  have hint : ms.toInt ≤ ms'.toInt := Int64.le_iff_toInt_le.mp hle
  omega

end Wires
