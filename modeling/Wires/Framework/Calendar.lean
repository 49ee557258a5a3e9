import Mathlib.Data.Int.Init
import Mathlib.Tactic.Common

/-!
# The proleptic Gregorian calendar

A `Date` is a year, one of its months and one of that month's days. Its number
(`Date.dayNumber`) counts the days since 1970-01-01: those of the years before
its own, of the months before its own, and of its month. The number tells dates
apart (`Date.dayNumber_injective`), and is less for an earlier one
(`Date.Earlier.dayNumber_lt`); so is the number of the second, for a time.
-/

namespace Wires

/-- A year of 366 days. -/
def isLeap (y : Int) : Bool := y % 4 = 0 && (y % 100 ≠ 0 || y % 400 = 0)

def yearLength (y : Int) : Int := if isLeap y then 366 else 365

def daysInMonth (y m : Int) : Int :=
  if m = 2 then if isLeap y then 29 else 28
  else if m = 4 ∨ m = 6 ∨ m = 9 ∨ m = 11 then 30
  else 31

/-- A day of the calendar. -/
structure Date where
  year : Int
  month : Int
  day : Int
  month_mem : 1 ≤ month ∧ month ≤ 12
  day_mem : 1 ≤ day ∧ day ≤ daysInMonth year month

/-- A second of a day of the calendar. -/
structure DateTime where
  date : Date
  hour : Int
  minute : Int
  second : Int
  hour_mem : 0 ≤ hour ∧ hour ≤ 23
  minute_mem : 0 ≤ minute ∧ minute ≤ 59
  second_mem : 0 ≤ second ∧ second ≤ 59

/-- The days of `n` years, from the year `y` on. -/
def daysOfYears (y : Int) : Nat → Int
  | 0 => 0
  | n + 1 => daysOfYears y n + yearLength (y + n)

/-- The days from 1970-01-01 to the first of the year `y`. -/
def daysToYear (y : Int) : Int :=
  if 1970 ≤ y then daysOfYears 1970 (y - 1970).toNat else -daysOfYears y (1970 - y).toNat

/-- The days of the first `n` months of the year `y`. -/
def daysOfMonths (y : Int) : Nat → Int
  | 0 => 0
  | n + 1 => daysOfMonths y n + daysInMonth y (n + 1)

/-- The days of the year `y` before its month `m`. -/
def daysToMonth (y m : Int) : Int := daysOfMonths y (m - 1).toNat

/-- The days from 1970-01-01 to the date. -/
def Date.dayNumber (d : Date) : Int := daysToYear d.year + daysToMonth d.year d.month + (d.day - 1)

/-- The seconds from the beginning of 1970-01-01. -/
def DateTime.secondNumber (t : DateTime) : Int :=
  86400 * t.date.dayNumber + (3600 * t.hour + 60 * t.minute + t.second)

/-! ## Years -/

theorem yearLength_pos (y : Int) : 0 < yearLength y := by
  unfold yearLength
  split_ifs
  · decide
  · decide

theorem daysOfYears_first (y : Int) (n : Nat) :
    daysOfYears y (n + 1) = yearLength y + daysOfYears (y + 1) n := by
  induction n with
  | zero =>
    show 0 + yearLength (y + 0) = yearLength y + 0
    rw [Int.add_zero]
    omega
  | succ n ih =>
    have hyear : y + ((n + 1 : Nat) : Int) = y + 1 + n := by omega
    rw [daysOfYears, ih, hyear, daysOfYears]
    omega

/-- A year goes on to the next. -/
theorem daysToYear_succ (y : Int) : daysToYear (y + 1) = daysToYear y + yearLength y := by
  unfold daysToYear
  by_cases h : 1970 ≤ y
  · have hcount : (y + 1 - 1970).toNat = (y - 1970).toNat + 1 := by omega
    have hyear : 1970 + ((y - 1970).toNat : Int) = y := by omega
    rw [if_pos h, if_pos (by omega), hcount, daysOfYears, hyear]
  · obtain ⟨n, hn⟩ : ∃ n : Nat, (1970 - y).toNat = n + 1 := ⟨(1970 - y).toNat - 1, by omega⟩
    rw [if_neg h, hn, daysOfYears_first]
    by_cases hlast : y = 1969
    · have hzero : n = 0 := by omega
      rw [hlast, hzero]
      rfl
    · have hcount : (1970 - (y + 1)).toNat = n := by omega
      rw [if_neg (by omega), hcount]
      omega

theorem daysToYear_mono {y y' : Int} (h : y ≤ y') : daysToYear y ≤ daysToYear y' := by
  obtain ⟨n, rfl⟩ : ∃ n : Nat, y' = y + n := ⟨(y' - y).toNat, by omega⟩
  clear h
  induction n with
  | zero => exact Int.le_of_eq (by simp)
  | succ n ih =>
    have hpos := yearLength_pos (y + n)
    have hnext := daysToYear_succ (y + n)
    have hyear : y + ((n + 1 : Nat) : Int) = y + n + 1 := by omega
    rw [hyear]
    omega

theorem isLeap_iff (y : Int) : isLeap y = true ↔ y % 4 = 0 ∧ (y % 100 ≠ 0 ∨ y % 400 = 0) := by
  simp [isLeap]

/-- Every fourth year is a day longer, but of every hundredth only the fourth is. -/
theorem daysToYear_eq (y : Int) :
    daysToYear y = 365 * (y - 1970) + (y - 1) / 4 - (y - 1) / 100 + (y - 1) / 400 - 477 := by
  have hstep : ∀ y : Int, 365 * (y + 1 - 1970) + (y + 1 - 1) / 4 - (y + 1 - 1) / 100 +
      (y + 1 - 1) / 400 - 477 = 365 * (y - 1970) + (y - 1) / 4 - (y - 1) / 100 + (y - 1) / 400 - 477 +
        yearLength y := by
    intro y
    unfold yearLength
    split_ifs with hleap
    · have hiff := (isLeap_iff y).mp hleap
      omega
    · have hiff := mt (isLeap_iff y).mpr hleap
      omega
  induction y using Int.inductionOn' (b := 1970) with
  | zero => rfl
  | succ k _ ih => rw [daysToYear_succ, ih, hstep]
  | pred k _ ih =>
    have hyear := daysToYear_succ (k - 1)
    have hclosed := hstep (k - 1)
    rw [Int.sub_add_cancel] at hyear hclosed
    omega

/-! ## Months -/

theorem daysInMonth_pos (y m : Int) : 0 < daysInMonth y m := by
  unfold daysInMonth
  split_ifs <;> decide

theorem daysToMonth_one (y : Int) : daysToMonth y 1 = 0 := rfl

theorem daysToMonth_succ (y : Int) {m : Int} (h : 1 ≤ m) :
    daysToMonth y (m + 1) = daysToMonth y m + daysInMonth y m := by
  have hcount : (m + 1 - 1).toNat = (m - 1).toNat + 1 := by omega
  have hmonth : ((m - 1).toNat : Int) + 1 = m := by omega
  rw [daysToMonth, hcount, daysOfMonths, hmonth, daysToMonth]

theorem daysToMonth_mono (y : Int) {m m' : Int} (h : 1 ≤ m) (hle : m ≤ m') :
    daysToMonth y m ≤ daysToMonth y m' := by
  obtain ⟨n, rfl⟩ : ∃ n : Nat, m' = m + n := ⟨(m' - m).toNat, by omega⟩
  clear hle
  induction n with
  | zero => exact Int.le_of_eq (by simp)
  | succ n ih =>
    have hpos := daysInMonth_pos y (m + n)
    have hnext := daysToMonth_succ y (show 1 ≤ m + n by omega)
    have hmonth : m + ((n + 1 : Nat) : Int) = m + n + 1 := by omega
    rw [hmonth]
    omega

/-- The months are the year. -/
theorem daysToMonth_thirteen (y : Int) : daysToMonth y 13 = yearLength y := by
  have hsum : daysToMonth y 13 = daysOfMonths y 12 := rfl
  rw [hsum, yearLength]
  simp only [daysOfMonths, daysInMonth]
  cases isLeap y with
  | true => rfl
  | false => rfl

/-! ## Dates -/

namespace Date

/-- A date is in its year. -/
theorem dayNumber_lt_succ (d : Date) : daysToYear d.year ≤ d.dayNumber ∧
    d.dayNumber < daysToYear (d.year + 1) := by
  have hmem := d.month_mem
  have hmonth := daysToMonth_succ d.year hmem.1
  have hlast := daysToMonth_mono d.year (show 1 ≤ d.month + 1 by omega) (show d.month + 1 ≤ 13 by omega)
  have hfirst := daysToMonth_mono d.year (Int.le_refl 1) hmem.1
  have hday := d.day_mem
  rw [daysToMonth_thirteen] at hlast
  rw [daysToMonth_one] at hfirst
  rw [daysToYear_succ, dayNumber]
  omega

/-- By the year, then the month, then the day. -/
def Earlier (a b : Date) : Prop :=
  a.year < b.year ∨ a.year = b.year ∧ (a.month < b.month ∨ a.month = b.month ∧ a.day < b.day)

/-- An earlier date has a lesser number. -/
theorem Earlier.dayNumber_lt {a b : Date} (h : a.Earlier b) : a.dayNumber < b.dayNumber := by
  rcases h with hyear | ⟨hyear, hmonth | ⟨hmonth, hday⟩⟩
  · have ha := a.dayNumber_lt_succ.2
    have hb := b.dayNumber_lt_succ.1
    have hle := daysToYear_mono (show a.year + 1 ≤ b.year from hyear)
    omega
  · have hmem := a.month_mem
    have hnext := daysToMonth_succ a.year hmem.1
    have hle := daysToMonth_mono a.year (show 1 ≤ a.month + 1 by omega) (show a.month + 1 ≤ b.month from hmonth)
    have ha := a.day_mem
    have hb := b.day_mem
    rw [dayNumber, dayNumber, ← hyear]
    omega
  · rw [dayNumber, dayNumber, ← hyear, ← hmonth]
    omega

/-- A number is of one date. -/
theorem dayNumber_injective : Function.Injective dayNumber := fun a b h => by
  have hab : ¬a.Earlier b := fun hlt => absurd hlt.dayNumber_lt (by omega)
  have hba : ¬b.Earlier a := fun hlt => absurd hlt.dayNumber_lt (by omega)
  unfold Earlier at hab hba
  have hyear : a.year = b.year := by omega
  have hmonth : a.month = b.month := by omega
  have hday : a.day = b.day := by omega
  cases a
  cases b
  simp_all

end Date

namespace DateTime

/-- By the date, then the hour, then the minute, then the second. -/
def Earlier (a b : DateTime) : Prop :=
  a.date.Earlier b.date ∨ a.date = b.date ∧ (a.hour < b.hour ∨
    a.hour = b.hour ∧ (a.minute < b.minute ∨ a.minute = b.minute ∧ a.second < b.second))

/-- An earlier time has a lesser number. -/
theorem Earlier.secondNumber_lt {a b : DateTime} (h : a.Earlier b) :
    a.secondNumber < b.secondNumber := by
  have haHour := a.hour_mem
  have hbHour := b.hour_mem
  have haMinute := a.minute_mem
  have hbMinute := b.minute_mem
  have haSecond := a.second_mem
  have hbSecond := b.second_mem
  unfold secondNumber
  rcases h with hdate | ⟨hdate, htime⟩
  · have hlt := hdate.dayNumber_lt
    omega
  · rw [hdate]
    omega

end DateTime

end Wires
