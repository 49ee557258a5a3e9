import Mathlib.Data.List.Basic
import Mathlib.Tactic.Common

/-!
# Digits

A number written in a base up to 16 is read back from its digits
(`toDigits_injective`), which are digits of that base (`mem_toDigits`), so that
none of them is a separator.
-/

namespace Wires

theorem digitChar_inj : ∀ m < 16, ∀ n < 16, Nat.digitChar m = Nat.digitChar n → m = n := by
  decide

variable {b : Nat}

theorem mem_toDigits (hb : 1 < b) {n : Nat} {c : Char} (hc : c ∈ Nat.toDigits b n) :
    ∃ d < b, c = Nat.digitChar d := by
  induction n using Nat.strongRecOn with
  | ind n ih =>
    by_cases hn : n < b
    · rw [Nat.toDigits_of_lt_base hn, List.mem_singleton] at hc
      exact ⟨n, hn, hc⟩
    · rw [Nat.toDigits_of_base_le hb (Nat.le_of_not_lt hn), List.mem_append,
        List.mem_singleton] at hc
      rcases hc with hc | hc
      · exact ih (n / b) (Nat.div_lt_self (by omega) hb) hc
      · exact ⟨n % b, Nat.mod_lt n (by omega), hc⟩

/-- A separator is no digit. -/
theorem notMem_toDigits (hb : 1 < b) (hb' : b ≤ 16) {c : Char}
    (hc : ∀ d < 16, c ≠ Nat.digitChar d) (n : Nat) : c ∉ Nat.toDigits b n := by
  intro hmem
  obtain ⟨d, hd, heq⟩ := mem_toDigits hb hmem
  exact hc d (by omega) heq

theorem toDigits_injective (hb : 1 < b) (hb' : b ≤ 16) : Function.Injective (Nat.toDigits b) := by
  intro m
  induction m using Nat.strongRecOn with
  | ind m ih =>
    intro n h
    have hshort : ∀ k l, k < b → b ≤ l → Nat.toDigits b k ≠ Nat.toDigits b l := by
      intro k l hk hl heq
      rw [Nat.toDigits_of_lt_base hk, Nat.toDigits_of_base_le hb hl] at heq
      have hlength := congrArg List.length heq
      have hpos := @Nat.length_toDigits_pos b (l / b)
      simp only [List.length_append, List.length_singleton] at hlength
      omega
    by_cases hm : m < b
    · by_cases hn : n < b
      · rw [Nat.toDigits_of_lt_base hm, Nat.toDigits_of_lt_base hn] at h
        exact digitChar_inj m (by omega) n (by omega) (List.singleton_inj.mp h)
      · exact absurd h (hshort m n hm (Nat.le_of_not_lt hn))
    · by_cases hn : n < b
      · exact absurd h.symm (hshort n m hn (Nat.le_of_not_lt hm))
      · rw [Nat.toDigits_of_base_le hb (Nat.le_of_not_lt hm),
          Nat.toDigits_of_base_le hb (Nat.le_of_not_lt hn)] at h
        obtain ⟨hhigh, hlow⟩ := List.append_inj' h rfl
        have hquot := ih (m / b) (Nat.div_lt_self (by omega) hb) hhigh
        have hmod : ∀ k, k % b < 16 := fun k => Nat.lt_of_lt_of_le (Nat.mod_lt k (by omega)) hb'
        have hrem := digitChar_inj _ (hmod m) _ (hmod n) (List.singleton_inj.mp hlow)
        rw [← Nat.div_add_mod m b, ← Nat.div_add_mod n b, hquot, hrem]

end Wires
