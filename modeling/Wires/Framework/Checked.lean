import Mathlib.Data.Int.Basic
import Mathlib.Tactic.Common

/-!
# Checked 64-bit arithmetic

The operators of Rust's `i64`, on the integers it has: `none` where one
overflows, or divides by zero. Each is the operator on the integers where its
result is one of them (`add_eq` and the rest).
-/

namespace Wires

namespace I64

/-- The integers of an `i64`. -/
def InRange (i : Int) : Prop := -9223372036854775808 ≤ i ∧ i ≤ 9223372036854775807

instance (i : Int) : Decidable (InRange i) := inferInstanceAs (Decidable (_ ∧ _))

/-- A result, if it is an `i64`. -/
def checked (i : Int) : Option Int := if InRange i then some i else none

def add (a b : Int) : Option Int := checked (a + b)

def sub (a b : Int) : Option Int := checked (a - b)

def mul (a b : Int) : Option Int := checked (a * b)

/-- `/`, which truncates. -/
def div (a b : Int) : Option Int := if b = 0 then none else checked (a.tdiv b)

/-- `%`, of the sign of `a`. It overflows where `/` does. -/
def rem (a b : Int) : Option Int := if b = 0 ∨ ¬InRange (a.tdiv b) then none else some (a.tmod b)

def divEuclid (a b : Int) : Option Int := if b = 0 then none else checked (a / b)

def remEuclid (a b : Int) : Option Int := if b = 0 ∨ ¬InRange (a / b) then none else some (a % b)

theorem add_eq {a b : Int} (h : InRange (a + b)) : add a b = some (a + b) := if_pos h

theorem sub_eq {a b : Int} (h : InRange (a - b)) : sub a b = some (a - b) := if_pos h

theorem mul_eq {a b : Int} (h : InRange (a * b)) : mul a b = some (a * b) := if_pos h

theorem divEuclid_eq {a b : Int} (hb : b ≠ 0) (h : InRange (a / b)) :
    divEuclid a b = some (a / b) := by
  rw [divEuclid, if_neg hb]
  exact if_pos h

theorem remEuclid_eq {a b : Int} (hb : b ≠ 0) (h : InRange (a / b)) :
    remEuclid a b = some (a % b) := if_neg (not_or.mpr ⟨hb, not_not.mpr h⟩)

/-- Of what is not negative both divisions are the same. -/
theorem div_eq {a b : Int} (ha : 0 ≤ a) (hb : b ≠ 0) (h : InRange (a / b)) :
    div a b = some (a / b) := by
  rw [div, if_neg hb, Int.tdiv_eq_ediv_of_nonneg ha]
  exact if_pos h

theorem rem_eq {a b : Int} (ha : 0 ≤ a) (hb : b ≠ 0) (h : InRange (a / b)) :
    rem a b = some (a % b) := by
  rw [rem, Int.tdiv_eq_ediv_of_nonneg ha, if_neg (not_or.mpr ⟨hb, not_not.mpr h⟩),
    Int.tmod_eq_emod_of_nonneg ha]

end I64

end Wires
