import Mathlib.Algebra.Group.Int.Defs
import Mathlib.Data.List.Lex
import Mathlib.Order.Lattice
import Mathlib.Tactic.Common

/-!
# Machine integers

A Rust `u8`, `u32`, `u64` and `i64` is Lean's `UInt8`, `UInt32`, `UInt64` and
`Int64`. Bytes and words are linearly ordered (so byte strings are, in
dictionary order), and `saturating_add` and `saturating_sub` clamp to the type's range.
-/

namespace Wires

instance instLinearOrderUInt8 : LinearOrder UInt8 where
  le_refl := UInt8.le_refl
  le_trans _ _ _ := UInt8.le_trans
  lt_iff_le_not_ge a b := by
    rw [UInt8.not_le]
    exact ⟨fun h => ⟨UInt8.le_of_lt h, h⟩, fun h => h.2⟩
  le_antisymm _ _ := UInt8.le_antisymm
  le_total a b := UInt8.le_total a b
  toDecidableLE := inferInstance

instance instLinearOrderUInt64 : LinearOrder UInt64 where
  le_refl := UInt64.le_refl
  le_trans _ _ _ := UInt64.le_trans
  lt_iff_le_not_ge a b := by
    rw [UInt64.not_le]
    exact ⟨fun h => ⟨UInt64.le_of_lt h, h⟩, fun h => h.2⟩
  le_antisymm _ _ := UInt64.le_antisymm
  le_total a b := UInt64.le_total a b
  toDecidableLE := inferInstance

/-- `i64::saturating_add`. -/
def satAdd (a b : Int64) : Int64 := Int64.ofIntClamp (a.toInt + b.toInt)

/-- `i64::saturating_sub`. -/
def satSub (a b : Int64) : Int64 := Int64.ofIntClamp (a.toInt - b.toInt)

theorem toInt_ofIntClamp (x : Int) :
    (Int64.ofIntClamp x).toInt = max (-2 ^ 63) (min x (2 ^ 63 - 1)) := by
  have hmin : Int64.minValue.toInt = -2 ^ 63 := by decide
  have hmax : Int64.maxValue.toInt = 2 ^ 63 - 1 := by decide
  unfold Int64.ofIntClamp
  split_ifs with h1 h2
  · rw [Int64.toInt_ofIntLE]; omega
  · rw [hmax]; omega
  · rw [hmin]; omega

theorem toInt_satAdd (a b : Int64) :
    (satAdd a b).toInt = max (-2 ^ 63) (min (a.toInt + b.toInt) (2 ^ 63 - 1)) :=
  toInt_ofIntClamp _

theorem toInt_satSub (a b : Int64) :
    (satSub a b).toInt = max (-2 ^ 63) (min (a.toInt - b.toInt) (2 ^ 63 - 1)) :=
  toInt_ofIntClamp _

/-- `i64::from` on a `u32`. -/
def i64OfU32 (n : UInt32) : Int64 := Int64.ofInt n.toNat

theorem toInt_i64OfU32 (n : UInt32) : (i64OfU32 n).toInt = n.toNat := by
  have := n.toNat_lt
  exact Int64.toInt_ofInt_of_le (by omega) (by omega)

end Wires
