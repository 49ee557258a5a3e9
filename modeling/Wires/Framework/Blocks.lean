import Mathlib.Data.BitVec

/-!
# Blocks of addresses

A block is the addresses of `w` bits whose first `len` are those of `net`
(`Block.Has`). Masking two addresses alike and comparing them is comparing what
is left of them once the other bits are shifted out (`and_mask_eq_iff`), and so
is dividing them (`Block.has_iff`).
-/

namespace Wires

/-- The addresses that begin as `net` does, for `len` bits. -/
structure Block (w : Nat) where
  net : BitVec w
  len : Nat

namespace Block

variable {w : Nat}

/-- An address of the block. -/
def Has (b : Block w) (a : BitVec w) : Prop := a >>> (w - b.len) = b.net >>> (w - b.len)

instance (b : Block w) (a : BitVec w) : Decidable (b.Has a) := decEq _ _

theorem ushiftRight_eq_iff {a b : BitVec w} {k : Nat} :
    a >>> k = b >>> k ↔ a.toNat / 2 ^ k = b.toNat / 2 ^ k := by
  rw [← BitVec.toNat_inj, BitVec.toNat_ushiftRight, BitVec.toNat_ushiftRight,
    Nat.shiftRight_eq_div_pow, Nat.shiftRight_eq_div_pow]

theorem has_iff {b : Block w} {a : BitVec w} :
    b.Has a ↔ a.toNat / 2 ^ (w - b.len) = b.net.toNat / 2 ^ (w - b.len) :=
  ushiftRight_eq_iff

/-- Two addresses agree under a mask of leading ones where they begin alike. -/
theorem and_mask_eq_iff {a b : BitVec w} {k : Nat} :
    a &&& (BitVec.allOnes w <<< k) = b &&& (BitVec.allOnes w <<< k) ↔ a >>> k = b >>> k := by
  constructor
  · intro h
    ext i hi
    have hbit := congrArg (fun x => x.getLsbD (k + i)) h
    by_cases hk : k + i < w
    · have hle : ¬k + i < k := by omega
      simpa [hk, hle] using hbit
    · simp only [BitVec.getElem_ushiftRight]
      rw [BitVec.getLsbD_of_ge _ _ (by omega), BitVec.getLsbD_of_ge _ _ (by omega)]
  · intro h
    ext i hi
    have hbit := congrArg (fun x => x.getLsbD (i - k)) h
    by_cases hk : i < k
    · simp [hk]
    · have hki : k + (i - k) = i := by omega
      simp only [BitVec.getLsbD_ushiftRight, hki] at hbit
      rw [BitVec.getElem_and, BitVec.getElem_and, ← BitVec.getLsbD_eq_getElem, hbit,
        BitVec.getLsbD_eq_getElem]

end Block

end Wires
