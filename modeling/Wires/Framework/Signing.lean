import Wires.Framework.Bytes

/-!
# Signatures and hashes

`Crypto` is a signature scheme and a hash: what a program that calls a
signature library and a hash library can see of them, with the one law it
relies on, that a signature verifies under its signer's key. That a hash has
no collision and that a signature cannot be forged are no laws (no hash of 32
bytes is injective, and every message has a signature that verifies), so they
are assumptions about the messages at hand: `NoCollision` about a set of
hashed messages, and `Unforged` about the signatures some party presents.
-/

namespace Wires

/-- A signature scheme and a hash. -/
class Crypto where
  Secret : Type
  /-- The public key of a secret key. -/
  pub : Secret → Bytes 32
  sign : Secret → List UInt8 → Bytes 64
  verify : Bytes 32 → List UInt8 → Bytes 64 → Bool
  hash : List UInt8 → Bytes 32
  verify_sign (k : Secret) (m : List UInt8) : verify (pub k) m (sign k m) = true

/-- A message and a signature presented for it. -/
abbrev Presented := List UInt8 × Bytes 64

section

variable [Crypto]

/-- No two of the messages have one hash. -/
def NoCollision (messages : Set (List UInt8)) : Prop := Set.InjOn Crypto.hash messages

/-- Of what is presented under `key`, only messages its holder signed verify. -/
def Unforged (key : Bytes 32) (signed : Set (List UInt8)) (presented : Set Presented) : Prop :=
  ∀ p ∈ presented, Crypto.verify key p.1 p.2 = true → p.1 ∈ signed

theorem NoCollision.eq {ms : Set (List UInt8)} (h : NoCollision ms) {a b : List UInt8}
    (ha : a ∈ ms) (hb : b ∈ ms) (he : Crypto.hash a = Crypto.hash b) : a = b := h ha hb he

theorem Unforged.mono {key : Bytes 32} {signed : Set (List UInt8)} {p q : Set Presented}
    (h : Unforged key signed q) (hpq : p ⊆ q) : Unforged key signed p :=
  fun x hx => h x (hpq hx)

/-- What the holder of a key signed is not forged. -/
theorem unforged_of_signed {key : Bytes 32} {signed : Set (List UInt8)} {p : Set Presented}
    (h : ∀ x ∈ p, x.1 ∈ signed) : Unforged key signed p := fun x hx _ => h x hx

end

/-! ## A concrete instance -/

/-- `k` bytes of a number, low byte first. -/
def bytesOfNat : Nat → Nat → List UInt8
  | 0, _ => []
  | k + 1, n => UInt8.ofNat n :: bytesOfNat k (n / 256)

theorem length_bytesOfNat (k n : Nat) : (bytesOfNat k n).length = k := by
  induction k generalizing n with
  | zero => rfl
  | succ k ih => rw [bytesOfNat, List.length_cons, ih]

/-- A checksum of a message: its bytes as a number in base 257, modulo `2 ^ 256 - 189`. -/
def checksum (m : List UInt8) : Bytes 32 :=
  ⟨bytesOfNat 32 (m.foldl (fun n b => (n * 257 + b.toNat + 1) % (2 ^ 256 - 189)) 0),
    length_bytesOfNat _ _⟩

/-- A signature made of the key and the message's checksum. -/
def checksumTag (key : Bytes 32) (m : List UInt8) : Bytes 64 :=
  ⟨key.toList ++ (checksum (key.toList ++ m)).toList, by
    simp [key.length_eq, (checksum (key.toList ++ m)).length_eq]⟩

/-- A scheme to run the model with: it has the laws and no security. -/
@[reducible] def Crypto.plain : Crypto where
  Secret := UInt8
  pub k := Bytes.fill 32 k
  sign k m := checksumTag (Bytes.fill 32 k) m
  verify p m σ := decide (σ = checksumTag p m)
  hash := checksum
  verify_sign _ _ := decide_eq_true rfl

end Wires
