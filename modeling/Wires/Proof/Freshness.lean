import Wires.Impl.Fresh

/-!
# When a word counts

The times of a word are 64-bit, and every check of them saturates. None of the
checks tells: what is signed, what verifies and what vouches is what the
integers say (`fresh_exact`).
-/

namespace Wires

namespace Fresh

variable {f : Fresh} {head : SignedPolicyHead} {now : Int64}

theorem toInt_skew : CLOCK_SKEW_SECS.toInt = 60 := by decide

/-- A word's life is as long as `secs` allows. -/
theorem life_iff {at_ until_ : Int64} {secs : UInt32} :
    (at_ ≤ until_ ∧ satSub until_ at_ ≤ i64OfU32 secs) ↔
      0 ≤ until_.toInt - at_.toInt ∧ until_.toInt - at_.toInt ≤ secs.toNat := by
  have hsecs := secs.toNat_lt
  rw [Int64.le_iff_toInt_le, Int64.le_iff_toInt_le, toInt_satSub, toInt_i64OfU32]
  omega

theorem isCurrent_iff : f.isCurrent now = true ↔
    f.at_.toInt - CLOCK_SKEW_SECS.toInt ≤ now.toInt ∧ now.toInt ≤ f.until_.toInt := by
  have hnow := Int64.le_toInt now
  have hat := Int64.toInt_lt f.at_
  rw [isCurrent, Bool.and_eq_true, decide_eq_true_eq, decide_eq_true_eq, ge_iff_le,
    Int64.le_iff_toInt_le, Int64.le_iff_toInt_le, toInt_satSub, toInt_skew]
  omega

variable [Crypto]

theorem exists_sign {directory : NodeIdentity} {at_ until_ : Int64} :
    (∃ g, sign directory head at_ until_ = .ok g) ↔ nodeId directory ∈ head.head.directories ∧
      at_ ≤ until_ ∧ satSub until_ at_ ≤ i64OfU32 head.head.freshSecs := by
  simp [sign, PolicyHead.isDirectory]

/-- A word that verifies vouches within one interval, or not at all. -/
theorem vouches_interval (f : Fresh) (head : SignedPolicyHead) (host : NodeId) :
    ∃ first last : Int, last - first ≤ head.head.freshSecs.toNat + CLOCK_SKEW_SECS.toInt ∧
      ∀ t : Int64, f.vouches head host t = .ok () ↔ first ≤ t.toInt ∧ t.toInt ≤ last := by
  by_cases h : f.verify head = .ok () ∧ (f.directory = host → head.head.directories = [host])
  · obtain ⟨hverify, hsigner⟩ := h
    obtain ⟨-, -, -, -, hle, hsecs, -⟩ := verify_eq_ok.mp hverify
    have hlife := (life_iff.mp ⟨hle, hsecs⟩).2
    refine ⟨f.at_.toInt - CLOCK_SKEW_SECS.toInt, f.until_.toInt, by omega, fun t => ?_⟩
    rw [vouches_eq_ok, isCurrent_iff]
    exact ⟨fun h => h.2.1, fun h => ⟨hverify, h, hsigner⟩⟩
  · refine ⟨1, 0, by have := toInt_skew; omega, fun t => ?_⟩
    rw [vouches_eq_ok]
    exact ⟨fun ht => absurd ⟨ht.1, ht.2.2⟩ h, fun ht => absurd ht (by omega)⟩

/-- What signing, verifying and vouching come to, over the integers. -/
theorem fresh_exact (directory : NodeIdentity) (head : SignedPolicyHead) (host : NodeId)
    (at_ until_ now : Int64) (f : Fresh) :
    ((∃ g, sign directory head at_ until_ = .ok g) ↔ nodeId directory ∈ head.head.directories ∧
      0 ≤ until_.toInt - at_.toInt ∧ until_.toInt - at_.toInt ≤ head.head.freshSecs.toNat) ∧
    (∀ g, sign directory head at_ until_ = .ok g → g.verify head = .ok () ∧
      g.directory = nodeId directory ∧ g.at_ = at_ ∧ g.until_ = until_) ∧
    (f.verify head = .ok () ↔ f.format = FRESH_V1 ∧ f.alg = .ed25519 ∧
      (f.fabric = head.head.fabric ∧ f.version = head.head.version ∧ f.head = head.hash) ∧
      f.directory ∈ head.head.directories ∧ Crypto.verify f.directory f.signedBytes f.sig = true ∧
      0 ≤ f.until_.toInt - f.at_.toInt ∧
      f.until_.toInt - f.at_.toInt ≤ head.head.freshSecs.toNat) ∧
    (f.vouches head host now = .ok () ↔ f.verify head = .ok () ∧
      (f.at_.toInt - CLOCK_SKEW_SECS.toInt ≤ now.toInt ∧ now.toInt ≤ f.until_.toInt) ∧
      (f.directory = host → head.head.directories = [host])) ∧
    ∃ first last : Int, last - first ≤ head.head.freshSecs.toNat + CLOCK_SKEW_SECS.toInt ∧
      ∀ t : Int64, f.vouches head host t = .ok () ↔ first ≤ t.toInt ∧ t.toInt ≤ last := by
  refine ⟨?_, fun g hg => of_sign hg, ?_, ?_, vouches_interval f head host⟩
  · rw [exists_sign, life_iff]
  · rw [verify_eq_ok, ← life_iff]
    tauto
  · rw [vouches_eq_ok, isCurrent_iff]

end Fresh

end Wires
