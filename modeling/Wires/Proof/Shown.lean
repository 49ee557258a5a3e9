import Wires.Proof.FreshSet
import Wires.Proof.Release
import Wires.Proof.Vouching

/-!
# The words a host shows

The check after speaking takes the first words of those the host shows and those
the caller holds, as many as a set has. A word the caller holds counts only
where the host shows few enough before it (`held_word_counts_iff`).
-/

namespace Wires

section

variable [Crypto]

theorem HostProof.exists_vouching {p : HostProof} {host : NodeId} {now : Int64} :
    (∃ f, p.vouching host now = .ok f) ↔ ∃ f ∈ p.fresh, f.vouches p.head host now = .ok () := by
  refine ⟨fun ⟨f, hf⟩ => ⟨f, vouching_eq_ok hf⟩, fun ⟨f, hf, hok⟩ => ?_⟩
  have hfirst : ∀ fs : List Fresh, f ∈ fs → ∀ why,
      ∃ g, firstVouching p.head host now why fs = .ok g := fun fs hf => by
    induction fs with
    | nil => cases hf
    | cons g gs ih =>
      intro why
      rw [firstVouching]
      split
      · exact ⟨g, rfl⟩
      · rename_i e he
        rcases List.mem_cons.mp hf with rfl | hf
        · rw [hok] at he
          cases he
        · exact ih hf _
  exact hfirst _ hf _

omit [Crypto] in
/-- The first one of a list is among its first few when its place is. -/
theorem exists_mem_take {α : Type} {p : α → Bool} {ys : List α} {n : Nat}
    (hy : ∃ y ∈ ys, p y = true) : (∃ y ∈ ys.take n, p y = true) ↔ ys.findIdx p < n := by
  induction ys generalizing n with
  | nil => simp at hy
  | cons y ys ih =>
    cases n with
    | zero => simp
    | succ n =>
      rw [List.take_succ_cons, List.findIdx_cons]
      cases hp : p y with
      | true => simp [hp]
      | false =>
        have hrest : ∃ x ∈ ys, p x = true := by simpa [hp] using hy
        simpa [hp] using ih hrest

omit [Crypto] in
theorem exists_mem_take_append {α : Type} {p : α → Bool} {xs ys : List α} {n : Nat}
    (hy : ∃ y ∈ ys, p y = true) : (∃ x ∈ (xs ++ ys).take n, p x = true) ↔
      (∃ x ∈ xs.take n, p x = true) ∨ xs.length + ys.findIdx p < n := by
  have hsecond := exists_mem_take (n := n - xs.length) hy
  rw [List.take_append]
  simp only [List.mem_append, or_and_right, exists_or, hsecond]
  refine or_congr_right ?_
  omega

namespace Vouching

variable {root : NodeId} {v : Vouching root} {host : NodeId} {proof : HostProof} {now : Int64}
  {refreshed : Refreshed root}

/-- The words of a set that are current for a head have those that vouch. -/
theorem mem_currentFor {set : FreshSet} {head : SignedPolicyHead} {w : VerifiedFresh}
    (ht : FreshSet.Tidy set.words) (hw : w ∈ set.words) (hok : w.fresh.vouches head host now = .ok ()) :
    w.fresh ∈ set.currentFor head now := by
  obtain ⟨hverify, hcurrent, -⟩ := Fresh.vouches_eq_ok.mp hok
  rw [FreshSet.currentFor, List.take_of_length_le]
  · refine List.mem_filter.mpr ⟨List.mem_map_of_mem hw, ?_⟩
    simp [hverify, hcurrent, isOk]
  · have hfewer := List.length_filter_le (fun f : Fresh => isOk (f.verify head) && f.isCurrent now)
      (set.words.map (·.fresh))
    rw [List.length_map] at hfewer
    exact hfewer.trans ht.2

/-- The check after speaking, of a proof of the view's own head. -/
theorem checkAfter_same (v : Vouching root) (host : NodeId) (proof : HostProof) (now : Int64)
    (hhead : proof.head = v.held.view.head)
    (hexpiry : now ≤ v.held.view.head.head.notAfter) :
    (∃ v', v.checkAfter host proof now = .ok v') ↔
      ∃ f ∈ (proof.fresh ++ v.held.fresh.currentFor proof.head now).take MAX_FRESH_SET,
        f.vouches proof.head host now = .ok () := by
  have hversion : ¬proof.head.head.version > v.version := by
    rw [hhead]
    exact UInt64.lt_irrefl _
  have hchecked : ∀ p : HostProof, p.head = proof.head → p.fresh.length ≤ MAX_FRESH_SET →
      ((∃ st, p.check root v.held.view.head host now = .ok st) ↔ ∃ f, p.vouching host now = .ok f) := by
    intro p hp hlength
    refine ⟨fun ⟨st, hst⟩ => (HostProof.check_eq_ok hst).2.2.2.2.1, fun ⟨f, hf⟩ => ?_⟩
    have hfresh : v.held.view.head.checkFresh now = .ok () :=
      SignedPolicyHead.checkFresh_eq_ok.mpr hexpiry
    have hverify : v.held.view.head.verify root = .ok () := v.held.verify_head
    refine ⟨.same, ?_⟩
    simp [HostProof.check, hlength, hverify, hfresh, hf, hp, hhead]
  have hjoined := hchecked
    ⟨proof.head, (proof.fresh ++ v.held.fresh.currentFor proof.head now).take MAX_FRESH_SET⟩ rfl
    (List.length_take_le _ _)
  refine Iff.trans ?_ (hjoined.trans HostProof.exists_vouching)
  unfold checkAfter
  rw [if_neg hversion]
  constructor
  · rintro ⟨v', hv'⟩
    obtain ⟨st, hst, -⟩ := bind_eq_ok.mp hv'
    exact ⟨st, mapErr_eq_ok.mp hst⟩
  · rintro ⟨st, hst⟩
    cases st <;> simp [hst, mapErr, Bind.bind, Except.bind, Pure.pure, Except.pure]

/-- A caller that spoke on a word it holds, which still vouches, goes on exactly if one of the first
words the host shows does, or the host shows few enough. -/
theorem held_word_counts_iff (v : Vouching root) (host : NodeId) (proof : HostProof) (now : Int64)
    (refreshed : Refreshed root) (w : VerifiedFresh) (ht : FreshSet.Tidy v.held.fresh.words)
    (hw : w ∈ v.held.fresh.words) (hok : w.fresh.vouches v.held.view.head host now = .ok ())
    (hexpiry : now ≤ v.held.view.head.head.notAfter) (hhead : proof.head = v.held.view.head) :
    (∃ v', v.check host proof now false refreshed = .ok v') ↔
      (∃ f ∈ proof.fresh.take MAX_FRESH_SET, f.vouches v.held.view.head host now = .ok ()) ∨
      proof.fresh.length + (v.held.fresh.currentFor v.held.view.head now).findIdx (fun f =>
        isOk (f.vouches v.held.view.head host now)) < MAX_FRESH_SET := by
  have hheld := @exists_mem_take_append _ (fun f : Fresh => isOk (f.vouches v.held.view.head host now)) proof.fresh
    _ MAX_FRESH_SET ⟨w.fresh, mem_currentFor ht hw hok, isOk_unit_iff.mpr hok⟩
  simp only [isOk_unit_iff] at hheld
  rw [← hheld, check_after]
  simp only [keeping_eq_ok]
  rw [checkAfter_same v host proof now hhead hexpiry, hhead]

end Vouching

end

section Sample

attribute [local instance] Crypto.plain

theorem tidy_singleton (w : VerifiedFresh) : FreshSet.Tidy [w] :=
  ⟨List.nodup_singleton _, show 1 ≤ MAX_FRESH_SET by decide⟩

theorem unexpired_sample : (5 : Int64) ≤ sampleSigned.head.head.notAfter := by decide

/-- A word that vouches for node 2, and one of the same directory for the same head that lapsed. -/
theorem exists_words_sample : ∃ (w : VerifiedFresh) (lapsed : Fresh),
    (sampleVouching ⟨[w]⟩).ready (sampleNode 2) 5 = true ∧ w.fresh.vouches sampleSigned.head (sampleNode 2) 5 = .ok () ∧
      lapsed.verify sampleSigned.head = .ok () ∧
      lapsed.vouches sampleSigned.head (sampleNode 2) 5 ≠ .ok () := by
  obtain ⟨w, hready⟩ := exists_ready_sample
  obtain ⟨-, f, hf, -⟩ := Vouching.ready_iff.mp hready
  have hvouches : w.fresh.vouches sampleSigned.head (sampleNode 2) 5 = .ok () := by
    have hmem := List.mem_of_find?_eq_some hf
    have hok := List.find?_some hf
    rw [show f = w.fresh by simpa [sampleVouching, sampleHeld] using hmem] at hok
    exact isOk_unit_iff.mp hok
  have hsign : ∃ f, Fresh.sign (3 : UInt8) sampleSigned.head 0 2 = .ok f := ⟨_, rfl⟩
  obtain ⟨lapsed, hlapsed⟩ := hsign
  obtain ⟨hverify, -, hat, huntil⟩ := Fresh.of_sign hlapsed
  have hcurrent : lapsed.isCurrent 5 = false := by
    simp only [Fresh.isCurrent, hat, huntil]
    decide
  refine ⟨w, lapsed, hready, hvouches, hverify, fun hok => ?_⟩
  have hlive := (Fresh.vouches_eq_ok.mp hok).2.1
  rw [hcurrent] at hlive
  cases hlive

theorem held_word_counts_sample : ∃ (v : Vouching (nodeId sampleRoot)) (proof : HostProof),
    ∀ refreshed, ∃ v', v.check (sampleNode 2) proof 5 false refreshed = .ok v' := by
  obtain ⟨w, lapsed, -, hw, -, -⟩ := exists_words_sample
  refine ⟨sampleVouching ⟨[w]⟩, ⟨sampleSigned.head, [lapsed]⟩, fun refreshed => ?_⟩
  have hcounts := Vouching.held_word_counts_iff (sampleVouching ⟨[w]⟩) (sampleNode 2)
    ⟨sampleSigned.head, [lapsed]⟩ 5 refreshed w (tidy_singleton w) List.mem_cons_self hw
    unexpired_sample rfl
  apply hcounts.mpr
  right
  have hlength : (FreshSet.currentFor ⟨[w]⟩ sampleSigned.head 5).length ≤ 1 := by
    rw [FreshSet.currentFor, List.length_take]
    exact (Nat.min_le_right _ _).trans (List.length_filter_le _ _)
  have hfirst := (List.findIdx_le_length (p := fun f : Fresh =>
    isOk (f.vouches sampleSigned.head (sampleNode 2) 5))).trans hlength
  exact lt_of_le_of_lt (Nat.add_le_add_left hfirst 1) (show 2 < MAX_FRESH_SET by decide)

/-- A host that shows as many lapsed words as a set holds stops a caller that holds one that
vouches. -/
theorem not_held_word_counts : ∃ (v : Vouching (nodeId sampleRoot)) (w : VerifiedFresh)
    (proof : HostProof), FreshSet.Tidy v.held.fresh.words ∧ w ∈ v.held.fresh.words ∧
      w.fresh.vouches v.held.view.head (sampleNode 2) 5 = .ok () ∧
      v.ready (sampleNode 2) 5 = true ∧
      5 ≤ v.held.view.head.head.notAfter ∧ proof.head = v.held.view.head ∧
      proof.fresh.length = MAX_FRESH_SET ∧
      ∀ refreshed v', v.check (sampleNode 2) proof 5 false refreshed ≠ .ok v' := by
  obtain ⟨w, lapsed, hready, hw, -, hlapsed⟩ := exists_words_sample
  refine ⟨sampleVouching ⟨[w]⟩, w, ⟨sampleSigned.head, List.replicate MAX_FRESH_SET lapsed⟩,
    tidy_singleton w, List.mem_cons_self, hw, hready, unexpired_sample, rfl,
    List.length_replicate, fun refreshed v' hv' => ?_⟩
  have hsame := Vouching.checkAfter_same (sampleVouching ⟨[w]⟩) (sampleNode 2)
    ⟨sampleSigned.head, List.replicate MAX_FRESH_SET lapsed⟩ 5 rfl unexpired_sample
  rw [Vouching.check_after, Vouching.keeping_eq_ok] at hv'
  obtain ⟨f, hf, hok⟩ := hsame.mp ⟨v', hv'⟩
  rw [List.take_append_of_le_length (Nat.le_of_eq List.length_replicate.symm)] at hf
  have hlapsed' : f = lapsed := List.eq_of_mem_replicate (List.mem_of_mem_take hf)
  rw [hlapsed'] at hok
  exact hlapsed hok

end Sample

end Wires
