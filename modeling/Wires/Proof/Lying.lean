import Wires.Proof.Proving
import Wires.Proof.Signing

/-!
# Lying directories

What a caller that asks directories for something can rely on, whatever they
show and in whichever order (`asked_safely`): who is told the token may be
(`MayBeTold`), no one is told twice, and the pool holds only words for heads
of the root's (`FreshSet.Rooted`). An answer whose head does not verify, or
whose words do not and which is not taken where it is told the token itself,
comes to what the directory's failure to answer comes to (`silenced`).
-/

namespace Wires

section

variable [Crypto]

/-! ## Who may be told -/

/-- A directory may be told the token, from the head it showed. -/
structure MayBeTold (root : NodeId) (held : Option SignedPolicyHead) (known : List NodeId)
    (dir : NodeId) (head : SignedPolicyHead) (now : Int64) : Prop where
  listed : dir ∈ head.head.directories
  verified : head.verify root = .ok ()
  unexpired : now ≤ head.head.notAfter
  /-- No older than the head held, and the same one at its version. -/
  newer : ∀ h, held = some h → h.head.version ≤ head.head.version ∧
    (head.head.version = h.head.version → head.hash = h.hash)
  /-- A directory of the head says that it is current: another one, or this one where the head
  lists it alone and no other is known. -/
  word : ∃ f : Fresh, f.verify head = .ok () ∧ f.isCurrent now = true ∧
    (f.directory ≠ dir ∨ head.head.directories = [dir] ∧ ∀ d ∈ known, d = dir)

section

variable {proof : HostProof} {pool : FreshSet} {root : NodeId} {held : Option SignedPolicyHead}
  {known : List NodeId} {dir : NodeId} {now : Int64}

/-- The word that lets a directory be told is one of those held, pooled or shown. -/
theorem word_of_vouched (h : directoryVouched proof pool root held known dir now = .ok ()) :
    ∃ f ∈ (pool.learn (proof.fresh.take MAX_FRESH_SET) proof.head now).currentFor proof.head now,
      f.vouches proof.head dir now = .ok () ∧ (f.directory ≠ dir ∨ ∀ d ∈ known, d = dir) := by
  cases held with
  | none =>
    simp only [directoryVouched, bind_eq_ok, ensure_eq_ok, anyhow_eq_ok, exists_const,
      exists_and_right, exists_ok_unit, List.any_eq_true, Bool.and_eq_true] at h
    obtain ⟨-, -, -, -, -, f, hf, hvouches, halone⟩ := h
    exact ⟨f, hf, isOk_unit_iff.mp hvouches, by simpa using halone⟩
  | some held =>
    simp only [directoryVouched, bind_eq_ok, ensure_eq_ok, anyhow_eq_ok, exists_const,
      exists_and_right, exists_ok_unit, List.any_eq_true, Bool.and_eq_true] at h
    obtain ⟨-, -, -, f, hf, hvouches, halone⟩ := h
    exact ⟨f, hf, isOk_unit_iff.mp hvouches, by simpa using halone⟩

theorem mayBeTold_of_vouched (h : directoryVouched proof pool root held known dir now = .ok ()) :
    MayBeTold root held known dir proof.head now := by
  have hword : ∃ f : Fresh, f.verify proof.head = .ok () ∧ f.isCurrent now = true ∧
      (f.directory ≠ dir ∨ proof.head.head.directories = [dir] ∧ ∀ d ∈ known, d = dir) := by
    obtain ⟨f, -, hvouches, halone⟩ := word_of_vouched h
    obtain ⟨hverify, hcurrent, hown⟩ := Fresh.vouches_eq_ok.mp hvouches
    refine ⟨f, hverify, hcurrent, ?_⟩
    by_cases hdir : f.directory = dir
    · exact .inr ⟨hown hdir, halone.resolve_left (not_not.mpr hdir)⟩
    · exact .inl hdir
  cases held with
  | none =>
    simp only [directoryVouched, bind_eq_ok, ensure_eq_ok, anyhow_eq_ok, exists_const,
      exists_and_right, exists_ok_unit, SignedPolicyHead.checkFresh_eq_ok] at h
    obtain ⟨hdir, hverify, -, hfresh, -⟩ := h
    exact ⟨by simpa using hdir, hverify, hfresh, (fun _ hh => by cases hh), hword⟩
  | some held =>
    simp only [directoryVouched, bind_eq_ok, ensure_eq_ok, anyhow_eq_ok, exists_const,
      exists_and_right, exists_ok_unit] at h
    obtain ⟨hdir, hverify, ⟨st, hcheck⟩, -⟩ := h
    obtain ⟨-, hfresh, hle, hsame, -⟩ := HostProof.check_eq_ok hcheck
    refine ⟨by simpa using hdir, hverify, hfresh, fun h hh => ?_, hword⟩
    cases hh
    exact ⟨hle, hsame⟩

end

/-! ## The pool -/

namespace FreshSet

/-- Every word verifies for a head of the root's that is no older than the one held. -/
def Rooted (root : NodeId) (held : Option SignedPolicyHead) (set : FreshSet) : Prop :=
  ∀ w ∈ set.words, ∃ head : SignedPolicyHead, head.verify root = .ok () ∧
    (∀ h, held = some h → h.head.version ≤ head.head.version) ∧ w.fresh.verify head = .ok ()

theorem mem_foldl_insert {vs : List VerifiedFresh} {set : FreshSet} {now : Int64} {w : VerifiedFresh}
    (h : w ∈ (vs.foldl (fun set v => (set.insert v now).1) set).words) : w ∈ set.words ∨ w ∈ vs := by
  induction vs generalizing set with
  | nil => exact .inl h
  | cons v vs ih =>
    rcases ih h with h | h
    · rcases mem_insert h with h | rfl
      · exact .inl h
      · exact .inr List.mem_cons_self
    · exact .inr (List.mem_cons_of_mem v h)

/-- The words taken in verify for the head they were taken in for. -/
theorem mem_learn {words : List Fresh} {set : FreshSet} {head : SignedPolicyHead} {now : Int64}
    {w : VerifiedFresh} (h : w ∈ (set.learn words head now).words) :
    w ∈ set.words ∨ w.fresh.verify head = .ok () := by
  induction words generalizing set with
  | nil => exact .inl h
  | cons f fs ih =>
    rw [learn, List.foldl_cons] at h
    rcases ih h with h | h
    · split at h
      · rename_i v hv
        obtain ⟨hverify, hfresh⟩ := Fresh.toVerified_eq_ok.mp hv
        rcases mem_insert h with h | rfl
        · exact .inl h
        · exact .inr (hfresh ▸ hverify)
      · exact .inl h
    · exact .inr h

/-- Words that do not verify are not taken in. -/
theorem learn_of_fails {words : List Fresh} {head : SignedPolicyHead}
    (h : ∀ f ∈ words, f.verify head ≠ .ok ()) (set : FreshSet) (now : Int64) :
    set.learn words head now = set := by
  induction words with
  | nil => rfl
  | cons f fs ih =>
    have hrest := ih fun g hg => h g (List.mem_cons_of_mem f hg)
    rw [learn, List.foldl_cons]
    split
    · rename_i v hv
      exact absurd (Fresh.toVerified_eq_ok.mp hv).1 (h f List.mem_cons_self)
    · exact hrest

end FreshSet

theorem poolWords_of_mem {proof : HostProof} {root : NodeId} {held : Option SignedPolicyHead}
    {now : Int64} {w : VerifiedFresh} (h : w ∈ poolWords proof root held now) :
    proof.head.verify root = .ok () ∧
      (∀ h, held = some h → h.head.version ≤ proof.head.head.version) ∧
      w.fresh ∈ proof.fresh ∧ w.fresh.verify proof.head = .ok () := by
  rw [poolWords] at h
  split at h
  · rename_i husable
    simp only [Bool.and_eq_true, isOk_unit_iff] at husable
    obtain ⟨⟨hverify, -⟩, hnewer⟩ := husable
    obtain ⟨f, hf, hw⟩ := List.mem_filterMap.mp h
    have hverified : f.toVerified proof.head = .ok w := by
      cases h : f.toVerified proof.head with
      | error e => rw [h] at hw; cases hw
      | ok v => rw [h] at hw; cases hw; rfl
    obtain ⟨hfv, hfresh⟩ := Fresh.toVerified_eq_ok.mp hverified
    refine ⟨hverify, fun h hh => ?_, ?_, ?_⟩
    · rw [hh] at hnewer
      simpa using hnewer
    · exact hfresh ▸ List.mem_of_mem_take hf
    · exact hfresh ▸ hfv
  · cases h

theorem rooted_pooled {root : NodeId} {held : Option SignedPolicyHead} {pool : FreshSet}
    {proof : HostProof} {now : Int64} (h : pool.Rooted root held) :
    (pooled root held pool proof now).Rooted root held := by
  intro w hw
  rcases FreshSet.mem_foldl_insert hw with hw | hw
  · exact h w hw
  · obtain ⟨hverify, hnewer, -, hword⟩ := poolWords_of_mem hw
    exact ⟨proof.head, hverify, hnewer, hword⟩

/-! ## One pass -/

section

variable {T : Type} {vouched : Int64 → Opened → Except Anyhow Unit}
  {take : SignedPolicyHead → DirectoryAnswer → Except Anyhow T} {clock : Nat → Int64} {k : Nat}
  {os left : List Opened} {out out' : Unanswered}

omit [Crypto] in
/-- Who is told in a pass, and who waits on after it, are those who waited. -/
theorem perm_toldWaiting (h : askWaiting vouched take clock k os out = .error (left, out')) :
    ((toldWaiting vouched take clock k os out).map Prod.fst ++ left).Perm os := by
  induction os generalizing k out left with
  | nil =>
    cases h
    exact List.Perm.refl _
  | cons o os ih =>
    cases hv : vouched (clock k) o with
    | error why =>
      obtain ⟨left', rfl, hrest⟩ := left_refused hv h
      rw [(pass_refused hv).1]
      exact List.perm_middle.trans ((ih hrest).cons o)
    | ok u =>
      obtain ⟨out₁, hask, hrest⟩ := left_told hv h
      rw [(pass_told hv hask).1, List.map_cons, List.cons_append]
      exact (ih hrest).cons o

omit [Crypto] in
theorem sublist_toldWaiting :
    ((toldWaiting vouched take clock k os out).map Prod.fst).Sublist os := by
  induction os generalizing k out with
  | nil => exact List.Sublist.refl _
  | cons o os ih =>
    cases hv : vouched (clock k) o with
    | error why =>
      rw [(pass_refused hv).1]
      exact ih.cons o
    | ok u =>
      cases hask : o.ask take out with
      | ok t =>
        rw [(pass_taken hv hask).1]
        exact (List.nil_sublist os).cons_cons o
      | error out₁ =>
        rw [(pass_told hv hask).1, List.map_cons]
        exact ih.cons_cons o

omit [Crypto] in
/-- Whether an answer is taken does not depend on what has failed. -/
theorem toOption_ask (o : Opened) (out out' : Unanswered) :
    (o.ask take out).toOption = (o.ask take out').toOption := by
  unfold Opened.ask
  split
  · rfl
  · split <;> rfl
  · rfl

end

/-! ## Without some of those who wait -/

/-- The readings of the clock at which those are checked who are not passed over. -/
def place (junk : Opened → Bool) : Nat → List Opened → Nat → Nat
  | k, [], n => k + n
  | k, o :: os, n =>
    if junk o then place junk (k + 1) os n
    else if n = 0 then k
    else place junk (k + 1) os (n - 1)

omit [Crypto] in
theorem le_place {junk : Opened → Bool} {k : Nat} {os : List Opened} {n : Nat} :
    k ≤ place junk k os n := by
  induction os generalizing k n with
  | nil => exact Nat.le_add_right k n
  | cons o os ih =>
    rw [place]
    split_ifs
    · exact (Nat.le_succ k).trans ih
    · exact le_rfl
    · exact (Nat.le_succ k).trans ih

omit [Crypto] in
theorem place_lt {junk : Opened → Bool} {k : Nat} {os : List Opened} {n : Nat} :
    place junk k os n < place junk k os (n + 1) := by
  induction os generalizing k n with
  | nil => exact Nat.lt_succ_self _
  | cons o os ih =>
    rw [place, place, Nat.add_sub_cancel, if_neg (Nat.succ_ne_zero n)]
    split_ifs with _ hn
    · exact ih
    · exact le_place
    · have hrest := @ih (k + 1) (n - 1)
      rwa [Nat.sub_add_cancel (Nat.one_le_iff_ne_zero.mpr hn)] at hrest

section

variable {T : Type} {vouched : Int64 → Opened → Except Anyhow Unit}
  {take : SignedPolicyHead → DirectoryAnswer → Except Anyhow T} {clock clock' : Nat → Int64}
  {k j : Nat} {os : List Opened} {out out' : Unanswered} {junk : Opened → Bool}

omit [Crypto] in
theorem mapError_mapError {ε ε' ε'' : Type} (x : Except ε T) (f : ε → ε') (g : ε' → ε'') :
    (x.mapError f).mapError g = x.mapError fun e => g (f e) := by
  cases x with
  | ok t => rfl
  | error e => rfl

omit [Crypto] in
/-- A pass that takes the answer of none of some who wait is the pass without them, at the readings
of the others. -/
theorem askWaiting_filter (hclock : ∀ n, clock' (j + n) = clock (place junk k os n))
    (hnot : ∀ p ∈ toldWaiting vouched take clock k os out, junk p.1 = true →
      (p.1.ask take ⟨[], false⟩).toOption = none) :
    toldWaiting vouched take clock' j (os.filter fun o => !junk o) out' =
        (toldWaiting vouched take clock k os out).filter (fun p => !junk p.1) ∧
      (askWaiting vouched take clock' j (os.filter fun o => !junk o) out').mapError Prod.fst =
        (askWaiting vouched take clock k os out).mapError fun p => p.1.filter fun o => !junk o := by
  induction os generalizing k j out out' with
  | nil => exact ⟨rfl, rfl⟩
  | cons o os ih =>
    cases hjunk : junk o with
    | true =>
      have hskip : ∀ l : List Opened, (o :: l).filter (fun o => !junk o) = l.filter fun o => !junk o :=
        fun l => List.filter_cons_of_neg (by simp [hjunk])
      have hlater : ∀ n, clock' (j + n) = clock (place junk (k + 1) os n) := fun n => by
        rw [hclock n, place, if_pos hjunk]
      rw [hskip]
      cases hv : vouched (clock k) o with
      | error why =>
        obtain ⟨htolds, hasks⟩ := @pass_refused T vouched take clock k os out o why hv
        rw [htolds] at hnot
        obtain ⟨htold, hrest⟩ := @ih (k + 1) j out out' hlater hnot
        refine ⟨by rw [htolds, htold], ?_⟩
        rw [hasks, mapError_mapError, hrest]
        simp only [hskip]
      | ok u =>
        -- it is told, and its answer is not taken
        cases hask : o.ask take out with
        | ok t =>
          obtain ⟨htolds, -⟩ := @pass_taken T vouched take clock k os out o t hv hask
          rw [htolds] at hnot
          have hnone := hnot (o, clock k) (List.mem_singleton.mpr rfl) hjunk
          rw [toOption_ask o ⟨[], false⟩ out, hask] at hnone
          cases hnone
        | error out₁ =>
          obtain ⟨htolds, hasks⟩ := @pass_told T vouched take clock k os out out₁ o hv hask
          rw [htolds] at hnot
          obtain ⟨htold, hrest⟩ := @ih (k + 1) j out₁ out' hlater
            fun p hp => hnot p (List.mem_cons_of_mem _ hp)
          rw [htolds, hasks, List.filter_cons_of_neg (by simp [hjunk])]
          exact ⟨htold, hrest⟩
    | false =>
      have hkeep : ∀ l : List Opened,
          (o :: l).filter (fun o => !junk o) = o :: l.filter fun o => !junk o :=
        fun l => List.filter_cons_of_pos (by simp [hjunk])
      have hnow : clock' j = clock k := by
        have := hclock 0
        rwa [place, if_neg (by simp [hjunk]), if_pos rfl] at this
      have hlater : ∀ n, clock' (j + 1 + n) = clock (place junk (k + 1) os n) := fun n => by
        have := hclock (n + 1)
        rw [place, if_neg (by simp [hjunk]), if_neg (Nat.succ_ne_zero n), Nat.add_sub_cancel] at this
        rw [← this, Nat.add_assoc, Nat.add_comm 1 n]
      rw [hkeep]
      cases hv : vouched (clock k) o with
      | error why =>
        obtain ⟨htolds, hasks⟩ := @pass_refused T vouched take clock k os out o why hv
        obtain ⟨htolds', hasks'⟩ := @pass_refused T vouched take clock' j (os.filter fun o => !junk o) out' o
          why (by rw [hnow]; exact hv)
        rw [htolds] at hnot
        obtain ⟨htold, hrest⟩ := @ih (k + 1) (j + 1) out out' hlater hnot
        refine ⟨by rw [htolds, htolds', htold], ?_⟩
        rw [hasks, hasks', mapError_mapError, mapError_mapError]
        simp only [hkeep]
        rw [← mapError_mapError _ Prod.fst (o :: ·), hrest, mapError_mapError]
      | ok u =>
        have hv' : vouched (clock' j) o = .ok () := by rw [hnow]; exact hv
        have hsame := @toOption_ask T take o out out'
        cases hask : o.ask take out with
        | ok t =>
          cases hask' : o.ask take out' with
          | error out₂ =>
            rw [hask, hask'] at hsame
            cases hsame
          | ok t' =>
            rw [hask, hask'] at hsame
            cases hsame
            obtain ⟨htolds, hasks⟩ := @pass_taken T vouched take clock k os out o t hv hask
            obtain ⟨htolds', hasks'⟩ := @pass_taken T vouched take clock' j (os.filter fun o => !junk o) out' o t
              hv' hask'
            rw [htolds, htolds', hasks, hasks', hnow, List.filter_cons_of_pos (by simp [hjunk])]
            exact ⟨rfl, rfl⟩
        | error out₁ =>
          cases hask' : o.ask take out' with
          | ok t' =>
            rw [hask, hask'] at hsame
            cases hsame
          | error out₂ =>
            obtain ⟨htolds, hasks⟩ := @pass_told T vouched take clock k os out out₁ o hv hask
            obtain ⟨htolds', hasks'⟩ := @pass_told T vouched take clock' j (os.filter fun o => !junk o) out' out₂ o
              hv' hask'
            rw [htolds] at hnot
            obtain ⟨htold, hrest⟩ := @ih (k + 1) (j + 1) out₁ out₂ hlater
              fun p hp => hnot p (List.mem_cons_of_mem _ hp)
            rw [htolds, htolds', hasks, hasks', hnow, htold,
              List.filter_cons_of_pos (by simp [hjunk])]
            exact ⟨rfl, hrest⟩

end

/-! ## All turns -/

/-- The answer a turn brings, if it is one. -/
def Turn.opened? (t : Turn) : Option Opened :=
  match t.arrival with
  | .opened o => some o
  | _ => none

/-- The pool once a turn's arrival is taken in. -/
def Turn.pools (root : NodeId) (held : Option SignedPolicyHead) (pool : FreshSet) (t : Turn) :
    FreshSet :=
  match t.arrival with
  | .opened o => pooled root held pool o.proof (t.clock 0)
  | _ => pool

section

variable {T : Type} {root : NodeId} {known : List NodeId} {held : Option SignedPolicyHead}
  {take : SignedPolicyHead → DirectoryAnswer → FreshSet → Except Anyhow T} {last : Int64}
  {t : Turn} {ts : List Turn} {pool pool' : FreshSet} {waiting waiting' : List Opened}
  {out out' : Unanswered}

theorem of_begins (h : t.begins root held pool waiting out = some (pool', waiting', out')) :
    pool' = t.pools root held pool ∧ waiting' = waiting ++ t.opened?.toList := by
  unfold Turn.begins at h
  split at h
  · cases h
  · rename_i harrival
    cases h
    simp [Turn.pools, Turn.opened?, harrival]
  · rename_i harrival
    cases h
    simp [Turn.pools, Turn.opened?, harrival]

theorem of_begins_none (h : t.begins root held pool waiting out = none) :
    t.pools root held pool = pool ∧ t.opened? = none := by
  unfold Turn.begins at h
  split at h
  · rename_i harrival
    simp [Turn.pools, Turn.opened?, harrival]
  · cases h
  · cases h

/-- The directories told are among those that waited or came, each no oftener. -/
theorem subperm_toldTurns : ((toldTurns root known held take ts pool waiting out).map
    (·.opened)).Subperm (waiting ++ ts.filterMap Turn.opened?) := by
  induction ts generalizing pool waiting out with
  | nil => exact List.nil_subperm
  | cons t ts ih =>
    rw [toldTurns_cons]
    cases hb : t.begins root held pool waiting out with
    | none =>
      rw [List.filterMap_cons_none (of_begins_none hb).2]
      exact ih
    | some b =>
      obtain ⟨pool', waiting', out'⟩ := b
      obtain ⟨-, rfl⟩ := of_begins hb
      have hcame : waiting ++ (t :: ts).filterMap Turn.opened? =
          (waiting ++ t.opened?.toList) ++ ts.filterMap Turn.opened? := by
        cases ho : t.opened? with
        | none => simp [List.filterMap_cons_none ho]
        | some o => simp [List.filterMap_cons_some ho]
      have hpass : ((toldPass root known held take pool' t.clock (waiting ++ t.opened?.toList)
          out').map (·.opened)) = (toldWaiting (fun now o => directoryVouched o.proof pool' root held
            known o.dir now) (fun head answer => take head answer pool') t.clock 1
            (waiting ++ t.opened?.toList) out').map Prod.fst := by
        rw [toldPass, List.map_map]
        rfl
      rw [hcame]
      dsimp only
      rw [List.map_append, hpass]
      cases hask : askPass root known held take pool' t.clock (waiting ++ t.opened?.toList) out' with
      | ok a =>
        simp only [List.map_nil, List.append_nil]
        exact (sublist_toldWaiting.trans (List.sublist_append_left _ _)).subperm
      | error p =>
        obtain ⟨left, out''⟩ := p
        have hperm := perm_toldWaiting hask
        have hrest := @ih pool' left out''
        apply ((List.subperm_append_left _).mpr hrest).trans
        rw [← List.append_assoc]
        exact (hperm.append_right _).subperm

/-- The pool at any check is what some of the turns have made it. -/
theorem pool_of_mem_toldTurns {p : Told} (h : p ∈ toldTurns root known held take ts pool waiting out) :
    ∃ n, p.pool = (ts.take n).foldl (Turn.pools root held) pool := by
  induction ts generalizing pool waiting out with
  | nil => cases h
  | cons t ts ih =>
    rw [toldTurns_cons] at h
    cases hb : t.begins root held pool waiting out with
    | none =>
      rw [hb] at h
      obtain ⟨n, hn⟩ := ih h
      refine ⟨n + 1, ?_⟩
      rw [List.take_succ_cons, List.foldl_cons, (of_begins_none hb).1, hn]
    | some b =>
      obtain ⟨pool', waiting', out'⟩ := b
      obtain ⟨rfl, -⟩ := of_begins hb
      simp only [hb] at h
      rcases List.mem_append.mp h with h | h
      · exact ⟨1, (mem_toldPass h).1⟩
      · split at h
        · cases h
        · obtain ⟨n, hn⟩ := ih h
          refine ⟨n + 1, ?_⟩
          rw [List.take_succ_cons, List.foldl_cons, hn]

theorem rooted_pools (h : pool.Rooted root held) : (t.pools root held pool).Rooted root held := by
  unfold Turn.pools
  split
  · exact rooted_pooled h
  · exact h

theorem rooted_turns (h : pool.Rooted root held) :
    (ts.foldl (Turn.pools root held) pool).Rooted root held := by
  induction ts generalizing pool with
  | nil => exact h
  | cons t ts ih => exact ih (rooted_pools h)

/-! ## Junk -/

/-- Some answers of the turns are left out: the directory fails to answer instead, and the clock
shows no reading for what is not checked. -/
def Turn.Silences (junk : Opened → Bool) (t t' : Turn) : Prop :=
  (match t.arrival with
    | .opened o => if junk o = true then ∃ why, t'.arrival = .failed o.dir why
      else t'.arrival = .opened o
    | arrival => t'.arrival = arrival) ∧
  ∃ φ : Nat → Nat, StrictMono φ ∧ φ 0 = 0 ∧ ∀ n, t'.clock n = t.clock (φ n)

/-- The readings in a turn of those who are not passed over, after the arrival's own. -/
def placed (junk : Opened → Bool) (waiting : List Opened) (n : Nat) : Nat :=
  if n = 0 then 0 else place junk 1 waiting (n - 1)

omit [Crypto] in
theorem strictMono_placed (junk : Opened → Bool) (waiting : List Opened) :
    StrictMono (placed junk waiting) := by
  apply strictMono_nat_of_lt_succ
  intro n
  rw [placed, placed, if_neg (Nat.succ_ne_zero n), Nat.add_sub_cancel]
  split_ifs with hn
  · exact le_place
  · have hrest := @place_lt junk 1 waiting (n - 1)
    rwa [Nat.sub_add_cancel (Nat.one_le_iff_ne_zero.mpr hn)] at hrest

/-- A turn without its junk. -/
def Turn.silence (junk : Opened → Bool) (waiting : List Opened) (t : Turn) : Turn where
  arrival := match t.arrival with
    | .opened o => if junk o = true then .failed o.dir [] else .opened o
    | arrival => arrival
  clock n := t.clock (placed junk waiting n)

omit [Crypto] in
theorem silences_silence (junk : Opened → Bool) (waiting : List Opened) (t : Turn) :
    t.Silences junk (t.silence junk waiting) := by
  refine ⟨?_, placed junk waiting, strictMono_placed junk waiting, if_pos rfl, fun _ => rfl⟩
  cases harrival : t.arrival with
  | opened o =>
    by_cases hjunk : junk o = true
    · simp [Turn.silence, harrival, hjunk]
    · simp [Turn.silence, harrival, hjunk]
  | failed dir why => simp [Turn.silence, harrival]
  | lost => simp [Turn.silence, harrival]

variable {junk : Opened → Bool}

/-- What a directory that is told answers is not taken. -/
def Told.NotTaken (take : SignedPolicyHead → DirectoryAnswer → FreshSet → Except Anyhow T)
    (p : Told) : Prop :=
  (p.opened.ask (fun head answer => take head answer p.pool) ⟨[], false⟩).toOption = none

/-- What a turn begins with, without the junk that adds nothing to the pool. -/
theorem begins_silence (hb : t.begins root held pool waiting out = some (pool', waiting', out'))
    (hmute : ∀ o, t.opened? = some o → junk o = true →
      ∀ pool now, pooled root held pool o.proof now = pool) (out₂ : Unanswered) :
    ∃ out₂', (t.silence junk waiting').begins root held pool (waiting.filter fun o => !junk o) out₂ =
      some (pool', waiting'.filter fun o => !junk o, out₂') := by
  unfold Turn.begins at hb
  split at hb
  · cases hb
  · rename_i dir why harrival
    cases hb
    exact ⟨out₂.failed dir (oneLine why), by simp [Turn.begins, Turn.silence, harrival]⟩
  · rename_i o harrival
    cases hb
    by_cases hjunk : junk o = true
    · have hpool := hmute o (by simp [Turn.opened?, harrival]) hjunk pool (t.clock 0)
      exact ⟨out₂.failed o.dir (oneLine []), by
        simp [Turn.begins, Turn.silence, harrival, hjunk, hpool]⟩
    · exact ⟨out₂, by simp [Turn.begins, Turn.silence, harrival, hjunk, placed]⟩

/-- Answers that add nothing to the pool, and are not taken of directories that are told, come to
what the directories' failures to answer come to. -/
theorem silenced (hmute : ∀ t ∈ ts, ∀ o, t.opened? = some o → junk o = true →
      ∀ pool now, pooled root held pool o.proof now = pool)
    (hnot : ∀ p ∈ toldTurns root known held take ts pool waiting out, junk p.opened = true →
      p.NotTaken take)
    (out₂ : Unanswered) : ∃ ts', List.Forall₂ (Turn.Silences junk) ts ts' ∧
      toldTurns root known held take ts' pool (waiting.filter fun o => !junk o) out₂ =
        (toldTurns root known held take ts pool waiting out).filter (fun p => !junk p.opened) ∧
      (askTurns root known held take last ts' pool (waiting.filter fun o => !junk o) out₂).toOption =
        (askTurns root known held take last ts pool waiting out).toOption := by
  induction ts generalizing pool waiting out out₂ with
  | nil => exact ⟨[], .nil, rfl, rfl⟩
  | cons t ts ih =>
    have hlater := fun t' ht' => hmute t' (List.mem_cons_of_mem t ht')
    rw [toldTurns_cons] at hnot ⊢
    rw [askTurns_cons]
    cases hb : t.begins root held pool waiting out with
    | none =>
      simp only [hb] at hnot ⊢
      obtain ⟨ts', hsilences, htold, hasked⟩ := ih hlater hnot out₂
      have hlost : (t.silence junk waiting).begins root held pool (waiting.filter fun o => !junk o)
          out₂ = none := by
        unfold Turn.begins at hb
        split at hb
        · rename_i harrival
          simp [Turn.begins, Turn.silence, harrival]
        · cases hb
        · cases hb
      refine ⟨t.silence junk waiting :: ts', .cons (silences_silence junk waiting t) hsilences, ?_, ?_⟩
      · rw [toldTurns_cons, hlost, htold]
      · rw [askTurns_cons, hlost, hasked]
    | some b =>
      obtain ⟨pool', waiting', out'⟩ := b
      obtain ⟨out₂', hb'⟩ := begins_silence hb (hmute t List.mem_cons_self) out₂
      simp only [hb] at hnot ⊢
      have hpass := @askWaiting_filter T
        (fun now o => directoryVouched o.proof pool' root held known o.dir now)
        (fun head answer => take head answer pool') t.clock (t.silence junk waiting').clock 1 1 waiting'
        out' out₂' junk
        (fun n => by
          show t.clock (placed junk waiting' (1 + n)) = _
          rw [placed, if_neg (by omega), Nat.add_sub_cancel_left])
        (fun p hp => hnot ⟨p.1, pool', p.2⟩
          (List.mem_append_left _ (List.mem_map.mpr ⟨p, hp, rfl⟩)))
      have htoldPass : toldPass root known held take pool' (t.silence junk waiting').clock
          (waiting'.filter fun o => !junk o) out₂' =
          (toldPass root known held take pool' t.clock waiting' out').filter
            fun p => !junk p.opened := by
        rw [toldPass, toldPass, hpass.1, List.filter_map]
        rfl
      have haskPass := hpass.2
      revert haskPass
      cases hask : askPass root known held take pool' t.clock waiting' out' with
      | ok a =>
        cases hask' : askPass root known held take pool' (t.silence junk waiting').clock
            (waiting'.filter fun o => !junk o) out₂' with
        | error p =>
          intro hsame
          simp only [askPass] at hask hask'
          simp only [hask, hask', Except.mapError, reduceCtorEq] at hsame
        | ok a' =>
          intro hsame
          have hsame' : a' = a := by
            simp only [askPass] at hask hask'
            simpa only [hask, hask', Except.mapError, Except.ok.injEq] using hsame
          -- nothing comes after, and the other turns are silenced in any way
          refine ⟨t.silence junk waiting' :: ts.map (Turn.silence junk []),
            .cons (silences_silence junk waiting' t) ?_, ?_, ?_⟩
          · exact List.forall₂_map_right_iff.mpr
              (List.forall₂_same.mpr fun t _ => silences_silence junk [] t)
          · rw [toldTurns_cons, hb']
            simp only [hask', htoldPass, List.append_nil]
          · rw [askTurns_cons, hb']
            simp only [hask', hsame']
      | error p =>
        obtain ⟨left, out₃⟩ := p
        cases hask' : askPass root known held take pool' (t.silence junk waiting').clock
            (waiting'.filter fun o => !junk o) out₂' with
        | ok a' =>
          intro hsame
          simp only [askPass] at hask hask'
          simp only [hask, hask', Except.mapError, reduceCtorEq] at hsame
        | error p' =>
          obtain ⟨left', out₄⟩ := p'
          intro hsame
          have hleft : left' = left.filter fun o => !junk o := by
            simp only [askPass] at hask hask'
            simpa only [hask, hask', Except.mapError, Except.error.injEq] using hsame
          simp only [hask] at hnot ⊢
          obtain ⟨ts', hsilences, htold, hasked⟩ := ih hlater
            (fun p hp => hnot p (List.mem_append_right _ hp)) out₄
          refine ⟨t.silence junk waiting' :: ts',
            .cons (silences_silence junk waiting' t) hsilences, ?_, ?_⟩
          · rw [toldTurns_cons, hb']
            simp only [hask', htoldPass, hleft, htold, List.filter_append]
          · rw [askTurns_cons, hb']
            simp only [hask', hleft, hasked]

end

/-! ## The words held -/

namespace HeldView

variable {root : NodeId} {h : HeldView root}

/-- Every word kept with the view verifies for its head. -/
def Kept (h : HeldView root) : Prop := ∀ w ∈ h.fresh.words, w.fresh.verify h.view.head = .ok ()

theorem Kept.learnAll (hkept : h.Kept) (words : List Fresh) (now : Int64) :
    (h.learnAll words now).Kept := by
  intro w hw
  rcases FreshSet.mem_learn hw with hw | hw
  · exact hkept w hw
  · exact hw

theorem kept_fetched (view : View) (hv : view.verify root = .ok ()) (fresh : Option Fresh)
    (now : Int64) : (fetched view hv fresh now).Kept := by
  intro w hw
  rcases FreshSet.mem_learn hw with hw | hw
  · cases hw
  · exact hw

theorem kept_takeView {held : Option (HeldView root)} {now : Int64} {proved : SignedPolicyHead}
    {answer : DirectoryAnswer} {pool : FreshSet} (ht : takeView held now proved answer pool = .ok h) :
    h.Kept := by
  unfold takeView at ht
  split at ht
  · rename_i view word
    obtain ⟨_, -, ht⟩ := bind_eq_ok.mp ht
    split at ht
    · cases ht
    · rename_i hv
      simp only [bind_eq_ok, context_eq_ok, anyhow_eq_ok, pure_eq_ok, ensure_eq_ok, exists_const,
        exists_and_right, exists_ok_unit] at ht
      obtain ⟨-, -, rfl⟩ := ht
      exact ((kept_fetched view hv (some word) now).learnAll _ now).learnAll _ now
  · cases ht
  · cases ht

/-- What is fetched keeps words for its own head only. -/
theorem kept_fetch {known : List NodeId} {held : Option (HeldView root)} {now : Int64}
    {turns : List Turn} {last : Int64} (hf : fetch known held now turns last = .ok h) : h.Kept := by
  unfold fetch at hf
  split at hf
  · rename_i h' ha
    cases hf
    obtain ⟨o, pool, asked, answer, -, -, -, ht⟩ := askTurns_eq_ok ha
    exact kept_takeView ht
  · split at hf <;> cases hf

theorem kept_fromUnverified (words : List Fresh) (head : SignedPolicyHead) :
    ∀ w ∈ (FreshSet.fromUnverified words head).words, w.fresh.verify head = .ok () := by
  have hnone : ∀ w ∈ FreshSet.empty.words, w.fresh.verify head = .ok () := fun w hw => by cases hw
  refine @List.foldlRecOn _ _ (fun set : FreshSet => ∀ w ∈ set.words, w.fresh.verify head = .ok ())
    words _ _ hnone fun set hset f _ => ?_
  split
  · rename_i v hv
    obtain ⟨hverify, hfresh⟩ := Fresh.toVerified_eq_ok.mp hv
    intro w hw
    rcases FreshSet.mem_insert hw with hw | rfl
    · exact hset w hw
    · exact hfresh ▸ hverify
  · exact hset

/-- So does what is read back. -/
theorem kept_readView {path : String} {file : ViewFile} (hr : readView path root file = .ok (some h)) :
    h.Kept := by
  unfold readView at hr
  split at hr
  · cases hr
  · cases hr
  · cases hr
  · split at hr
    · cases hr
    · cases hr
      exact kept_fromUnverified _ _

theorem rooted_of_kept (hkept : h.Kept) : h.fresh.Rooted root (some h.view.head) := fun w hw =>
  ⟨h.view.head, h.verify_head, fun _ hh => by cases hh; exact UInt64.le_refl _, hkept w hw⟩

end HeldView

/-! ## Whatever the directories show -/

/-- The head of an answer's proof is not the root's. -/
def Opened.HeadFails (root : NodeId) (o : Opened) : Prop := o.proof.head.verify root ≠ .ok ()

/-- No word of an answer's proof verifies for its head. -/
def Opened.WordsFail (o : Opened) : Prop := ∀ f ∈ o.proof.fresh, f.verify o.proof.head ≠ .ok ()

theorem pooled_of_fails {root : NodeId} {held : Option SignedPolicyHead} {o : Opened}
    (h : o.HeadFails root ∨ o.WordsFail) (pool : FreshSet) (now : Int64) :
    pooled root held pool o.proof now = pool := by
  have hnone : poolWords o.proof root held now = [] := by
    apply List.eq_nil_iff_forall_not_mem.mpr
    intro w hw
    obtain ⟨hhead, -, hmem, hword⟩ := poolWords_of_mem hw
    rcases h with h | h
    · exact h hhead
    · exact h w.fresh hmem hword
  rw [pooled, hnone, List.foldl_nil]

section

variable {T : Type} {root : NodeId} (known : List NodeId) (held : Option (HeldView root))
  (take : SignedPolicyHead → DirectoryAnswer → FreshSet → Except Anyhow T) (turns : List Turn)
  (last : Int64)

/-- The pool after some turns. -/
def poolAfter (n : Nat) : FreshSet :=
  (turns.take n).foldl (Turn.pools root (held.map (·.view.head)))
    ((held.map (·.fresh)).getD FreshSet.empty)

/-- Whatever directories show, and in whichever order: who is told the token may be, no one is told
twice, the pool holds only words for heads of the root's no older than the one held, and an answer
whose head does not verify, or whose words do not and which is not taken where it is told itself,
changes nothing for the others that the directory's failure to answer would not. -/
theorem asked_safely (hkept : ∀ h, held = some h → h.Kept)
    (hdirs : ((turns.filterMap Turn.opened?).map (·.dir)).Nodup) :
    (∀ p ∈ told known held take turns, MayBeTold root (held.map (·.view.head)) known p.opened.dir
      p.opened.proof.head p.at_) ∧
    ((told known held take turns).map (·.opened.dir)).Nodup ∧
    (∀ n, (poolAfter held turns n).Rooted root (held.map (·.view.head))) ∧
    (∀ p ∈ told known held take turns, ∃ n, p.pool = poolAfter held turns n) ∧
    ∀ junk : Opened → Bool,
      (∀ o ∈ turns.filterMap Turn.opened?, junk o = true → o.HeadFails root ∨
        o.WordsFail ∧ ∀ p ∈ told known held take turns, p.opened = o → p.NotTaken take) →
      ∃ turns', List.Forall₂ (Turn.Silences junk) turns turns' ∧
        told known held take turns' =
          (told known held take turns).filter (fun p => !junk p.opened) ∧
        (askProven known held take turns' last).toOption =
          (askProven known held take turns last).toOption := by
  have hsubperm := @subperm_toldTurns _ T root known (held.map fun h : HeldView root => h.view.head) take
    turns ((held.map fun h : HeldView root => h.fresh).getD FreshSet.empty) [] ⟨[], false⟩
  refine ⟨fun p hp => mayBeTold_of_vouched (told_vouched hp), ?_, fun n => ?_,
    fun p hp => pool_of_mem_toldTurns hp, fun junk hjunk => ?_⟩
  · obtain ⟨l, hperm, hsub⟩ := hsubperm
    have hnodup := (hperm.map (·.dir)).nodup_iff.mp ((hsub.map (·.dir)).nodup hdirs)
    rwa [List.map_map] at hnodup
  · apply rooted_turns
    cases held with
    | none => exact fun w hw => by cases hw
    | some h => exact HeldView.rooted_of_kept (hkept h rfl)
  · have hnot : ∀ p ∈ told known held take turns, junk p.opened = true → p.NotTaken take := by
      intro p hp hj
      rcases hjunk p.opened (hsubperm.subset (List.mem_map_of_mem hp)) hj with hfails | ⟨-, hne⟩
      · exact absurd (mayBeTold_of_vouched (told_vouched hp)).verified hfails
      · exact hne p hp rfl
    exact @silenced _ T root known (held.map fun h : HeldView root => h.view.head) take last turns
      ((held.map fun h : HeldView root => h.fresh).getD FreshSet.empty) [] ⟨[], false⟩ junk
      (fun t ht o ho hj => pooled_of_fails
        ((hjunk o (List.mem_filterMap.mpr ⟨t, ht, ho⟩) hj).imp_right And.left)) hnot ⟨[], false⟩

end

end

/-! ## A directory that stands on another's word -/

section

variable [Crypto] {T : Type} {root : NodeId} {known : List NodeId} {held : Option SignedPolicyHead}
  {take : SignedPolicyHead → DirectoryAnswer → FreshSet → Except Anyhow T} {last now : Int64}
  {first second : Opened} {start pool : FreshSet} {why : Anyhow}

/-- The second of two directories answers what is taken. -/
theorem askTurns_second {view : View} {word : Fresh} {taken : T}
    (hstart : pooled root held start first.proof now = pool)
    (hpool : pooled root held pool second.proof now = pool)
    (hrefused : directoryVouched first.proof pool root held known first.dir now = .error why)
    (hvouched : directoryVouched second.proof pool root held known second.dir now = .ok ())
    (hanswer : second.answer = .ok (.view view word))
    (htake : take second.proof.head (.view view word) pool = .ok taken) :
    askTurns root known held take last
      [⟨.opened first, fun _ => now⟩, ⟨.opened second, fun _ => now⟩] start [] ⟨[], false⟩ =
        .ok taken := by
  simp only [askTurns, hstart, hpool, List.nil_append, List.cons_append, askWaiting, hrefused,
    hvouched, Opened.ask, hanswer, htake]

/-- The second of two directories fails to answer, and the first may not be told. -/
theorem askTurns_alone {t₁ t₂ : Turn} {dir : NodeId} (hopened : t₁.arrival = .opened first)
    (hfailed : t₂.arrival = .failed dir why) (hclock₁ : ∀ n, t₁.clock n = now)
    (hclock₂ : ∀ n, t₂.clock n = now) {why' : Anyhow}
    (hstart : pooled root held start first.proof now = pool)
    (hrefused : directoryVouched first.proof pool root held known first.dir now = .error why') :
    (askTurns root known held take last [t₁, t₂] start [] ⟨[], false⟩).toOption = none := by
  simp only [askTurns, hopened, hfailed, hclock₁, hclock₂, hstart, List.nil_append, askWaiting,
    hrefused, Except.toOption]

end

section Sample

attribute [local instance] Crypto.plain

/-- A policy of two directories. -/
def pairPolicy : Policy :=
  { Policy.new (nodeId sampleRoot) with
    version := 1
    notAfter := 10000
    directories := [sampleNode 2, sampleNode 3] }

theorem validate_pairPolicy : pairPolicy.validate = .ok () := by decide

def pairHead : SignedPolicyHead := (pairPolicy.signed sampleRoot none).head

theorem verify_pairHead : pairHead.verify (nodeId sampleRoot) = .ok () := by
  have hsigned := Policy.verify_signed_none rfl validate_pairPolicy
  exact (SignedPolicy.verify_eq_ok.mp hsigned).1

theorem verify_pairView : (View.mk pairHead []).verify (nodeId sampleRoot) = .ok () :=
  View.verify_eq_ok.mpr ⟨verify_pairHead, by simp, by simp⟩

/-- A word of the first directory comes with its proof; of the second's word, nothing verifies, and it
answers with a view. -/
def pairTurns (f : Fresh) : List Turn :=
  [⟨.opened ⟨sampleNode 2, ⟨pairHead, [f]⟩, .error ["gone"]⟩, fun _ => 0⟩,
    ⟨.opened ⟨sampleNode 3, ⟨pairHead, [{ f with format := 0 }]⟩, .ok (.view ⟨pairHead, []⟩ f)⟩,
      fun _ => 0⟩]

/-- A caller that holds no view, and what it takes. -/
def noView : Option (HeldView (nodeId sampleRoot)) := none

def pairTake : SignedPolicyHead → DirectoryAnswer → FreshSet →
    Except Anyhow (HeldView (nodeId sampleRoot)) := takeView noView 0

theorem sign_pairHead : ∃ f, Fresh.sign (2 : UInt8) pairHead 0 100 = .ok f := ⟨_, rfl⟩

theorem nodup_pairTurns (f : Fresh) : (((pairTurns f).filterMap Turn.opened?).map (·.dir)).Nodup := by
  show [sampleNode 2, sampleNode 3].Nodup
  decide

/-- A head of another network. -/
def otherHead : SignedPolicyHead :=
  { pairHead with head := { pairHead.head with fabric := sampleNode 9 } }

theorem otherHead_fails : otherHead.verify (nodeId sampleRoot) ≠ .ok () := fun hv => by
  have hfabric : sampleNode 9 = nodeId sampleRoot := (SignedPolicyHead.verify_eq_ok.mp hv).2.2.1
  exact absurd hfabric (by decide)

/-- A third directory shows it. -/
def junkTurn : Turn := ⟨.opened ⟨sampleNode 5, ⟨otherHead, []⟩, .error ["gone"]⟩, fun _ => 0⟩

/-- A word of no format there is does not verify. -/
theorem garbled_fails {f : Fresh} : ∀ g ∈ [{ f with format := 0 }], g.verify pairHead ≠ .ok () := by
  intro g hg hv
  rw [List.mem_singleton.mp hg] at hv
  have hformat : (0 : UInt8) = FRESH_V1 := (Fresh.verify_eq_ok.mp hv).1
  exact absurd hformat (by decide)

/-- What a third shows, and one that may be told and whose answer is an error. -/
def junkTurns (f : Fresh) : List Turn :=
  [junkTurn, ⟨.opened ⟨sampleNode 2, ⟨pairHead, [f]⟩, .error ["gone"]⟩, fun _ => 0⟩,
    ⟨.opened ⟨sampleNode 3, ⟨pairHead, [{ f with format := 0 }]⟩, .error ["gone"]⟩, fun _ => 0⟩]

/-- An answer with a head of another network is told nothing. -/
theorem refused_junkTurn (pool : FreshSet) : ∃ why,
    directoryVouched { head := otherHead, fresh := [] } pool (nodeId sampleRoot) none []
      (sampleNode 5) 0 = .error why := by
  cases hv : directoryVouched { head := otherHead, fresh := [] } pool (nodeId sampleRoot) none []
    (sampleNode 5) 0 with
  | error why => exact ⟨why, rfl⟩
  | ok u => exact absurd (mayBeTold_of_vouched hv).verified otherHead_fails

section

variable {f : Fresh} (hf : Fresh.sign (2 : UInt8) pairHead 0 100 = .ok f)
include hf

/-- The pool, once the first proof has come. -/
theorem pooled_pairHead : pooled (nodeId sampleRoot) none FreshSet.empty ⟨pairHead, [f]⟩ 0 =
    ⟨[⟨f, pairHead, (Fresh.of_sign hf).1⟩]⟩ :=
  pooled_singleton verify_pairHead (SignedPolicyHead.checkFresh_eq_ok.mpr (by decide))
    (Fresh.of_sign hf).1 nofun (.inl rfl)

/-- The first directory is not vouched for: no word but its own is there. -/
theorem refused_pairHead {w : VerifiedFresh} (hw : w.fresh = f) : ∃ why,
    directoryVouched ⟨pairHead, [f]⟩ ⟨[w]⟩ (nodeId sampleRoot) none [] (sampleNode 2) 0 =
      .error why := by
  cases hv : directoryVouched ⟨pairHead, [f]⟩ ⟨[w]⟩ (nodeId sampleRoot) none [] (sampleNode 2) 0 with
  | error why => exact ⟨why, rfl⟩
  | ok u =>
    obtain ⟨-, hdir, -⟩ := Fresh.of_sign hf
    obtain ⟨g, hg, hvouches, -⟩ := word_of_vouched hv
    have hset : (⟨[w]⟩ : FreshSet).learn ([f].take MAX_FRESH_SET) pairHead 0 = ⟨[w]⟩ := by
      rw [← hw]
      exact FreshSet.learn_singleton
    rw [hset] at hg
    have hgf : g = f := by
      have hmem := List.mem_of_mem_filter (List.mem_of_mem_take hg)
      rw [← hw]
      simpa using hmem
    have halone := (Fresh.vouches_eq_ok.mp hvouches).2.2
    rw [hgf] at halone
    have hpair : pairHead.head.directories ≠ [sampleNode 2] := by decide
    exact absurd (halone hdir) hpair

/-- The second one is, though no word of its own verifies. -/
theorem vouched_pairHead {w : VerifiedFresh} (hw : w.fresh = f) :
    directoryVouched ⟨pairHead, [{ f with format := 0 }]⟩ ⟨[w]⟩ (nodeId sampleRoot) none []
      (sampleNode 3) 0 = .ok () := by
  obtain ⟨hverify, hdir, hat, huntil⟩ := Fresh.of_sign hf
  have hfails : ∀ g ∈ [{ f with format := 0 }].take MAX_FRESH_SET, g.verify pairHead ≠ .ok () :=
    fun g hg => garbled_fails g (List.mem_of_mem_take hg)
  have hcurrent : f.isCurrent 0 = true := by
    rw [Fresh.isCurrent, hat, huntil]
    decide
  have hvouches : w.fresh.vouches pairHead (sampleNode 3) 0 = .ok () := by
    rw [hw]
    refine Fresh.vouches_eq_ok.mpr ⟨hverify, hcurrent, fun hself => ?_⟩
    have hne : nodeId (2 : UInt8) ≠ sampleNode 3 := by decide
    exact absurd (hdir.symm.trans hself) hne
  exact directoryVouched_of_learn (FreshSet.learn_of_fails hfails _ _) verify_pairHead
    (SignedPolicyHead.checkFresh_eq_ok.mpr (by decide)) (by decide) hvouches
    fun _ hh => by cases hh

/-- The one that may be told is, though its answer is an error. -/
theorem told_junkTurns : ∃ p ∈ told [] noView pairTake (junkTurns f), p.opened.dir = sampleNode 3 := by
  have hother := @pooled_of_fails _ (nodeId sampleRoot) none
    ⟨sampleNode 5, ⟨otherHead, []⟩, .error []⟩ (.inl otherHead_fails) FreshSet.empty 0
  have hpool := pooled_pairHead hf
  generalize hw : (⟨f, pairHead, (Fresh.of_sign hf).1⟩ : VerifiedFresh) = w at hpool
  obtain ⟨why, hrefused⟩ := refused_pairHead hf (w := w) (by rw [← hw])
  have hvouched := vouched_pairHead hf (w := w) (by rw [← hw])
  have hmute := @pooled_of_fails _ (nodeId sampleRoot) none
    ⟨sampleNode 3, ⟨pairHead, [{ f with format := 0 }]⟩, .error []⟩ (.inr garbled_fails) ⟨[w]⟩ 0
  obtain ⟨why₁, hjunk₁⟩ := refused_junkTurn FreshSet.empty
  obtain ⟨why₂, hjunk₂⟩ := refused_junkTurn ⟨[w]⟩
  refine ⟨⟨⟨sampleNode 3, ⟨pairHead, [{ f with format := 0 }]⟩, .error ["gone"]⟩, ⟨[w]⟩, 0⟩, ?_, rfl⟩
  simp only [told, noView, junkTurns, junkTurn, toldTurns, toldPass, askPass, toldWaiting, askWaiting,
    Option.map_none, Option.getD_none, List.nil_append, List.cons_append, hother, hjunk₁, hpool, hjunk₂,
    hrefused, hmute, hvouched, Opened.ask, List.map_nil, List.map_cons, List.mem_singleton,
    List.append_nil]

/-- With the second answer, its view is taken. -/
theorem takes_pairTurns : ∃ h, askProven [] noView pairTake (pairTurns f) 0 = .ok h := by
  obtain ⟨why, hrefused⟩ := refused_pairHead hf (w := ⟨f, pairHead, (Fresh.of_sign hf).1⟩) rfl
  have hvouched := vouched_pairHead hf (w := ⟨f, pairHead, (Fresh.of_sign hf).1⟩) rfl
  have hmute := @pooled_of_fails _ (nodeId sampleRoot) none
    ⟨sampleNode 3, ⟨pairHead, [{ f with format := 0 }]⟩, .error []⟩ (.inr garbled_fails)
    ⟨[⟨f, pairHead, (Fresh.of_sign hf).1⟩]⟩ 0
  have htake := @takeView_of_verify _ (nodeId sampleRoot) noView 0 ⟨pairHead, []⟩ f verify_pairView
    (Fresh.of_sign hf).1 (fun _ hh => by cases hh) ⟨[⟨f, pairHead, (Fresh.of_sign hf).1⟩]⟩
  exact ⟨_, askTurns_second (pooled_pairHead hf) hmute hrefused hvouched rfl htake⟩

/-- Without it, none is. -/
theorem takes_silenced {turns : List Turn}
    (hsilences : List.Forall₂ (Turn.Silences fun o => o.dir = sampleNode 3) (pairTurns f) turns) :
    (askProven [] noView pairTake turns 0).toOption = none := by
  obtain ⟨why, hrefused⟩ := refused_pairHead hf (w := ⟨f, pairHead, (Fresh.of_sign hf).1⟩) rfl
  obtain ⟨t₁, rest, ⟨harrival₁, φ₁, -, -, hclock₁⟩, hrest, rfl⟩ :=
    List.forall₂_cons_left_iff.mp hsilences
  obtain ⟨t₂, rest', ⟨harrival₂, φ₂, -, -, hclock₂⟩, hnil, rfl⟩ := List.forall₂_cons_left_iff.mp hrest
  obtain rfl := List.forall₂_nil_left_iff.mp hnil
  have hfirst : ¬sampleNode 2 = sampleNode 3 := by decide
  simp only [hfirst, decide_false, Bool.false_eq_true, if_false] at harrival₁
  simp only [decide_true, if_true] at harrival₂
  obtain ⟨why₂, harrival₂⟩ := harrival₂
  exact askTurns_alone harrival₁ harrival₂ hclock₁ hclock₂ (pooled_pairHead hf) hrefused

end

/-- Who else is told the token is the same where the two do not answer. -/
theorem asked_safely_sample : ∃ f, Fresh.sign (2 : UInt8) pairHead 0 100 = .ok f ∧
    (∀ p ∈ told [] noView pairTake (junkTurns f),
      MayBeTold (nodeId sampleRoot) none [] p.opened.dir p.opened.proof.head p.at_) ∧
    (∃ p ∈ told [] noView pairTake (junkTurns f), p.opened.dir = sampleNode 3) ∧
    ∃ turns', List.Forall₂ (Turn.Silences fun o => o.dir ≠ sampleNode 2) (junkTurns f) turns' ∧
      told [] noView pairTake turns' =
        (told [] noView pairTake (junkTurns f)).filter fun p => !decide (p.opened.dir ≠ sampleNode 2) := by
  obtain ⟨f, hf⟩ := sign_pairHead
  have hnodup : (((junkTurns f).filterMap Turn.opened?).map (·.dir)).Nodup := by
    show [sampleNode 5, sampleNode 2, sampleNode 3].Nodup
    decide
  obtain ⟨htold, -, -, -, hjunk⟩ := asked_safely [] noView pairTake (junkTurns f) 0 nofun hnodup
  obtain ⟨turns', hsilences, hsame, -⟩ := hjunk (fun o => o.dir ≠ sampleNode 2) fun o ho hdir => by
    simp only [junkTurns, junkTurn, Turn.opened?, List.filterMap_cons, List.filterMap_nil,
      List.mem_cons, List.not_mem_nil, or_false] at ho
    rcases ho with rfl | rfl | rfl
    · exact .inl otherHead_fails
    · exact absurd rfl (of_decide_eq_true hdir)
    · refine .inr ⟨garbled_fails, fun p _ hp => ?_⟩
      rw [Told.NotTaken, hp]
      rfl
  exact ⟨f, hf, htold, told_junkTurns hf, turns', hsilences, hsame⟩

/-- An answer with no word that verifies is told the token on another directory's word, and its view
taken, where its directory's failure to answer leaves the caller with none. -/
theorem not_asked_safely : ¬∀ (root : NodeId) (known : List NodeId) (held : Option (HeldView root))
    (now last : Int64) (turns : List Turn) (junk : Opened → Bool),
    (∀ h, held = some h → h.Kept) → ((turns.filterMap Turn.opened?).map (·.dir)).Nodup →
    (∀ o ∈ turns.filterMap Turn.opened?, junk o = true → o.HeadFails root ∨ o.WordsFail) →
    ∃ turns', List.Forall₂ (Turn.Silences junk) turns turns' ∧
      told known held (takeView held now) turns' =
        (told known held (takeView held now) turns).filter (fun p => !junk p.opened) ∧
      (askProven known held (takeView held now) turns' last).toOption =
        (askProven known held (takeView held now) turns last).toOption := by
  intro hall
  obtain ⟨f, hf⟩ := sign_pairHead
  obtain ⟨h, htakes⟩ := takes_pairTurns hf
  obtain ⟨turns', hsilences, -, hsame⟩ := hall (nodeId sampleRoot) [] noView 0 0 (pairTurns f)
    (fun o => o.dir = sampleNode 3) nofun (nodup_pairTurns f) fun o ho hjunk => by
      simp only [pairTurns, Turn.opened?, List.filterMap_cons, List.filterMap_nil, List.mem_cons,
        List.not_mem_nil, or_false] at ho
      rcases ho with rfl | rfl
      · have hfirst : ¬sampleNode 2 = sampleNode 3 := by decide
        exact absurd (of_decide_eq_true hjunk) hfirst
      · exact .inr garbled_fails
  have hnone := takes_silenced hf hsilences
  rw [pairTake] at htakes hnone
  rw [htakes, hnone] at hsame
  cases hsame

end Sample

end Wires
