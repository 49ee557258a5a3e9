import Wires.Impl.Follow
import Wires.Proof.Directory

/-!
# What a follower takes

Whatever a directory sends a host's follower, and whatever the host's other
tasks do meanwhile (`follows`): the stored version never goes down and what is
stored verifies; a word is kept only for a head that was stored during the
take, by a directory it lists; a directory is told behind only for a word that
is its own or a listed directory's; and a take that ends in an error has
changed neither the stored policy nor the words. The last is carried through
the take's steps by `Fares`: until something is written nothing has changed,
and once it is, the word is for it or for an older head.
-/

namespace Wires

section

variable [Crypto]

/-! ## The store -/

namespace Adopt

variable {ι : Type} [DecidableEq ι] {path : String} {root : NodeId} {σ τ : Adopt ι}
  {e : AdoptEvent ι} {file : PolicyFile}

/-- The file cannot be read, and nobody is about to write. -/
def Unread (path : String) (root : NodeId) (σ : Adopt ι) : Prop :=
  (∃ why, read path root σ.file = .error why) ∧ ∀ i c, σ.calls i = some c → c.stage ≠ .writes

theorem Unread.goes (h : Unread path root σ) {i : ι} {c : Call} {stage : Stage}
    (hcalls : τ.calls = (σ.goes i c stage).calls) (hfile : τ.file = σ.file)
    (hs : stage ≠ .writes) : Unread path root τ := by
  refine ⟨hfile ▸ h.1, fun j d hj => ?_⟩
  rw [hcalls, calls_goes] at hj
  split_ifs at hj
  · cases hj
    exact hs
  · exact h.2 j d hj

theorem Unread.step (h : Unread path root σ) (hm : Moves path root σ e τ) :
    Unread path root τ ∧ τ.file = σ.file := by
  obtain ⟨why, hread⟩ := h.1
  cases hm with
  | first _ _ hr => cases hread.symm.trans hr
  | newer _ _ hr _ => cases hread.symm.trans hr
  | writes hi hs => exact absurd hs (h.2 _ _ hi)
  | offered | refused | locks | unread | older | unlocks | failsWaiting | failsLocked =>
    exact ⟨h.goes rfl rfl nofun, rfl⟩

/-- Whatever file a store started on, what it holds can be read, or nobody writes. -/
theorem Reached.good (h : Reached path root file σ) :
    (Locked σ ∧ Sound path root σ) ∨ Unread path root σ := by
  obtain ⟨es, hes⟩ := h
  cases hread : read path root file with
  | ok held => exact .inl (good_of_run hread hes)
  | error why =>
    have hstart : Unread path root (start file : Adopt ι) := ⟨⟨why, hread⟩, nofun⟩
    exact .inr (run_invariant (fun _ _ _ h hs => (h.step (moves_of_step hs)).1) hstart hes)

/-- A step leaves the file, or writes a newer policy that verifies. -/
theorem Reached.writes (h : Reached path root file σ) (hs : σ.step path root e = some τ) :
    τ.file = σ.file ∨ ∃ c : Candidate, c.policy.verify root = .ok () ∧
      τ.file = .text (policyText c.policy) ∧ storedVersion path root σ.file < c.policy.version ∧
      ∃ i d, e = .write i ∧ σ.calls i = some d ∧ d.candidate = c := by
  have hm := moves_of_step hs
  rcases h.good with ⟨-, hsound⟩ | hunread
  · rcases storedVersion_step hsound hm with ⟨hfile, -⟩ | ⟨i, d, he, hi, hc, hfile, hv, hlt⟩
    · exact .inl hfile
    · exact .inr ⟨d.candidate, (checkOffered_eq_ok.mp hc).1, hfile, hv ▸ hlt, i, d, he, hi, rfl⟩
  · exact .inl (hunread.step hm).2

theorem Reached.grows (h : Reached path root file σ) (hs : σ.step path root e = some τ) :
    storedVersion path root σ.file ≤ storedVersion path root τ.file := by
  rcases h.writes hs with hfile | ⟨c, hv, hfile, hlt, -⟩
  · rw [hfile]
  · rw [hfile, storedVersion_policyText path hv]
    exact hlt.le

/-- A call that wrote says so, and one's own step that does not write leaves the file. -/
theorem result_of_step (hs : σ.step path root e = some τ) {i : ι} {c : Call}
    (hi : σ.calls i = some c) : ∃ d, τ.calls i = some d ∧ d.candidate = c.candidate ∧
      (c.stage.result = some (.ok true) → d.stage.result = some (.ok true)) ∧
      (who e = i → τ.file = σ.file ∨ d.stage.result = some (.ok true)) := by
  have hm := moves_of_step hs
  by_cases hw : who e = i
  · subst hw
    cases hm with
    | offered hj | refused hj =>
      rw [who, hj] at hi
      cases hi
    | writes hj _ =>
      obtain rfl := Option.some.inj (hj.symm.trans hi)
      exact ⟨_, calls_goes.trans (if_pos rfl), rfl, fun _ => rfl, fun _ => .inr rfl⟩
    | unlocks hj hstage =>
      obtain rfl := Option.some.inj (hj.symm.trans hi)
      refine ⟨_, calls_goes.trans (if_pos rfl), rfl, fun hr => ?_, fun _ => .inl rfl⟩
      rw [hstage] at hr
      exact hr
    | locks hj hstage | unread hj hstage | first hj hstage | newer hj hstage | older hj hstage
    | failsWaiting hj hstage =>
      obtain rfl := Option.some.inj (hj.symm.trans hi)
      refine ⟨_, calls_goes.trans (if_pos rfl), rfl, fun hr => ?_, fun _ => .inl rfl⟩
      rw [hstage] at hr
      cases hr
    | failsLocked hj hstage =>
      obtain rfl := Option.some.inj (hj.symm.trans hi)
      refine ⟨_, calls_goes.trans (if_pos rfl), rfl, fun hr => ?_, fun _ => .inl rfl⟩
      rcases hstage with hstage | hstage
      · rw [hstage] at hr
        cases hr
      · rw [hstage] at hr
        cases hr
  · exact ⟨c, (calls_of_ne hm hw).trans hi, rfl, id, fun he => absurd he hw⟩

end Adopt

/-! ## The words -/

namespace Freshness

variable {f : Freshness} {fresh : Fresh} {head : SignedPolicyHead} {now : Int64}
  {written : Except Anyhow Unit}

/-- What an offer adds is the word offered, if it is for the head. -/
theorem mem_offer {v : VerifiedFresh} (h : v ∈ (f.offer fresh head now written).2.held.words) :
    v ∈ f.held.words ∨ v.fresh = fresh ∧ fresh.verify head = .ok () := by
  unfold offer at h
  split at h
  · exact .inl h
  · rename_i w hw
    obtain ⟨hverify, hfresh⟩ := Fresh.toVerified_eq_ok.mp hw
    have hinsert : ∀ set kept, f.held.insert w now = (set, kept) → v ∈ set.words →
        v ∈ f.held.words ∨ v.fresh = fresh ∧ fresh.verify head = .ok () := by
      intro set kept hset hv
      have hmem : v ∈ (f.held.insert w now).1.words := by rwa [hset]
      rcases FreshSet.mem_insert hmem with hold | rfl
      · exact .inl hold
      · exact .inr ⟨hfresh, hverify⟩
    split at h
    · exact .inl h
    · rename_i set hset
      split at h
      · exact hinsert set true hset h
      · exact hinsert set true hset h

/-- An offer that fails, the file having been written, changes nothing, and its word is not for the
head. -/
theorem offer_eq_error {e : Anyhow} (h : (f.offer fresh head now (.ok ())).1 = .error e) :
    (f.offer fresh head now (.ok ())).2 = f ∧ fresh.verify head ≠ .ok () := by
  unfold offer at h ⊢
  split
  · rename_i why hwhy
    refine ⟨rfl, fun hverify => ?_⟩
    obtain ⟨v, hv⟩ : ∃ v, fresh.toVerified head = .ok v :=
      ⟨⟨fresh, head, hverify⟩, Fresh.toVerified_eq_ok.mpr ⟨hverify, rfl⟩⟩
    cases hwhy.symm.trans hv
  · rename_i w hw
    rw [hw] at h
    dsimp only at h
    split at h
    · cases h
    · cases h

end Freshness

/-! ## Frames -/

namespace Directory

/-- A word that may be held against what is stored: the followed directory's own, or one for the
head of the policy it came with, which the root signed. -/
def OwnWord (root : NodeId) (x : Incoming) (fresh : Fresh) : Prop :=
  (x.frame = .fresh fresh ∧ fresh.verifySignature = .ok () ∧ fresh.directory = x.dir ∧
    fresh.fabric = root) ∨
  ∃ policy, x.frame = .policy policy fresh ∧ policy.head.verify root = .ok () ∧
    fresh.verify policy.head = .ok ()

theorem ownWord_of_checkFrame {root : NodeId} {x : Incoming} {fresh : Fresh}
    (h : checkFrame root x.dir x.frame = .ok fresh) : OwnWord root x fresh := by
  cases hf : x.frame with
  | denied reason =>
    rw [hf] at h
    cases h
  | policy policy word =>
    rw [hf] at h
    simp only [checkFrame, bind_eq_ok, context_eq_ok, anyhow_eq_ok, pure_eq_ok, exists_and_right,
      exists_ok_unit] at h
    obtain ⟨hhead, hword, rfl⟩ := h
    exact .inr ⟨policy, hf, hhead, hword⟩
  | fresh word =>
    rw [hf] at h
    simp only [checkFrame, bind_eq_ok, context_eq_ok, anyhow_eq_ok, pure_eq_ok, ensure_eq_ok,
      exists_and_right, exists_const, exists_ok_unit, not_or, not_not] at h
    obtain ⟨hsig, ⟨hdir, hfabric⟩, rfl⟩ := h
    exact .inl ⟨hf, hsig, hdir, hfabric⟩

/-- The word of a frame that brings a policy is for that policy. -/
theorem OwnWord.verify_candidate {root : NodeId} {x : Incoming} {fresh : Fresh} {c : Candidate}
    (h : OwnWord root x fresh) (hc : x.candidate = some c) : fresh.verify c.policy.head = .ok () := by
  unfold Incoming.candidate at hc
  rcases h with ⟨hf, -⟩ | ⟨policy, hf, -, hverify⟩
  · split at hc
    · rename_i hpolicy
      cases hf.symm.trans hpolicy
    · cases hc
  · split at hc
    · rename_i hpolicy
      cases hf.symm.trans hpolicy
      cases hc
      exact hverify
    · cases hc

namespace Following

variable {root : NodeId} {ι : Type} [DecidableEq ι]

/-! ## Steps -/

/-- What a step does, by where the take is. -/
inductive Moves (path : String) (own : Option NodeIdentity) (s : Following root ι) :
    FollowEvent root ι → Following root ι → Prop
  | store {e σ} : s.store.step path root e = some σ → Moves path own s (.store e) { s with store := σ }
  | announces {c} : Moves path own s (.announces c) { s with current := some c }
  | others {fresh head now written} : Moves path own s (.offers fresh head now written)
      { s with freshness := (s.freshness.offer fresh head now written).2 }
  | refuses {x why} : Moves path own s (.take x) (s.fails x why)
  | begins {x fresh} : checkFrame root x.dir x.frame = .ok fresh →
    Moves path own s (.take x) { s with stage := .reads x fresh }
  | behind {x fresh readable held} : s.stage = .reads x fresh →
    read path root s.store.file = .ok (some held) → fresh.version < held.version →
    Moves path own s (.version readable)
      { s with stage := .took x (.error (.behind fresh.version held.version)) }
  | brings {x fresh c readable} : s.stage = .reads x fresh → x.candidate = some c →
    Moves path own s (.version readable) { s with stage := .adopts x fresh c }
  | beats {x fresh readable} : s.stage = .reads x fresh →
    Moves path own s (.version readable) { s with stage := .vouches x fresh }
  | calls {x fresh c i σ} : s.stage = .adopts x fresh c →
    s.store.step path root (.call i c x.now) = some σ →
    Moves path own s (.adopt i) { s with store := σ, stage := .awaits x fresh c i }
  | stands {x fresh c i} : s.stage = .adopts x fresh c →
    Moves path own s (.adopt i) { s with stage := .vouches x fresh }
  | stops {e x fresh c why} : s.stage = .adopts x fresh c →
    (∃ i, e = .adopt i) ∨ (∃ why, e = .poisoned why) → Moves path own s e (s.fails x why)
  | unadopted {x fresh c i d why fault} : s.stage = .awaits x fresh c i →
    s.store.calls i = some d → d.stage = .returned (.error why) →
    Moves path own s (.adopted fault) (s.fails x why)
  | unread {x fresh c i why fault} : s.stage = .awaits x fresh c i →
    fault = some why ∨ read path root s.store.file = .error why →
    Moves path own s (.adopted fault) (s.fails x why)
  | adopted {x fresh c i d b fault current} : s.stage = .awaits x fresh c i →
    s.store.calls i = some d → d.stage = .returned (.ok b) →
    Moves path own s (.adopted fault) { s with current, stage := .vouches x fresh }
  | unvouched {x fresh why fault} : s.stage = .vouches x fresh →
    fault = some why ∨ read path root s.store.file = .error why →
    Moves path own s (.vouch fault) (s.fails x why)
  | passes {x fresh fault} : s.stage = .vouches x fresh →
    Moves path own s (.vouch fault) { s with stage := .took x (.ok ()) }
  | weighs {x fresh held fault} : s.stage = .vouches x fresh →
    read path root s.store.file = .ok (some held) → fresh.version = held.version →
    Moves path own s (.vouch fault) { s with stage := .offers x fresh held }
  | keeps {x fresh held written} : s.stage = .offers x fresh held →
    Moves path own s (.offer written)
      { s with
        freshness := (s.freshness.offer fresh held.signed.head x.now written).2
        stage := .took x (.ok ()) }
  | drops {x fresh held written why} : s.stage = .offers x fresh held →
    (s.freshness.offer fresh held.signed.head x.now written).1 = .error why →
    Moves path own s (.offer written) { s.fails x why with
      freshness := (s.freshness.offer fresh held.signed.head x.now written).2 }

variable {path : String} {own : Option NodeIdentity} {s t : Following root ι}
  {e : FollowEvent root ι}

theorem moves_calls {x : Incoming} {fresh : Fresh} {c : Candidate} {i : ι}
    (hs : s.stage = .adopts x fresh c) (h : s.calls path x fresh c i = some t) :
    Moves path own s (.adopt i) t := by
  obtain ⟨σ, hσ, h⟩ := Option.bind_eq_some_iff.mp h
  cases h
  exact .calls hs hσ

theorem exists_of_lt_heldVersionOf {v : StateVersion} {readable : Bool}
    {r : Except Anyhow (Option (Held root))}
    (h : v < if readable = true then heldVersionOf r else 0) :
    ∃ held, r = .ok (some held) ∧
      (if readable = true then heldVersionOf r else 0) = held.version := by
  have hzero : ¬v < 0 := UInt64.not_lt_zero
  split_ifs at h ⊢
  · unfold heldVersionOf at h ⊢
    split at h
    · exact ⟨_, rfl, rfl⟩
    · exact absurd h hzero
  · exact absurd h hzero

/-- What `take` does of a frame, where no other is under way. -/
theorem moves_take (x : Incoming) : Moves path own s (.take x) (match checkFrame root x.dir x.frame with
    | .error e => s.fails x e
    | .ok fresh => { s with stage := .reads x fresh }) := by
  split
  · exact .refuses
  · rename_i hc
    exact .begins hc

theorem moves_of_step (h : s.step path own e = some t) : Moves path own s e t := by
  cases e with
  | store e =>
    obtain ⟨σ, hσ, rfl⟩ := Option.map_eq_some_iff.mp h
    exact .store hσ
  | announces c =>
    simp only [step] at h
    split at h
    · cases h
    · cases h
    · cases h
      exact .announces
  | offers fresh head now written =>
    cases h
    exact .others
  | take x =>
    simp only [step] at h
    split at h
    · rw [← Option.some.inj h]
      exact moves_take x
    · rw [← Option.some.inj h]
      exact moves_take x
    · cases h
  | version readable =>
    simp only [step] at h
    split at h
    · rename_i x fresh hs
      by_cases hlt : fresh.version <
          if readable = true then heldVersionOf (read path root s.store.file) else 0
      · rw [if_pos hlt] at h
        obtain ⟨held, hread, hversion⟩ := exists_of_lt_heldVersionOf hlt
        rw [hversion] at h hlt
        cases h
        exact .behind hs hread hlt
      · rw [if_neg hlt] at h
        split at h
        · rename_i c hc
          cases h
          exact .brings hs hc
        · cases h
          exact .beats hs
    · cases h
  | adopt i =>
    simp only [step] at h
    split at h
    · rename_i hs
      exact moves_calls hs h
    · rename_i hs
      split at h
      · cases h
        exact .stops hs (.inl ⟨i, rfl⟩)
      · split_ifs at h
        · cases h
          exact .stands hs
        · exact moves_calls hs h
    · cases h
  | poisoned why =>
    simp only [step] at h
    split at h
    · rename_i hs
      cases h
      exact .stops hs (.inr ⟨why, rfl⟩)
    · cases h
  | adopted fault =>
    simp only [step] at h
    split at h
    · rename_i x fresh c i hs
      split at h
      · rename_i hi
        cases h
        exact .unadopted hs hi rfl
      · rename_i b hi
        split at h
        · cases h
          exact .adopted hs hi rfl
        · cases h
          exact .unread hs (.inl rfl)
        · rename_i me _ _
          cases h
          unfold accepted
          split
          · rename_i hread
            exact .unread hs (.inr hread)
          · exact .adopted hs hi rfl
          · split
            · exact .adopted hs hi rfl
            · exact .adopted hs hi rfl
      · cases h
    · cases h
  | vouch fault =>
    simp only [step] at h
    split at h
    · rename_i x fresh hs
      split at h
      · cases h
        exact .unvouched hs (.inl rfl)
      · rename_i hread
        cases h
        exact .unvouched hs (.inr hread)
      · cases h
        exact .passes hs
      · rename_i held hread
        split_ifs at h with hne
        · cases h
          exact .passes hs
        · cases h
          exact .weighs hs hread (not_not.mp hne)
    · cases h
  | offer written =>
    simp only [step] at h
    split at h
    · rename_i x fresh held hs
      split at h
      · rename_i freshness hoffer
        cases h
        have hmoves : Moves path own s (.offer written) _ := Moves.keeps hs
        rwa [hoffer] at hmoves
      · rename_i why freshness hoffer
        cases h
        have herror : (s.freshness.offer fresh held.signed.head x.now written).1 = .error why := by
          rw [hoffer]
        have hmoves : Moves path own s (.offer written) _ := Moves.drops hs herror
        rwa [hoffer] at hmoves
    · cases h

/-! ## What every step keeps -/

/-- What is so of a take where it is: its word may be held against what is stored, its call is its
candidate's, and it is told behind only by such a word, for less than what is stored. -/
def Stands (path : String) (store : Adopt ι) : TakeStage root ι → Prop
  | .reads x fresh | .vouches x fresh | .offers x fresh _ => OwnWord root x fresh
  | .adopts x fresh c => OwnWord root x fresh ∧ x.candidate = some c
  | .awaits x fresh c i => OwnWord root x fresh ∧ x.candidate = some c ∧
    ∃ d, store.calls i = some d ∧ d.candidate = c
  | .took x (.error (.behind theirs ours)) => (∃ fresh, OwnWord root x fresh ∧ fresh.version = theirs) ∧
    theirs < ours ∧ ours ≤ storedVersion path root store.file
  | _ => True

/-- What is so of a host after every step. -/
structure Good (path : String) (file : PolicyFile) (s : Following root ι) : Prop where
  store : Adopt.Reached path root file s.store
  stands : Stands path s.store s.stage

variable {file : PolicyFile} {current : Option (Current root)} {freshness : Freshness}

/-- A step of a call leaves a take where it is. -/
theorem Stands.store {σ τ : Adopt ι} {e : AdoptEvent ι} {stage : TakeStage root ι}
    (h : Stands path σ stage) (hr : Adopt.Reached path root file σ)
    (hs : σ.step path root e = some τ) : Stands path τ stage := by
  cases stage with
  | awaits x fresh c i =>
    obtain ⟨hword, hc, d, hd, hdc⟩ := h
    obtain ⟨d', hd', hdc', -⟩ := Adopt.result_of_step hs hd
    exact ⟨hword, hc, d', hd', hdc'.trans hdc⟩
  | took x result =>
    rcases result with ⟨theirs, ours⟩ | why | _
    · obtain ⟨hword, hlt, hle⟩ := h
      exact ⟨hword, hlt, hle.trans (hr.grows hs)⟩
    · trivial
    · trivial
  | _ => exact h

theorem Good.step (h : Good path file s) (hm : Moves path own s e t) : Good path file t := by
  have hstands := h.stands
  cases hm with
  | store hσ => exact ⟨h.store.step hσ, hstands.store h.store hσ⟩
  | announces | others => exact ⟨h.store, hstands⟩
  | refuses | stops | unadopted | unread | passes | unvouched | keeps | drops =>
    exact ⟨h.store, trivial⟩
  | begins hc => exact ⟨h.store, ownWord_of_checkFrame hc⟩
  | behind hs hread hlt =>
    rw [hs] at hstands
    refine ⟨h.store, ⟨_, hstands, rfl⟩, hlt, ?_⟩
    show _ ≤ storedVersion path root s.store.file
    rw [storedVersion_of_read hread]
    exact le_rfl
  | brings hs hc =>
    rw [hs] at hstands
    exact ⟨h.store, hstands, hc⟩
  | beats hs | weighs hs =>
    rw [hs] at hstands
    exact ⟨h.store, hstands⟩
  | calls hs hσ =>
    rw [hs] at hstands
    exact ⟨h.store.step hσ, hstands.1, hstands.2, Adopt.called_of_step hσ⟩
  | stands hs | adopted hs =>
    rw [hs] at hstands
    exact ⟨h.store, hstands.1⟩

theorem good_of_run {es : List (FollowEvent root ι)}
    (h : run (step path own) (start file current freshness) es = some s) : Good path file s := by
  have hstart : Good path file (start file current freshness : Following root ι) :=
    ⟨⟨[], rfl⟩, trivial⟩
  exact run_invariant (fun _ _ _ hg hs => hg.step (moves_of_step hs)) hstart h

/-! ## The head a word is kept for -/

/-- The policy was read from the store by a `vouch` of the take the events end in. -/
def Weighed (path : String) (own : Option NodeIdentity) (s₀ : Following root ι)
    (es : List (FollowEvent root ι)) (held : Held root) : Prop :=
  ∃ es₁ fault es₂ u, es = es₁ ++ .vouch fault :: es₂ ∧ run (step path own) s₀ es₁ = some u ∧
    read path root u.store.file = .ok (some held) ∧ ∀ x, .take x ∉ es₂

theorem weighed_of_run {s₀ : Following root ι} {es : List (FollowEvent root ι)}
    (h₀ : ∀ x fresh held, s₀.stage ≠ .offers x fresh held)
    (h : run (step path own) s₀ es = some s) {x : Incoming} {fresh : Fresh} {held : Held root}
    (hs : s.stage = .offers x fresh held) : Weighed path own s₀ es held := by
  refine run_induction (motive := fun es s => ∀ x fresh held, s.stage = .offers x fresh held →
    Weighed path own s₀ es held) (fun x fresh held h => absurd h (h₀ x fresh held))
    (fun es e s t hrun ih hstep x fresh held ht => ?_) h x fresh held hs
  have hstays : s.stage = .offers x fresh held → (∀ x, e ≠ .take x) →
      Weighed path own s₀ (es ++ [e]) held := by
    intro hs hne
    obtain ⟨es₁, fault, es₂, u, rfl, hu, hread, hnone⟩ := ih x fresh held hs
    refine ⟨es₁, fault, es₂ ++ [e], u, by simp, hu, hread, fun y hy => ?_⟩
    rcases List.mem_append.mp hy with hy | hy
    · exact hnone y hy
    · exact hne y (List.mem_singleton.mp hy).symm
  cases moves_of_step hstep with
  | store | announces | others => exact hstays ht nofun
  | weighs _ hread _ =>
    cases ht
    exact ⟨es, _, [], s, rfl, hrun, hread, fun _ => List.not_mem_nil⟩
  | _ => cases ht

/-! ## What a take changes -/

/-- The event is a step of the take, or of the call it made. -/
def Own (s : Following root ι) : FollowEvent root ι → Prop
  | .store e => ∃ x fresh c i, s.stage = .awaits x fresh c i ∧ Adopt.who e = i
  | .announces _ | .offers .. => False
  | _ => True

/-- A storage fault of the take: the store cannot be read again, or `fresh.json` not written. -/
def faults : FollowEvent root ι → Bool
  | .adopted fault | .vouch fault => fault.isSome
  | .offer written => !isOk written
  | _ => false

/-- No step of a take changed what is stored, or the words kept. -/
def Untouched (path : String) (own : Option NodeIdentity) (s₀ : Following root ι)
    (es : List (FollowEvent root ι)) : Prop :=
  ∀ es₁ e es₂ s t, es = es₁ ++ e :: es₂ → run (step path own) s₀ es₁ = some s →
    s.step path own e = some t → s.Own e →
      t.store.file = s.store.file ∧ t.freshness = s.freshness

theorem Untouched.concat {s₀ : Following root ι} {es : List (FollowEvent root ι)}
    (h : Untouched path own s₀ es) (hrun : run (step path own) s₀ es = some s)
    (hstep : s.step path own e = some t)
    (hsame : s.Own e → t.store.file = s.store.file ∧ t.freshness = s.freshness) :
    Untouched path own s₀ (es ++ [e]) := by
  intro es₁ e' es₂ u v heq hu hv howned
  rcases List.eq_nil_or_concat es₂ with rfl | ⟨es₃, e'', rfl⟩
  · obtain ⟨rfl, he⟩ := List.append_inj' heq rfl
    cases he
    obtain rfl := Option.some.inj (hrun.symm.trans hu)
    obtain rfl := Option.some.inj (hstep.symm.trans hv)
    exact hsame howned
  · rw [List.concat_eq_append, ← List.cons_append, ← List.append_assoc] at heq
    obtain ⟨rfl, -⟩ := List.append_inj' heq rfl
    exact h es₁ e' es₃ u v rfl hu hv howned

theorem Untouched.cons {es : List (FollowEvent root ι)} (h : Untouched path own t es)
    (hstep : s.step path own e = some t)
    (hsame : t.store.file = s.store.file ∧ t.freshness = s.freshness) :
    Untouched path own s (e :: es) := by
  intro es₁ e' es₂ u v heq hu hv howned
  cases es₁ with
  | nil =>
    obtain ⟨rfl, rfl⟩ := List.cons.inj heq
    obtain rfl := run_nil.mp hu
    obtain rfl := Option.some.inj (hstep.symm.trans hv)
    exact hsame
  | cons e₁ es₁ =>
    obtain ⟨rfl, rfl⟩ := List.cons.inj heq
    obtain ⟨t', ht', hu⟩ := run_cons.mp hu
    obtain rfl := Option.some.inj (hstep.symm.trans ht')
    exact h es₁ e' es₂ u v rfl hu hv howned

/-- The policy was written, and what is stored is it, or newer. -/
def Wrote (path : String) (root : NodeId) (file : PolicyFile) (c : Candidate) : Prop :=
  c.policy.verify root = .ok () ∧
    (file = .text (policyText c.policy) ∨ c.policy.version < storedVersion path root file)

theorem Wrote.step {c : Candidate} {σ τ : Adopt ι} {e : AdoptEvent ι}
    (h : Wrote path root σ.file c) (hr : Adopt.Reached path root file σ)
    (hs : σ.step path root e = some τ) : Wrote path root τ.file c := by
  rcases hr.writes hs with hfile | ⟨c', hverify, hfile, hlt, -⟩
  · rwa [hfile]
  · refine ⟨h.1, .inr ?_⟩
    rw [hfile, storedVersion_policyText path hverify]
    rcases h.2 with hsame | hnewer
    · rwa [hsame, storedVersion_policyText path h.1] at hlt
    · exact hnewer.trans hlt

/-- What is written can be read, and is the candidate or newer. -/
theorem Wrote.exists_read {c : Candidate} {f : PolicyFile} (h : Wrote path root f c) :
    ∃ held, read path root f = .ok (some held) ∧
      (held.signed = c.policy ∨ c.policy.version < held.version) := by
  obtain ⟨hverify, rfl | hlt⟩ := h
  · obtain ⟨held, hread, hsigned⟩ := read_policyText path hverify
    exact ⟨held, hread, .inl hsigned⟩
  · unfold storedVersion at hlt
    split at hlt
    · rename_i o hread
      cases o with
      | none => exact absurd hlt not_lt_bot
      | some held => exact ⟨held, hread, .inr (WithBot.coe_lt_coe.mp hlt)⟩
    · exact absurd hlt not_lt_bot

/-- Where a take is after the events `es`, none of them a fault: nothing is touched, or its call
wrote and its word is for what was written. -/
def Fares (path : String) (own : Option NodeIdentity) (s₀ : Following root ι)
    (es : List (FollowEvent root ι)) (s : Following root ι) : Prop :=
  match s.stage with
  | .idle | .took _ (.ok _) => True
  | .reads .. | .adopts .. | .took _ (.error _) => Untouched path own s₀ es
  | .awaits _ _ c i => Untouched path own s₀ es ∨
    (∃ d, s.store.calls i = some d ∧ d.stage.result = some (.ok true)) ∧ Wrote path root s.store.file c
  | .vouches x _ => Untouched path own s₀ es ∨
    ∃ c, x.candidate = some c ∧ Wrote path root s.store.file c
  | .offers _ fresh held => Untouched path own s₀ es ∨ fresh.verify held.signed.head = .ok ()

variable {s₀ : Following root ι} {es : List (FollowEvent root ι)}

/-- A word for what was written is for what is stored, if it is for its version. -/
theorem Wrote.verify {x : Incoming} {fresh : Fresh} {c : Candidate} {held : Held root}
    {f : PolicyFile} (h : Wrote path root f c) (hword : OwnWord root x fresh)
    (hc : x.candidate = some c) (hread : read path root f = .ok (some held))
    (hversion : fresh.version = held.version) : fresh.verify held.signed.head = .ok () := by
  have hverify := hword.verify_candidate hc
  obtain ⟨held', hread', hsame⟩ := h.exists_read
  obtain rfl : held = held' := Option.some.inj (Except.ok.inj (hread.symm.trans hread'))
  rcases hsame with hsigned | hlt
  · rwa [hsigned]
  · have heq : fresh.version = c.policy.version := (Fresh.verify_eq_ok.mp hverify).2.2.1.2.1
    rw [← heq, hversion] at hlt
    exact absurd hlt (lt_irrefl _)

/-- A step of a call, the take's or another's. -/
theorem Fares.store (h : Fares path own s₀ es s) (hg : Good path file s)
    (hrun : run (step path own) s₀ es = some s) {ae : AdoptEvent ι} {σ : Adopt ι}
    (hσ : s.store.step path root ae = some σ)
    (hstep : s.step path own (.store ae) = some { s with store := σ }) :
    Fares path own s₀ (es ++ [.store ae]) { s with store := σ } := by
  have hother : (∀ x fresh c i, s.stage ≠ .awaits x fresh c i) → Untouched path own s₀ es →
      Untouched path own s₀ (es ++ [.store ae]) := fun hne hun =>
    hun.concat hrun hstep fun ⟨x, fresh, c, i, hs, _⟩ => absurd hs (hne x fresh c i)
  unfold Fares at h ⊢
  dsimp only
  split
  · trivial
  · trivial
  · rename_i hs
    rw [hs] at h
    exact hother (by simp [hs]) h
  · rename_i hs
    rw [hs] at h
    exact hother (by simp [hs]) h
  · rename_i hs
    rw [hs] at h
    exact hother (by simp [hs]) h
  · rename_i x fresh c i hs
    have hstands := hg.stands
    rw [hs] at h hstands
    obtain ⟨-, -, d, hd, hdc⟩ := hstands
    obtain ⟨d', hd', -, hkeeps, howned⟩ := Adopt.result_of_step hσ hd
    rcases h with hun | ⟨⟨d₁, hd₁, hr⟩, hwrote⟩
    · by_cases hsame : σ.file = s.store.file
      · exact .inl (hun.concat hrun hstep fun _ => ⟨hsame, rfl⟩)
      · -- the file changed: by this call, or by another's
        by_cases hwho : Adopt.who ae = i
        · refine .inr ⟨⟨d', hd', (howned hwho).resolve_left hsame⟩, ?_⟩
          rcases hg.store.writes hσ with hfile | ⟨c', hverify, hfile, -, j, e, rfl, hj, rfl⟩
          · exact absurd hfile hsame
          · obtain rfl : j = i := hwho
            obtain rfl := Option.some.inj (hd.symm.trans hj)
            exact ⟨hdc ▸ hverify, .inl (hdc ▸ hfile)⟩
        · refine .inl (hun.concat hrun hstep fun ⟨x', fresh', c', i', hs', hwho'⟩ => ?_)
          cases hs.symm.trans hs'
          exact absurd hwho' hwho
    · obtain rfl := Option.some.inj (hd.symm.trans hd₁)
      exact .inr ⟨⟨d', hd', hkeeps hr⟩, hwrote.step hg.store hσ⟩
  · rename_i hs
    rw [hs] at h
    refine h.imp (hother (by simp [hs])) fun ⟨c, hc, hwrote⟩ => ⟨c, hc, hwrote.step hg.store hσ⟩
  · rename_i hs
    rw [hs] at h
    exact h.imp (hother (by simp [hs])) id

/-- A step of another task. -/
theorem Fares.other (h : Fares path own s₀ es s) (hrun : run (step path own) s₀ es = some s)
    (hstep : s.step path own e = some t) (hno : ¬s.Own e) (hstage : t.stage = s.stage)
    (hstore : t.store = s.store) : Fares path own s₀ (es ++ [e]) t := by
  have hun : Untouched path own s₀ es → Untouched path own s₀ (es ++ [e]) := fun hun =>
    hun.concat hrun hstep fun hown => absurd hown hno
  unfold Fares at h ⊢
  rw [hstage, hstore]
  split
  · trivial
  · trivial
  · rename_i hs
    rw [hs] at h
    exact hun h
  · rename_i hs
    rw [hs] at h
    exact hun h
  · rename_i hs
    rw [hs] at h
    exact hun h
  · rename_i hs
    rw [hs] at h
    exact h.imp_left hun
  · rename_i hs
    rw [hs] at h
    exact h.imp_left hun
  · rename_i hs
    rw [hs] at h
    exact h.imp_left hun

theorem Fares.step (h : Fares path own s₀ es s) (hg : Good path file s)
    (hrun : run (step path own) s₀ es = some s) (hstep : s.step path own e = some t)
    (htake : ∀ x, e ≠ .take x) (hf : faults e = false) : Fares path own s₀ (es ++ [e]) t := by
  have hgoes : Untouched path own s₀ es →
      (t.store.file = s.store.file ∧ t.freshness = s.freshness) →
      Untouched path own s₀ (es ++ [e]) := fun hun hsame => hun.concat hrun hstep fun _ => hsame
  have hstands := hg.stands
  cases moves_of_step hstep with
  | store hσ => exact h.store hg hrun hσ hstep
  | announces | others => exact h.other hrun hstep id rfl rfl
  | refuses | begins => exact absurd rfl (htake _)
  | behind hs | brings hs | stops hs =>
    rw [Fares, hs] at h
    exact hgoes h ⟨rfl, rfl⟩
  | beats hs | stands hs =>
    rw [Fares, hs] at h
    exact .inl (hgoes h ⟨rfl, rfl⟩)
  | calls hs hσ =>
    rw [Fares, hs] at h
    refine .inl (hgoes h ⟨?_, rfl⟩)
    -- making the call does not write
    rcases hg.store.writes hσ with hfile | ⟨c, -, -, -, i, d, he, -⟩
    · exact hfile
    · cases he
  | unadopted hs hi hr =>
    rw [Fares, hs] at h
    rcases h with hun | ⟨⟨d, hd, hwrote⟩, -⟩
    · exact hgoes hun ⟨rfl, rfl⟩
    · obtain rfl := Option.some.inj (hi.symm.trans hd)
      rw [hr] at hwrote
      cases hwrote
  | unread hs hread =>
    rw [Fares, hs] at h
    rcases h with hun | ⟨-, hwrote⟩
    · exact hgoes hun ⟨rfl, rfl⟩
    · obtain ⟨held, hheld, -⟩ := hwrote.exists_read
      rcases hread with rfl | hread
      · cases hf
      · cases hread.symm.trans hheld
  | adopted hs hi hr =>
    rw [hs] at hstands
    rw [Fares, hs] at h
    rcases h with hun | ⟨-, hwrote⟩
    · exact .inl (hgoes hun ⟨rfl, rfl⟩)
    · exact .inr ⟨_, hstands.2.1, hwrote⟩
  | unvouched hs hread =>
    rw [Fares, hs] at h
    rcases h with hun | ⟨c, -, hwrote⟩
    · exact hgoes hun ⟨rfl, rfl⟩
    · obtain ⟨held, hheld, -⟩ := hwrote.exists_read
      rcases hread with rfl | hread
      · cases hf
      · cases hread.symm.trans hheld
  | passes | keeps => trivial
  | weighs hs hread hversion =>
    rw [hs] at hstands
    rw [Fares, hs] at h
    rcases h with hun | ⟨c, hc, hwrote⟩
    · exact .inl (hgoes hun ⟨rfl, rfl⟩)
    · exact .inr (hwrote.verify hstands hc hread hversion)
  | @drops x fresh held written why hs hoffer =>
    rw [Fares, hs] at h
    obtain rfl : written = .ok () := by
      cases written with
      | ok _ => rfl
      | error _ => cases hf
    obtain ⟨hsame, hnot⟩ := Freshness.offer_eq_error hoffer
    exact hgoes (h.resolve_right hnot) ⟨rfl, hsame⟩

/-- A take, from its first step on. -/
theorem fares_of_run {x : Incoming} {u : Following root ι} (hg : Good path file s₀)
    (hbegins : s₀.step path own (.take x) = some u) {es : List (FollowEvent root ι)}
    (hrun : run (step path own) u es = some s) (htake : ∀ y, .take y ∉ es)
    (hf : ∀ e ∈ es, faults e = false) : Fares path own u es s := by
  have hgu := hg.step (moves_of_step hbegins)
  have hstart : Fares path own u [] u := by
    have hun : Untouched path own u [] := fun es₁ e es₂ s t heq => by simp at heq
    cases moves_of_step hbegins with
    | refuses => exact hun
    | begins => exact hun
    | stops _ he => simp at he
  refine run_induction (motive := fun es s => (∀ y, .take y ∉ es) → (∀ e ∈ es, faults e = false) →
    Fares path own u es s) (fun _ _ => hstart)
    (fun es e s t hs ih hstep htake hf => ?_) hrun htake hf
  simp only [List.mem_append, not_or, List.mem_singleton, or_imp, forall_and, forall_eq] at htake hf
  have hgs : Good path file s :=
    run_invariant (fun _ _ _ hg hs => hg.step (moves_of_step hs)) hgu hs
  exact (ih htake.1 hf.1).step hgs hs hstep (fun y he => htake.2 y he.symm) hf.2

/-! ## Every step -/

/-- What a step does to what is stored and to the words kept, after the events `es`. -/
structure Follows (path : String) (own : Option NodeIdentity) (s₀ : Following root ι)
    (es : List (FollowEvent root ι)) (s : Following root ι) (e : FollowEvent root ι)
    (t : Following root ι) : Prop where
  /-- The stored version never goes down. -/
  grows : storedVersion path root s.store.file ≤ storedVersion path root t.store.file
  /-- What comes to be stored verifies. -/
  stores : t.store.file = s.store.file ∨ ∃ held, read path root t.store.file = .ok (some held) ∧
    held.signed.verify root = .ok ()
  /-- A word that a take adds is for a head that was stored during that take, by a directory the
  head lists. -/
  adds : ∀ v ∈ t.freshness.held.words, v ∈ s.freshness.held.words ∨
    (∃ fresh head now written, e = .offers fresh head now written) ∨
    ∃ held : Held root, v.fresh.verify held.signed.head = .ok () ∧
      v.fresh.directory ∈ held.signed.head.head.directories ∧ Weighed path own s₀ es held
  /-- Behind is said of a word that may be held against what is stored, and is for less. -/
  behind : ∀ x theirs ours, t.stage = .took x (.error (.behind theirs ours)) →
    (∃ fresh, OwnWord root x fresh ∧ fresh.version = theirs) ∧ theirs < ours ∧
      ours ≤ storedVersion path root t.store.file
  /-- A take that ends in an error, without a storage fault, has changed nothing. -/
  rejects : ∀ es₁ x es₂ u, es ++ [e] = es₁ ++ .take x :: es₂ → (∀ y, .take y ∉ es₂) →
    (∀ e ∈ es₂, faults e = false) → run (step path own) s₀ es₁ = some u →
    (∃ why, t.stage = .took x (.error why)) → Untouched path own u (.take x :: es₂)

/-- **What a follower takes.** Whatever is stored and kept at the start, whatever frames come from
whatever directories, and whatever other tasks adopt, announce and offer between any two steps of a
take. -/
theorem follows {e : FollowEvent root ι}
    (hrun : run (step path own) (start file current freshness) es = some s)
    (hstep : s.step path own e = some t) :
    Follows path own (start file current freshness) es s e t := by
  have hg := good_of_run hrun
  have hm := moves_of_step hstep
  have hg' := hg.step hm
  refine ⟨?_, ?_, fun v hv => ?_, fun x theirs ours ht => ?_, fun es₁ x es₂ u heq htake hf hu ht => ?_⟩
  · cases hm with
    | store hσ => exact hg.store.grows hσ
    | calls _ hσ => exact hg.store.grows hσ
    | _ => exact le_rfl
  · have hwrites : ∀ {ae σ}, s.store.step path root ae = some σ → σ.file = s.store.file ∨
        ∃ held, read path root σ.file = .ok (some held) ∧ held.signed.verify root = .ok () := by
      intro ae σ hσ
      refine (hg.store.writes hσ).imp_right ?_
      rintro ⟨c, hverify, hfile, -⟩
      obtain ⟨held, hread, -⟩ := read_policyText path hverify
      exact ⟨held, hfile ▸ hread, held.verified⟩
    cases hm with
    | store hσ => exact hwrites hσ
    | calls _ hσ => exact hwrites hσ
    | _ => exact .inl rfl
  · have hstart : ∀ x fresh held, (start file current freshness : Following root ι).stage ≠
        .offers x fresh held := fun x fresh held h => by cases h
    have hoffered : ∀ {x fresh held written}, s.stage = .offers x fresh held →
        v ∈ (s.freshness.offer fresh held.signed.head x.now written).2.held.words →
        v ∈ s.freshness.held.words ∨ (∃ fresh head now written, e = .offers fresh head now written) ∨
        ∃ held : Held root, v.fresh.verify held.signed.head = .ok () ∧
          v.fresh.directory ∈ held.signed.head.head.directories ∧
          Weighed path own (start file current freshness) es held := by
      intro x fresh held written hs hv
      rcases Freshness.mem_offer hv with hold | ⟨hfresh, hverify⟩
      · exact .inl hold
      · rw [← hfresh] at hverify
        have hdir := (Fresh.verify_eq_ok.mp hverify).2.2.2.1
        exact .inr (.inr ⟨held, hverify, hdir, weighed_of_run hstart hrun hs⟩)
    cases hm with
    | others => exact .inr (.inl ⟨_, _, _, _, rfl⟩)
    | keeps hs => exact hoffered hs hv
    | drops hs _ => exact hoffered hs hv
    | _ => exact .inl hv
  · have hstands := hg'.stands
    rw [ht] at hstands
    exact hstands
  · obtain ⟨why, ht⟩ := ht
    have hwhole : run (step path own) (start file current freshness) (es ++ [e]) = some t :=
      run_concat.mpr ⟨s, hrun, hstep⟩
    rw [heq, run_append] at hwhole
    obtain ⟨u', hu', hrest⟩ := hwhole
    obtain rfl := Option.some.inj (hu.symm.trans hu')
    obtain ⟨v, hbegins, hrest⟩ := run_cons.mp hrest
    have hfares := fares_of_run (good_of_run hu) hbegins hrest htake hf
    rw [Fares, ht] at hfares
    refine Untouched.cons hfares hbegins ?_
    cases moves_of_step hbegins with
    | refuses => exact ⟨rfl, rfl⟩
    | begins => exact ⟨rfl, rfl⟩
    | stops _ he => simp at he

/-! ## A head that is replaced during the take -/

/-- The events of a take of `x`, until its word is to be offered, and then of a call that adopts. -/
def replacing (x : Incoming) (i : ι) (c : Candidate) : List (FollowEvent root ι) :=
  [.take x, .version true, .vouch none, .store (.call i c x.now), .store (.lock i), .store (.read i),
    .store (.write i), .store (.unlock i)]

/-- A word is offered for the head read, and another policy is stored. -/
theorem run_replacing {x : Incoming} {fresh : Fresh} {c : Candidate} {held : Held root}
    (hframe : x.frame = .fresh fresh) (hcheck : checkFrame root x.dir x.frame = .ok fresh)
    (hread : read path root file = .ok (some held)) (hversion : fresh.version = held.version)
    (hoffered : checkOffered root c.policy x.now = .ok ())
    (hnewer : c.policy.isNewerThan held.signed = true)
    (hverify : fresh.verify held.signed.head = .ok ()) (i : ι) :
    ∃ (s t : Following root ι) (v : VerifiedFresh),
      run (step path none) (start file none ⟨FreshSet.empty, []⟩) (replacing x i c) = some s ∧
      s.step path none (.offer (.ok ())) = some t ∧ s.freshness.held.words = [] ∧
      t.freshness.held.words = [v] ∧ v.fresh = fresh ∧
      t.store.file = .text (policyText c.policy) := by
  obtain ⟨v, hv⟩ : ∃ v, fresh.toVerified held.signed.head = .ok v :=
    ⟨⟨fresh, _, hverify⟩, Fresh.toVerified_eq_ok.mpr ⟨hverify, rfl⟩⟩
  have hcandidate : x.candidate = none := by
    unfold Incoming.candidate
    split
    · rename_i hpolicy
      cases hframe.symm.trans hpolicy
    · rfl
  have hle : ¬held.version < held.version := lt_irrefl _
  obtain ⟨s, hrun, hstage, hfreshness, hfile⟩ : ∃ s : Following root ι,
      run (step path none) (start file none ⟨FreshSet.empty, []⟩) (replacing x i c) = some s ∧
        s.stage = .offers x fresh held ∧ s.freshness = ⟨FreshSet.empty, []⟩ ∧
        s.store.file = .text (policyText c.policy) := by
    simp only [replacing, run, step, start, hcheck, heldVersionOf, hread, hversion, hle, hcandidate,
      ne_eq, not_true_eq_false, if_true, if_false, Option.bind_some, Option.map_some, Adopt.start,
      Adopt.step, Adopt.goes, Adopt.found, hoffered, hnewer, Function.update_self,
      if_neg (newline_notMem_jsonText c.policy)]
    exact ⟨_, rfl, rfl, rfl, rfl⟩
  have hoffer : (⟨FreshSet.empty, []⟩ : Freshness).offer fresh held.signed.head x.now (.ok ()) =
      (.ok true, ⟨⟨[v]⟩, [v.fresh]⟩) := by
    simp only [Freshness.offer, hv]
    rfl
  refine ⟨s, { s with freshness := ⟨⟨[v]⟩, [v.fresh]⟩, stage := .took x (.ok ()) }, v, hrun, ?_, ?_,
    rfl, (Fresh.toVerified_eq_ok.mp hv).2, hfile⟩
  · simp only [step, hstage, hfreshness, hoffer]
  · rw [hfreshness]
    rfl

end Following

end Directory

end

namespace Directory

/-! ## One take -/

section Sample

attribute [local instance] Crypto.plain

/-- The word of the directory of key 3 for version 1. -/
theorem signFresh_sample : ∃ w,
    signFresh (3 : UInt8) (versionHeld 1 (sampleNode 2) validate_samplePolicy) 5 = some w :=
  Option.isSome_iff_exists.mp (by decide)

/-- A frame with nothing but a word. -/
def sampleBeat (w : Fresh) : Incoming := ⟨sampleNode 3, .fresh w, 5, nofun⟩

/-- The word of the directory followed is offered for version 1, which was read, while version 2 is
stored. -/
theorem run_sample : ∃ (w : Fresh) (s t : Following (nodeId sampleRoot) Unit) (v : VerifiedFresh),
    w.version = 1 ∧
    run (Following.step "policy.json" none)
      (.start (.text (policyText (versionOffer 1 (sampleNode 2)).policy)) none ⟨FreshSet.empty, []⟩)
      (Following.replacing (sampleBeat w) () (versionOffer 2 (sampleNode 2))) = some s ∧
    s.step "policy.json" none (.offer (.ok ())) = some t ∧ s.freshness.held.words = [] ∧
    t.freshness.held.words = [v] ∧ v.fresh = w ∧
    t.store.file = .text (policyText (versionOffer 2 (sampleNode 2)).policy) := by
  obtain ⟨w, hw⟩ := signFresh_sample
  obtain ⟨⟨hverify, hdir, -⟩, -⟩ := word_of_signFresh hw
  have hread := read_versionOffer (validate_samplePolicy)
  obtain ⟨hformat, halg, ⟨hfabric, hversion, -⟩, -, -, -, hsig⟩ := Fresh.verify_eq_ok.mp hverify
  have hcheck : checkFrame (nodeId sampleRoot) (sampleNode 3) (.fresh w) = .ok w := by
    have hsigned : w.verifySignature = .ok () := Fresh.verifySignature_eq_ok.mpr ⟨hformat, halg, hsig⟩
    have hown : ¬(w.directory ≠ sampleNode 3 ∨ w.fabric ≠ nodeId sampleRoot) := by
      rw [hdir, hfabric]
      decide
    simp only [checkFrame, hsigned, ensure_of hown]
    rfl
  have hvalid : (samplePolicy 2 [sampleNode 2]).validate = .ok () := by decide
  have hoffered : checkOffered (nodeId sampleRoot) (versionOffer 2 (sampleNode 2)).policy 5 = .ok () :=
    checkOffered_eq_ok.mpr ⟨(versionHeld 2 (sampleNode 2) hvalid).verified, by decide⟩
  obtain ⟨s, t, v, hrun⟩ := Following.run_replacing (c := versionOffer 2 (sampleNode 2))
    (x := sampleBeat w) rfl hcheck hread hversion hoffered (by decide) hverify ()
  exact ⟨w, s, t, v, hversion, hrun⟩

theorem follows_sample : ∃ (file : PolicyFile) (es : List (FollowEvent (nodeId sampleRoot) Unit))
    (s t : Following (nodeId sampleRoot) Unit) (v : VerifiedFresh),
    v ∉ s.freshness.held.words ∧ v ∈ t.freshness.held.words ∧
      Following.Follows "policy.json" none (.start file none ⟨FreshSet.empty, []⟩) es s
        (.offer (.ok ())) t := by
  obtain ⟨w, s, t, v, -, hrun, hstep, hs, ht, -⟩ := run_sample
  exact ⟨_, _, s, t, v, by simp [hs], by simp [ht], Following.follows hrun hstep⟩

/-- A take adds a word that is not for the head that is stored. -/
theorem kept_replaced : ∃ (file : PolicyFile) (es : List (FollowEvent (nodeId sampleRoot) Unit))
    (s t : Following (nodeId sampleRoot) Unit) (v : VerifiedFresh) (held : Held (nodeId sampleRoot)),
    run (Following.step "policy.json" none) (.start file none ⟨FreshSet.empty, []⟩) es = some s ∧
    s.step "policy.json" none (.offer (.ok ())) = some t ∧
    v ∉ s.freshness.held.words ∧ v ∈ t.freshness.held.words ∧
    read "policy.json" (nodeId sampleRoot) t.store.file = .ok (some held) ∧
    v.fresh.verify held.signed.head ≠ .ok () := by
  obtain ⟨w, s, t, v, hversion, hrun, hstep, hs, ht, hv, hfile⟩ := run_sample
  have hread := read_versionOffer (by decide : (samplePolicy 2 [sampleNode 2]).validate = .ok ())
  refine ⟨_, _, s, t, v, _, hrun, hstep, by simp [hs], by simp [ht], by rw [hfile]; exact hread, ?_⟩
  intro hverify
  have heq : v.fresh.version = 2 := (Fresh.verify_eq_ok.mp hverify).2.2.1.2.1
  rw [hv, hversion] at heq
  cases heq

end Sample

end Directory

end Wires
