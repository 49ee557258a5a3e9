import Wires.Impl.Directory
import Wires.Proof.Store

/-!
# What a directory announces

Whatever a directory's tasks do, in whatever order, beside whatever writers of
its store: what it announces verifies and only gets newer, its word is for
exactly what it announces, and it signs for nothing older (`announcements`).
`Directory.Node.Good` is what every step keeps; the writer lock carries it: the
one job that has the lock is the only one that can announce.
-/

namespace Wires

section

variable [Crypto]

/-! ## The store -/

namespace Adopt

variable {ι : Type} [DecidableEq ι] {path : String} {root : NodeId} {σ τ : Adopt ι}
  {e : AdoptEvent ι}

/-- A call keeps its arguments. -/
theorem candidate_keeps (h : σ.step path root e = some τ) {i : ι} {c : Call}
    (hi : σ.calls i = some c) : ∃ d, τ.calls i = some d ∧ d.candidate = c.candidate := by
  have hm := moves_of_step h
  by_cases hw : who e = i
  · subst hw
    cases hm with
    | offered hj | refused hj => simp [who, hj] at hi
    | locks hj | unread hj | first hj | newer hj | older hj | writes hj | unlocks hj
    | failsWaiting hj | failsLocked hj =>
      rw [who, hj] at hi
      cases hi
      exact ⟨_, calls_goes.trans (if_pos rfl), rfl⟩
  · exact ⟨c, (calls_of_ne hm hw).trans hi, rfl⟩

/-- A call that is made has its arguments. -/
theorem called_of_step {i : ι} {c : Candidate} {now : Int64}
    (h : σ.step path root (.call i c now) = some τ) : ∃ d, τ.calls i = some d ∧ d.candidate = c := by
  cases moves_of_step h with
  | offered _ _ | refused _ _ => exact ⟨_, calls_goes.trans (if_pos rfl), rfl⟩

/-- The states a store comes to, from a file. -/
def Reached (path : String) (root : NodeId) (file : PolicyFile) (σ : Adopt ι) : Prop :=
  ∃ es, run (step path root) (start file) es = some σ

theorem Reached.step {file : PolicyFile} (h : Reached path root file σ)
    (hs : σ.step path root e = some τ) : Reached path root file τ := by
  obtain ⟨es, hes⟩ := h
  exact ⟨es ++ [e], run_concat.mpr ⟨σ, hes, hs⟩⟩

/-- What `adopt_if_newer` leaves in the file when it answers `Ok`. -/
theorem Reached.le_storedVersion {file : PolicyFile} {held : Option (Held root)}
    (h : Reached path root file σ) (hread : read path root file = .ok held) {i : ι} {c : Call}
    (hi : σ.calls i = some c) {b : Bool} (hr : c.stage = .returned (.ok b)) :
    c.candidate.policy.version ≤ storedVersion path root σ.file := by
  obtain ⟨es, hes⟩ := h
  have ha := ((told_of_run hread hes).tells i).done c (.ok b) hi (by rw [hr]; rfl)
  exact (ha.adopted b rfl).2.1

theorem Reached.storedVersion_le_step {file : PolicyFile} {held : Option (Held root)}
    (h : Reached path root file σ) (hread : read path root file = .ok held)
    (hs : σ.step path root e = some τ) :
    storedVersion path root σ.file ≤ storedVersion path root τ.file := by
  obtain ⟨es, hes⟩ := h
  exact Adopt.storedVersion_le_step (good_of_run hread hes) hs

end Adopt

namespace Directory

variable {root : NodeId}

/-- What a directory's own word for a policy is: it verifies for exactly that policy's head, and
was signed before the policy expired. -/
structure Word (me : NodeIdentity) (held : Held root) (f : Fresh) : Prop where
  verifies : f.verify held.signed.head = .ok ()
  own : f.directory = nodeId me
  unexpired : held.checkFresh f.at_ = .ok ()

theorem word_of_signFresh {me : NodeIdentity} {held : Held root} {now : Int64} {f : Fresh}
    (h : signFresh me held now = some f) : Word me held f ∧ f.at_ = now := by
  rw [signFresh] at h
  split at h
  · cases h
  · rename_i hfresh
    dsimp only at h
    split at h
    · rename_i hs
      cases h
      obtain ⟨hverify, hdir, hat, -⟩ := Fresh.of_sign hs
      exact ⟨⟨hverify, hdir, hat ▸ hfresh⟩, hat⟩
    · cases h

/-- A publish answered at its head is told what is held. -/
theorem checkHead_eq_held {current : Option (Current root)} {head : SignedPolicyHead} {now : Int64}
    {v : StateVersion} {hash : HeadHash} (h : checkHead root current head now = .held v hash) :
    ∃ c, current = some c ∧ v = c.held.version ∧ hash = c.held.signed.head.hash := by
  unfold checkHead at h
  split at h
  · cases h
  · split at h
    · cases h
    · split at h
      · split_ifs at h
        cases h
        exact ⟨_, rfl, rfl, rfl⟩
      · cases h

/-- What a publish is answered: what is held, or a refusal. -/
def Answer.OfPublish (a : Answer) : Prop :=
  (∃ v hash, a = .published v hash) ∨ ∃ reason, a = .denied reason

theorem published_ofPublish (current : Option (Current root)) (r : Except Anyhow Bool) :
    (published current r).OfPublish := by
  unfold published
  split
  · exact .inr ⟨_, rfl⟩
  · split
    · exact .inl ⟨_, _, rfl⟩
    · exact .inr ⟨_, rfl⟩

theorem published_eq {current : Option (Current root)} {r : Except Anyhow Bool} {v : StateVersion}
    {hash : HeadHash} (h : published current r = .published v hash) :
    ∃ c, current = some c ∧ v = c.held.version ∧ hash = c.held.signed.head.hash := by
  rw [published.eq_def] at h
  split at h
  · cases h
  · split at h
    · cases h
      exact ⟨_, rfl, rfl, rfl⟩
    · cases h

namespace Node

variable {ι : Type} [DecidableEq ι]

theorem calls_goes {n : Node root ι} {i j : ι} {c : Call root} :
    (n.goes i c).calls j = if j = i then some c else n.calls j :=
  Function.update_apply ..

/-! ## Steps -/

/-- What a step does, by where its call is. -/
inductive Moves (path : String) (me : NodeIdentity) (n : Node root ι) :
    NodeEvent ι → Node root ι → Prop
  | store {e s} : n.store.step path root e = some s → Moves path me n (.store e) { n with store := s }
  | opens {held} : read path root n.store.file = .ok held →
    Moves path me n .opens ⟨n.store, held.map (⟨·, none⟩), none, fun _ => none⟩
  | calls {e i job now stage} : n.calls i = none ∨ (∃ head, n.calls i = some (.wants head)) →
    stage = .waits ∨ (∃ why, stage = .returned (.error why)) →
    e = .beat i now ∨ (∃ c, e = .accept i c now) ∨ (∃ is hp, e = .items i is hp now) →
    Moves path me n e (n.goes i (.job job now stage))
  | checks {i head now c} : n.calls i = none → (∀ job now stage, c ≠ .job job now stage) →
    (∀ a, c = .answered a → a.OfPublish) →
    (∀ v hash, c = .answered (.published v hash) →
      ∃ cur, n.current = some cur ∧ v = cur.held.version ∧ hash = cur.held.signed.head.hash) →
    Moves path me n (.publish i head now) (n.goes i c)
  | stands {i job now} : n.calls i = some (.job job now .waits) → n.writer = none →
    Moves path me n (.lock i) (n.returns i job now (.ok false))
  | beats {i job now c} : n.calls i = some (.job job now .waits) → n.writer = none →
    job.candidate = none → n.current = some c →
    Moves path me n (.lock i) { n.goes i (.job job now (.announces c.held (signFresh me c.held now))) with
      writer := some i }
  | adopts {i job now c s} : n.calls i = some (.job job now .waits) → n.writer = none →
    job.candidate = some c → n.version < c.policy.version →
    n.store.step path root (.call i c now) = some s →
    Moves path me n (.lock i) { n.goes i (.job job now .adopts) with store := s, writer := some i }
  | stops {e i job now r} : n.calls i = some (.job job now .adopts) → r ≠ .ok true →
    e = .read i ∨ (∃ why, e = .fails i why) → Moves path me n e (n.returns i job now r)
  | signs {i job now b held} : n.calls i = some (.job job now .adopts) →
    n.adoptResult i = some (.ok b) → read path root n.store.file = .ok (some held) →
    n.version < held.version →
    Moves path me n (.read i) (n.goes i (.job job now (.announces held (signFresh me held now))))
  | announces {i job now held fresh} : n.calls i = some (.job job now (.announces held fresh)) →
    Moves path me n (.announce i)
      { n.returns i job now (.ok true) with current := some ⟨held, fresh⟩ }
  | answers {i c now r} : n.calls i = some (.job (.publish c) now (.returned r)) →
    Moves path me n (.answer i) (n.goes i (.answered (published n.current r)))
  | fails {i job now why} : n.calls i = some (.job job now .waits) →
    Moves path me n (.fails i why) (n.goes i (.job job now (.returned (.error why))))

variable {path : String} {me : NodeIdentity} {n m : Node root ι} {e : NodeEvent ι}

theorem moves_enters {i : ι} {job : Job} {now : Int64}
    (hi : n.calls i = none ∨ ∃ head, n.calls i = some (.wants head))
    (he : e = .beat i now ∨ (∃ c, e = .accept i c now) ∨ (∃ is hp, e = .items i is hp now)) :
    Moves path me n e (n.enters i job now) := by
  unfold enters
  split
  · exact .calls hi (.inl rfl) he
  · split
    · exact .calls hi (.inl rfl) he
    · exact .calls hi (.inr ⟨_, rfl⟩) he

theorem moves_of_step (h : n.step path me e = some m) : Moves path me n e m := by
  cases e with
  | store e =>
    obtain ⟨s, hs, rfl⟩ := Option.map_eq_some_iff.mp h
    exact .store hs
  | opens =>
    simp only [step] at h
    split at h
    · cases h
    · rename_i hr
      cases h
      exact .opens hr
  | beat i now =>
    simp only [step] at h
    split at h
    · rename_i hi
      cases h
      exact moves_enters (.inl hi) (.inl rfl)
    · cases h
  | accept i c now =>
    simp only [step] at h
    split at h
    · rename_i hi
      cases h
      exact moves_enters (.inl hi) (.inr (.inl ⟨c, rfl⟩))
    · cases h
  | publish i head now =>
    simp only [step] at h
    split at h
    · rename_i hi
      cases h
      refine .checks hi (fun job now stage hc => ?_) (fun a hc => ?_) fun v hash hc => ?_
      · split at hc <;> cases hc
      · split at hc
        · cases hc
        · cases hc
          exact .inl ⟨_, _, rfl⟩
        · cases hc
          exact .inr ⟨_, rfl⟩
      · split at hc
        · cases hc
        · rename_i hheld
          cases hc
          exact checkHead_eq_held hheld
        · cases hc
    · cases h
  | items i is hp now =>
    simp only [step] at h
    split at h
    · rename_i hi
      cases h
      exact moves_enters (.inr ⟨_, hi⟩) (.inr (.inr ⟨is, hp, rfl⟩))
    · cases h
  | lock i =>
    simp only [step] at h
    split at h
    · rename_i job now hi hw
      unfold locked at h
      split at h
      · rename_i hc
        split at h
        · cases h
          exact .stands hi hw
        · rename_i c hcur
          cases h
          exact .beats hi hw hc hcur
      · rename_i c hc
        split at h
        · cases h
          exact .stands hi hw
        · rename_i hlt
          obtain ⟨s, hs, h⟩ := Option.bind_eq_some_iff.mp h
          cases h
          exact .adopts hi hw hc (not_le.mp hlt) hs
    · cases h
  | read i =>
    simp only [step] at h
    split at h
    · rename_i job now r hi hr
      cases h
      unfold adopted
      split
      · exact .stops hi (by simp) (.inl rfl)
      · split
        · exact .stops hi (by simp) (.inl rfl)
        · exact .stops hi (by simp) (.inl rfl)
        · rename_i held hread
          split
          · rename_i hlt
            exact .signs hi hr hread hlt
          · exact .stops hi (by simp) (.inl rfl)
    · cases h
  | announce i =>
    simp only [step] at h
    split at h
    · rename_i hi
      cases h
      exact .announces hi
    · cases h
  | answer i =>
    simp only [step] at h
    split at h
    · rename_i hi
      cases h
      exact .answers hi
    · cases h
  | fails i why =>
    simp only [step] at h
    split at h
    · rename_i hi
      cases h
      exact .fails hi
    · rename_i hi hr
      cases h
      exact .stops hi (by simp) (.inr ⟨why, rfl⟩)
    · cases h

/-! ## What every step keeps -/

/-- The policy `b` is `a`, or newer. -/
def Succeeds (a b : Held root) : Prop := a = b ∨ a.version < b.version

theorem Succeeds.trans {a b c : Held root} (h : Succeeds a b) (h' : Succeeds b c) :
    Succeeds a c := by
  rcases h with rfl | h
  · exact h'
  · rcases h' with rfl | h'
    · exact .inr h
    · exact .inr (h.trans h')

theorem Succeeds.le {a b : Held root} (h : Succeeds a b) : a.version ≤ b.version :=
  h.elim (fun he => he ▸ le_rfl) le_of_lt

/-- What is so of call `i` while it has the writer lock. -/
def Keeps (path : String) (me : NodeIdentity) (n : Node root ι) (i : ι) : Call root → Prop
  | .job job _ .adopts => n.writer = some i ∧
    ∃ c d, job.candidate = some c ∧ n.store.calls i = some d ∧ d.candidate = c
  | .job job _ (.announces held fresh) => n.writer = some i ∧
    (∀ c, n.current = some c → Succeeds c.held held) ∧
    held.version ≤ storedVersion path root n.store.file ∧
    (∀ f, fresh = some f → Word me held f) ∧
    ∀ c, job.candidate = some c → c.policy.version ≤ held.version
  | _ => True

/-- What is so of a directory after every step. -/
structure Good (path : String) (me : NodeIdentity) (file : PolicyFile) (n : Node root ι) : Prop where
  store : Adopt.Reached path root file n.store
  word : ∀ c f, n.current = some c → c.fresh = some f → Word me c.held f
  stored : ∀ c, n.current = some c → c.held.version ≤ storedVersion path root n.store.file
  calls : ∀ i c, n.calls i = some c → n.Keeps path me i c

section

omit [DecidableEq ι]

theorem Keeps.same {i : ι} {c : Call root} (h : n.Keeps path me i c) (hw : m.writer = n.writer)
    (hc : m.current = n.current) (hs : m.store = n.store) : m.Keeps path me i c := by
  unfold Keeps at h ⊢
  rw [hw, hc, hs]
  exact h

/-- A call without the lock has nothing to keep. -/
theorem Keeps.other {i : ι} {c : Call root} (h : n.Keeps path me i c) (hw : n.writer ≠ some i) :
    m.Keeps path me i c := by
  unfold Keeps at h ⊢
  split
  · exact absurd h.1 hw
  · exact absurd h.1 hw
  · trivial

theorem ne_of_writer {i : ι} (h : n.writer = some i) (j : ι) (hj : j ≠ i) : n.writer ≠ some j := by
  rw [h]
  exact fun he => hj (Option.some.inj he).symm

theorem ne_of_free (h : n.writer = none) (j : ι) : n.writer ≠ some j := by simp [h]

end

/-- A call comes to be, without the lock and with nothing else changed. -/
theorem Good.goes {file : PolicyFile} (h : Good path me file n) {i : ι} {c : Call root}
    (hc : (n.goes i c).Keeps path me i c) : Good path me file (n.goes i c) where
  store := h.store
  word := h.word
  stored := h.stored
  calls j d hj := by
    rw [calls_goes] at hj
    split_ifs at hj with hji
    · cases hj
      exact hji ▸ hc
    · exact (h.calls j d hj).same rfl rfl rfl

/-- A job takes the lock, or lets it go, with nothing announced. -/
theorem Good.moves {file : PolicyFile} (h : Good path me file n) {i : ι} {c : Call root}
    (hcalls : m.calls = (n.goes i c).calls) (hcur : m.current = n.current)
    (hstore : m.store = n.store) (hfree : ∀ j, j ≠ i → n.writer ≠ some j)
    (hc : m.Keeps path me i c) : Good path me file m where
  store := hstore ▸ h.store
  word := hcur ▸ h.word
  stored := by
    rw [hcur, hstore]
    exact h.stored
  calls j d hj := by
    rw [hcalls, calls_goes] at hj
    split_ifs at hj with hji
    · cases hj
      exact hji ▸ hc
    · exact (h.calls j d hj).other (hfree j hji)

variable {file : PolicyFile} {held : Option (Held root)}

theorem Good.step (h : Good path me file n) (hread : read path root file = .ok held)
    (hm : Moves path me n e m) : Good path me file m := by
  cases hm with
  | store hs =>
    have hle := h.store.storedVersion_le_step hread hs
    refine ⟨h.store.step hs, h.word, fun c hc => (h.stored c hc).trans hle, fun i c hi => ?_⟩
    have hk := h.calls i c hi
    unfold Keeps at hk ⊢
    split
    · obtain ⟨hw, c, d, hc, hd, hdc⟩ := hk
      obtain ⟨d', hd', hdc'⟩ := Adopt.candidate_keeps hs hd
      exact ⟨hw, c, d', hc, hd', hdc'.trans hdc⟩
    · obtain ⟨hw, hcur, hst, hrest⟩ := hk
      exact ⟨hw, hcur, hst.trans hle, hrest⟩
    · trivial
  | @opens held' hr =>
    refine ⟨h.store, fun c f hc hf => ?_, fun c hc => ?_, fun i c hi => ?_⟩
    · obtain ⟨g, -, rfl⟩ := Option.map_eq_some_iff.mp hc
      cases hf
    · obtain ⟨g, hg, rfl⟩ := Option.map_eq_some_iff.mp hc
      obtain rfl : held' = some g := hg
      rw [storedVersion_of_read hr]
      exact le_rfl
    · cases hi
  | calls _ hstage _ =>
    refine h.goes ?_
    rcases hstage with rfl | ⟨why, rfl⟩ <;> trivial
  | checks _ hc _ _ =>
    refine h.goes ?_
    unfold Keeps
    split
    · exact absurd rfl (hc _ _ _)
    · exact absurd rfl (hc _ _ _)
    · trivial
  | stands _ hw => exact h.moves rfl rfl rfl (fun j _ => ne_of_free hw j) trivial
  | @beats i job now c _ hw hjob hcur =>
    refine h.moves rfl rfl rfl (fun j _ => ne_of_free hw j) ⟨rfl, fun d hd => ?_, ?_, fun f hf => ?_, ?_⟩
    · cases hcur.symm.trans hd
      exact .inl rfl
    · exact h.stored c hcur
    · exact (word_of_signFresh hf).1
    · rw [hjob]
      nofun
  | @adopts i job now c s _ hw hjob _ hs =>
    have hle := h.store.storedVersion_le_step hread hs
    refine ⟨h.store.step hs, h.word, fun d hd => (h.stored d hd).trans hle, fun j d hj => ?_⟩
    change (n.goes i (.job job now .adopts)).calls j = some d at hj
    rw [calls_goes] at hj
    split_ifs at hj with hji
    · cases hj
      subst hji
      obtain ⟨d, hd, hdc⟩ := Adopt.called_of_step hs
      exact ⟨rfl, c, d, hjob, hd, hdc⟩
    · exact (h.calls j d hj).other (ne_of_free hw j)
  | @stops _ i job now r hi _ _ =>
    have hw : n.writer = some i := (h.calls i _ hi).1
    exact h.moves rfl rfl rfl (ne_of_writer hw) trivial
  | @signs i job now b stored hi hr hstored hlt =>
    obtain ⟨hw, c, d, hjob, hd, hdc⟩ := h.calls i _ hi
    have hret : d.stage = .returned (.ok b) := by
      rw [adoptResult, hd] at hr
      split at hr
      · rename_i heq
        cases heq
        exact congrArg Stage.returned (Option.some.inj hr)
      · cases hr
    have hadopted := h.store.le_storedVersion hread hd hret
    rw [storedVersion_of_read hstored, hdc] at hadopted
    refine h.goes ⟨hw, fun cur hcur => ?_, ?_, fun f hf => ?_, fun c' hc' => ?_⟩
    · change n.current = some cur at hcur
      rw [version, hcur] at hlt
      exact .inr hlt
    · rw [show (n.goes i _).store = n.store from rfl, storedVersion_of_read hstored]
      exact le_rfl
    · exact (word_of_signFresh hf).1
    · rw [hjob] at hc'
      cases hc'
      exact WithBot.coe_le_coe.mp hadopted
  | @announces i job now stored fresh hi =>
    obtain ⟨hw, -, hst, hword, -⟩ := h.calls i _ hi
    refine ⟨h.store, fun c f hc hf => ?_, fun c hc => ?_, fun j d hj => ?_⟩
    · cases hc
      exact hword f hf
    · cases hc
      exact hst
    · change (n.goes i (.job job now (.returned (.ok true)))).calls j = some d at hj
      rw [calls_goes] at hj
      split_ifs at hj with hji
      · cases hj
        trivial
      · exact (h.calls j d hj).other (ne_of_writer hw j hji)
  | answers _ => exact h.goes trivial
  | fails _ => exact h.goes trivial

theorem good_start (hread : read path root file = .ok held) :
    Good path me file (start file held : Node root ι) where
  store := ⟨[], rfl⟩
  word c f hc hf := by
    obtain ⟨g, -, rfl⟩ := Option.map_eq_some_iff.mp hc
    cases hf
  stored c hc := by
    obtain ⟨g, rfl, rfl⟩ := Option.map_eq_some_iff.mp hc
    rw [show (start file (some g) : Node root ι).store.file = file from rfl,
      storedVersion_of_read hread]
    exact le_rfl
  calls i c hi := by cases hi

theorem good_of_run (hread : read path root file = .ok held) {es : List (NodeEvent ι)}
    (h : run (step path me) (start file held) es = some n) : Good path me file n :=
  run_invariant (P := Good path me file) (fun _ _ _ hg hs => hg.step hread (moves_of_step hs))
    (good_start hread) h

/-! ## What a step makes of a call -/

/-- What is so of call `i` when the event `e` brings it to `c`: what it signs is for nothing older
than what is announced; an `Ok(true)` announces; and a publish's answer is what is announced. -/
def News (path : String) (me : NodeIdentity) (n : Node root ι) (e : NodeEvent ι) (m : Node root ι)
    (i : ι) : Call root → Prop
  | .job job _ (.announces held fresh) =>
    (∀ c, n.current = some c → Succeeds c.held held) ∧
    (∀ f, fresh = some f → Word me held f) ∧
    (job.candidate ≠ none → e = .read i ∧ n.writer = some i ∧
      read path root n.store.file = .ok (some held))
  | .job job now (.returned (.ok true)) => ∃ held fresh, e = .announce i ∧
    n.calls i = some (.job job now (.announces held fresh)) ∧ m.current = some ⟨held, fresh⟩
  | .answered (.published v hash) => ∃ c, m.current = some c ∧ v = c.held.version ∧
    hash = c.held.signed.head.hash
  | _ => True

theorem news_of_goes {i j : ι} {c d : Call root} (hcalls : m.calls = (n.goes i c).calls)
    (hj : m.calls j = some d) (hc : News path me n e m i c) :
    n.calls j = some d ∨ News path me n e m j d := by
  rw [hcalls, calls_goes] at hj
  split_ifs at hj with hji
  · cases hj
    exact .inr (hji ▸ hc)
  · exact .inl hj

/-- A call stands, or is news. -/
theorem Good.news {file : PolicyFile} {held : Option (Held root)} (h : Good path me file n)
    (hread : read path root file = .ok held) (hm : Moves path me n e m) {j : ι} {d : Call root}
    (hj : m.calls j = some d) : n.calls j = some d ∨ News path me n e m j d := by
  have hm' := h.step hread hm
  cases hm with
  | store _ => exact .inl hj
  | opens _ => cases hj
  | calls _ hstage _ =>
    refine news_of_goes rfl hj ?_
    rcases hstage with rfl | ⟨why, rfl⟩ <;> trivial
  | checks _ hc _ hpub =>
    refine news_of_goes rfl hj ?_
    unfold News
    split
    · exact absurd rfl (hc _ _ _)
    · exact absurd rfl (hc _ _ _)
    · exact hpub _ _ rfl
    · trivial
  | stands _ _ => exact news_of_goes rfl hj trivial
  | @beats i job now c _ _ hjob hcur =>
    refine news_of_goes rfl hj ⟨fun d hd => ?_, fun f hf => ?_, fun hne => absurd hjob hne⟩
    · cases hcur.symm.trans hd
      exact .inl rfl
    · exact (word_of_signFresh hf).1
  | adopts _ _ _ _ _ => exact news_of_goes rfl hj trivial
  | @stops _ i job now r _ hr _ =>
    refine news_of_goes rfl hj ?_
    rcases r with why | _ | _
    · trivial
    · trivial
    · exact absurd rfl hr
  | @signs i job now b stored hi _ hstored _ =>
    have hw : n.writer = some i := (h.calls i _ hi).1
    have hk := hm'.calls i _ (calls_goes.trans (if_pos rfl))
    exact news_of_goes rfl hj ⟨hk.2.1, hk.2.2.2.1, fun _ => ⟨rfl, hw, hstored⟩⟩
  | @announces i job now stored fresh hi =>
    exact news_of_goes rfl hj ⟨stored, fresh, rfl, hi, rfl⟩
  | @answers i c now r hi =>
    refine news_of_goes rfl hj ?_
    unfold News
    split
    · rename_i heq
      cases heq
    · rename_i heq
      cases heq
    · rename_i heq
      exact published_eq (Call.answered.inj heq)
    · trivial
  | fails _ => exact news_of_goes rfl hj trivial

theorem Moves.of_opens (hm : Moves path me n .opens m) (i : ι) : m.calls i = none := by
  cases hm with
  | opens _ => rfl
  | calls _ _ he => simp at he
  | stops _ _ he => simp at he

theorem Moves.of_announce {i : ι} (hm : Moves path me n (.announce i) m) :
    ∃ job now held fresh, n.calls i = some (.job job now (.announces held fresh)) ∧
      m.calls i = some (.job job now (.returned (.ok true))) := by
  cases hm with
  | announces hi => exact ⟨_, _, _, _, hi, calls_goes.trans (if_pos rfl)⟩
  | calls _ _ he => simp at he
  | stops _ _ he => simp at he

/-- Only a call that thereby answers `Ok(true)`, or a restart, changes what is announced. -/
theorem Moves.current (hm : Moves path me n e m) : m.current = n.current ∨ e = .opens ∨
    ∃ i job now, e = .announce i ∧ m.calls i = some (.job job now (.returned (.ok true))) := by
  cases hm with
  | opens _ => exact .inr (.inl rfl)
  | announces _ => exact .inr (.inr ⟨_, _, _, rfl, calls_goes.trans (if_pos rfl)⟩)
  | _ => exact .inl rfl

/-- What a job answered stands, until a publish says it. -/
theorem Moves.returned (hm : Moves path me n e m) (he : e ≠ .opens) {i : ι} :
    (∀ job now r, n.calls i = some (.job job now (.returned r)) →
      m.calls i = n.calls i ∨ ∃ a, m.calls i = some (.answered a)) ∧
    ∀ a, n.calls i = some (.answered a) → m.calls i = n.calls i := by
  have hgoes : ∀ {j : ι} {c : Call root}, m.calls = (n.goes j c).calls →
      (∀ job now r, n.calls j = some (.job job now (.returned r)) → ∃ a, c = .answered a) →
      (∀ a, n.calls j ≠ some (.answered a)) →
      (∀ job now r, n.calls i = some (.job job now (.returned r)) →
        m.calls i = n.calls i ∨ ∃ a, m.calls i = some (.answered a)) ∧
      ∀ a, n.calls i = some (.answered a) → m.calls i = n.calls i := by
    intro j c hcalls hret hans
    rw [hcalls, calls_goes]
    split_ifs with hij
    · subst hij
      exact ⟨fun job now r hr => .inr ((hret job now r hr).imp fun a ha => congrArg some ha),
        fun a ha => absurd ha (hans a)⟩
    · exact ⟨fun _ _ _ _ => .inl rfl, fun _ _ => rfl⟩
  cases hm with
  | store _ => exact ⟨fun _ _ _ _ => .inl rfl, fun _ _ => rfl⟩
  | opens _ => exact absurd rfl he
  | calls hj _ _ => rcases hj with hj | ⟨head, hj⟩ <;> exact hgoes rfl (by simp [hj]) (by simp [hj])
  | checks hj _ _ _ => exact hgoes rfl (by simp [hj]) (by simp [hj])
  | answers hj => exact hgoes rfl (fun _ _ _ _ => ⟨_, rfl⟩) (by simp [hj])
  | stands hj | beats hj | adopts hj | stops hj | signs hj | announces hj | fails hj =>
    exact hgoes rfl (by simp [hj]) (by simp [hj])

/-! ## Runs -/

section

variable (path : String) (me : NodeIdentity) (file : PolicyFile) (held₀ : Option (Held root))
  (es : List (NodeEvent ι))

/-- Call `i` read the policy under the writer lock, and nothing was announced since. -/
def ReadLocked (i : ι) (held : Held root) : Prop :=
  ∃ es₁ es₂ u, es = es₁ ++ .read i :: es₂ ∧ run (step path me) (start file held₀) es₁ = some u ∧
    u.writer = some i ∧ read path root u.store.file = .ok (some held) ∧ .opens ∉ es₂ ∧
    ∀ j, .announce j ∉ es₂

/-- What the events so far are to the calls: a job about to announce a candidate's policy read it
under the lock, and one that announced answered `Ok(true)`. -/
structure History (n : Node root ι) : Prop where
  read : ∀ i job now held fresh, n.calls i = some (.job job now (.announces held fresh)) →
    job.candidate ≠ none → ReadLocked path me file held₀ es i held
  announced : ∀ i es₁ es₂, es = es₁ ++ .announce i :: es₂ → .opens ∉ es₂ →
    (∃ job now, n.calls i = some (.job job now (.returned (.ok true)))) ∨
      ∃ a, n.calls i = some (.answered a)

end

variable {es : List (NodeEvent ι)} {held₀ : Option (Held root)}

theorem History.step (h : History path me file held₀ es n) (hg : Good path me file n)
    (hread : Wires.read path root file = .ok held₀)
    (hrun : run (step path me) (start file held₀) es = some n) (hm : Moves path me n e m) :
    History path me file held₀ (es ++ [e]) m where
  read i job now held fresh hi hjob := by
    rcases hg.news hread hm hi with hold | ⟨-, -, hnew⟩
    · obtain ⟨es₁, es₂, u, hes, hu, hw, hr, hopens, hann⟩ := h.read i job now held fresh hold hjob
      have hopen : e ≠ .opens := by
        rintro rfl
        rw [hm.of_opens i] at hi
        cases hi
      have hother : ∀ j, e ≠ .announce j := by
        rintro j rfl
        obtain ⟨job', now', held', fresh', hj, hj'⟩ := hm.of_announce
        have hwi : n.writer = some i := (hg.calls i _ hold).1
        have hwj : n.writer = some j := (hg.calls j _ hj).1
        obtain rfl : j = i := Option.some.inj (hwj.symm.trans hwi)
        rw [hi] at hj'
        cases hj'
      refine ⟨es₁, es₂ ++ [e], u, by simp [hes], hu, hw, hr, ?_, fun j => ?_⟩
      · simpa using ⟨hopens, hopen.symm⟩
      · simpa using ⟨hann j, (hother j).symm⟩
    · obtain ⟨rfl, hw, hr⟩ := hnew hjob
      exact ⟨es, [], n, rfl, hrun, hw, hr, by simp, by simp⟩
  announced i es₁ es₂ hes hopens := by
    rcases List.eq_nil_or_concat es₂ with rfl | ⟨es₃, e', rfl⟩
    · obtain ⟨rfl, he⟩ := List.append_inj' hes rfl
      cases he
      obtain ⟨job, now, -, -, -, hi⟩ := hm.of_announce
      exact .inl ⟨job, now, hi⟩
    · rw [List.concat_eq_append] at hes hopens
      rw [← List.cons_append, ← List.append_assoc] at hes
      obtain ⟨rfl, he⟩ := List.append_inj' hes rfl
      cases he
      have hne : e ≠ .opens := by
        rintro rfl
        simp at hopens
      obtain ⟨hret, hans⟩ := hm.returned hne (i := i)
      rcases h.announced i es₁ es₃ rfl (by simp_all) with ⟨job, now, hi⟩ | ⟨a, hi⟩
      · rcases hret job now _ hi with hs | ha
        · exact .inl ⟨job, now, hs.trans hi⟩
        · exact .inr ha
      · exact .inr ⟨a, (hans a hi).trans hi⟩

theorem history_of_run (hread : Wires.read path root file = .ok held₀)
    (hrun : run (step path me) (start file held₀) es = some n) :
    History path me file held₀ es n := by
  refine run_induction (motive := fun es n => History path me file held₀ es n)
    ⟨fun i job now held fresh hi => ?_, fun i es₁ es₂ hes => ?_⟩
    (fun es e n m hn h hs => h.step (good_of_run hread hn) hread hn (moves_of_step hs)) hrun
  · cases hi
  · simp at hes

/-- What a step of a directory does to what it announces, after the events `es`. -/
structure Announcements (path : String) (me : NodeIdentity) (file : PolicyFile)
    (held₀ : Option (Held root)) (es : List (NodeEvent ι)) (n : Node root ι) (e : NodeEvent ι)
    (m : Node root ι) : Prop where
  /-- What is announced verifies under the root. -/
  verifies : ∀ c, m.current = some c → c.held.signed.verify root = .ok ()
  /-- An announced word verifies for exactly what is announced. -/
  word : ∀ c f, m.current = some c → c.fresh = some f → f.verify c.held.signed.head = .ok ()
  /-- The announced version never decreases. -/
  grows : ∀ c, n.current = some c → ∃ c', m.current = some c' ∧ c.held.version ≤ c'.held.version
  /-- A word is signed for nothing older than what is announced. -/
  signs : ∀ i job now held f, m.calls i = some (.job job now (.announces held (some f))) →
    n.calls i ≠ m.calls i → f.verify held.signed.head = .ok () ∧ f.directory = nodeId me ∧
      ∀ c, n.current = some c → c.held.version ≤ held.version
  /-- When `accept` answers `Ok(true)`, it announces what it read under the lock. -/
  accepted : ∀ i job now c, m.calls i = some (.job job now (.returned (.ok true))) →
    n.calls i ≠ m.calls i → job.candidate = some c → ∃ cur, m.current = some cur ∧
      c.policy.version ≤ cur.held.version ∧ ReadLocked path me file held₀ es i cur.held
  /-- A publish is answered with what is announced. -/
  answers : ∀ i v hash, m.calls i = some (.answered (.published v hash)) → n.calls i ≠ m.calls i →
    ∃ c, m.current = some c ∧ v = c.held.version ∧ hash = c.held.signed.head.hash
  /-- What is announced changes only at a restart, or when a call announces. -/
  changes : m.current = n.current ∨ e = .opens ∨ ∃ i, e = .announce i
  /-- A call that announced answers `Ok(true)`: a refusal left what is announced as it was. -/
  refused : ∀ i job now r es₁ es₂, es ++ [e] = es₁ ++ .announce i :: es₂ → .opens ∉ es₂ →
    m.calls i = some (.job job now (.returned r)) → r = .ok true

/-- Without a restart, what is announced next is what is announced now, or newer. -/
theorem Good.succeeds (h : Good path me file n) (hm : Moves path me n e m) (he : e ≠ .opens)
    {c : Current root} (hc : n.current = some c) :
    ∃ c', m.current = some c' ∧ Succeeds c.held c'.held := by
  cases hm with
  | opens _ => exact absurd rfl he
  | @announces i job now held fresh hi =>
    exact ⟨⟨held, fresh⟩, rfl, (h.calls i _ hi).2.1 c hc⟩
  | _ => exact ⟨c, hc, .inl rfl⟩

/-- A store's restart finds what was announced, or newer. -/
theorem Good.grows (h : Good path me file n) (hm : Moves path me n e m) {c : Current root}
    (hc : n.current = some c) : ∃ c', m.current = some c' ∧ c.held.version ≤ c'.held.version := by
  by_cases he : e = .opens
  · subst he
    have hst := h.stored c hc
    cases hm with
    | @opens held hr =>
      rw [storedVersion_of_read hr] at hst
      cases held with
      | none => simp [Wires.heldVersion] at hst
      | some g => exact ⟨⟨g, none⟩, rfl, WithBot.coe_le_coe.mp hst⟩
    | calls _ _ he => simp at he
    | stops _ _ he => simp at he
  · obtain ⟨c', hc', hs⟩ := h.succeeds hm he hc
    exact ⟨c', hc', hs.le⟩

theorem announcements (hread : Wires.read path root file = .ok held₀)
    (hrun : run (step path me) (start file held₀) es = some n) (hstep : n.step path me e = some m) :
    Announcements path me file held₀ es n e m := by
  have hm := moves_of_step hstep
  have hg := good_of_run hread hrun
  have hg' := hg.step hread hm
  have hh := history_of_run hread hrun
  have hh' := hh.step hg hread hrun hm
  refine ⟨fun c _ => c.held.verified, fun c f hc hf => (hg'.word c f hc hf).verifies,
    fun c hc => hg.grows hm hc, fun i job now held f hi hne => ?_, fun i job now c hi hne hjob => ?_,
    fun i v hash hi hne => ?_, ?_, fun i job now r es₁ es₂ hes hopens hi => ?_⟩
  · rcases hg.news hread hm hi with hold | ⟨hcur, hword, -⟩
    · exact absurd (hold.trans hi.symm) hne
    · exact ⟨(hword f rfl).verifies, (hword f rfl).own, fun c hc => (hcur c hc).le⟩
  · rcases hg.news hread hm hi with hold | ⟨held, fresh, -, hann, hcur⟩
    · exact absurd (hold.trans hi.symm) hne
    · exact ⟨_, hcur, (hg.calls i _ hann).2.2.2.2 c hjob,
        hh.read i job now held fresh hann (by simp [hjob])⟩
  · rcases hg.news hread hm hi with hold | hnew
    · exact absurd (hold.trans hi.symm) hne
    · exact hnew
  · exact hm.current.imp id (Or.imp id fun ⟨i, _, _, he, _⟩ => ⟨i, he⟩)
  · rcases hh'.announced i es₁ es₂ hes hopens with ⟨job', now', hi'⟩ | ⟨a, hi'⟩
    · rw [hi] at hi'
      cases hi'
      rfl
    · rw [hi] at hi'
      cases hi'

end Node

/-! ## A policy that is announced -/

section

variable {ι : Type} [DecidableEq ι] {path : String} {me : NodeIdentity}

/-- The events of an `accept` that adopts its candidate. -/
def accepting (i : ι) (c : Candidate) (now : Int64) : List (NodeEvent ι) :=
  [.accept i c now, .lock i, .store (.lock i), .store (.read i), .store (.write i),
    .store (.unlock i), .read i, .announce i]

/-- A newer policy that verifies and is not expired is stored and announced. -/
theorem run_accepting {n : Node root ι} {i : ι} {c : Candidate} {now : Int64} {held : Held root}
    (hheld : held.signed = c.policy) (hfresh : held.checkFresh now = .ok ())
    (hcall : n.calls i = none) (hidle : n.store.calls i = none) (hlock : n.store.lock = none)
    (hwriter : n.writer = none) (hnewer : n.version < held.version)
    (hfile : Adopt.found path root n.store.file c.policy = .writes) :
    ∃ m : Node root ι, run (Node.step path me) n (accepting i c now) = some m ∧
      m.current = some ⟨held, signFresh me held now⟩ ∧ m.writer = none ∧ m.store.lock = none ∧
      m.store.file = .text (policyText c.policy) ∧
      ∀ j, j ≠ i → m.calls j = n.calls j ∧ m.store.calls j = n.store.calls j := by
  obtain ⟨⟨file, lock, scalls⟩, current, writer, calls⟩ := n
  simp only at hcall hidle hlock hwriter hfile
  subst hlock hwriter
  have hverify : Held.verify c.policy root = .ok held := Held.verify_eq_ok.mpr hheld
  have hcheck : checkCandidate root c.policy now = .ok held := by
    simp [checkCandidate, hverify, hfresh]
  have hoffered : checkOffered root c.policy now = .ok () := by
    have hf : c.policy.head.checkFresh now = .ok () := hheld ▸ hfresh
    simp [checkOffered, hheld ▸ held.verified, hf]
  have hread : read path root (.text (policyText c.policy)) = .ok (some held) := by
    obtain ⟨held', hr, hs⟩ := read_policyText path (c := c) (hheld ▸ held.verified)
    rw [hr, ← Except.ok.inj ((Held.verify_eq_ok.mpr hs).symm.trans hverify)]
  have hle : ¬c.policy.version ≤ (current.map fun c => c.held.version).getD 0 := by
    rw [← hheld]
    exact UInt64.not_le.mpr hnewer
  have hgt : held.version > (current.map fun c => c.held.version).getD 0 := hnewer
  simp only [accepting, run, Node.step, Node.enters, Job.candidate, hcall, hcheck, Node.goes,
    Function.update_self, Option.bind_some, Node.locked, Adopt.step, Node.version, if_neg hle,
    hidle, hoffered, Adopt.goes, Option.bind_eq_bind, Option.pure_def, Option.map_some, hfile,
    if_neg (newline_notMem_jsonText c.policy), Node.adoptResult, Node.adopted, hread, hgt, if_true]
  refine ⟨_, rfl, rfl, rfl, rfl, rfl, fun j hj => ⟨?_, ?_⟩⟩
  · simp only [Node.returns, Node.goes, Function.update_of_ne hj]
  · simp only [Node.returns, Node.goes, Function.update_of_ne hj]

end

end Directory

end

namespace Directory

/-! ## A beat beside an accept -/

section Sample

attribute [local instance] Crypto.plain

/-- Version 1 names node 2. -/
def heldFirst : Held (nodeId sampleRoot) := versionHeld 1 (sampleNode 2) validate_samplePolicy

/-- Version 2 does not. -/
def heldSecond : Held (nodeId sampleRoot) := versionHeld 2 (sampleNode 4) (by decide)

theorem signFresh_heldSecond : ∃ w, signFresh (3 : UInt8) heldSecond 5 = some w :=
  Option.isSome_iff_exists.mp (by decide)

/-- The events that announce a version of the sample policy. -/
def announcing (i : Bool) (version : StateVersion) (host : NodeId) : List (NodeEvent Bool) :=
  accepting i (versionOffer version host) 5

/-- A version is announced over an older one. -/
theorem run_announcing {n : Node (nodeId sampleRoot) Bool} (i : Bool) {version : StateVersion}
    {host : NodeId} (h : (samplePolicy version [host]).validate = .ok ())
    {old : Held (nodeId sampleRoot)} {fresh : Option Fresh} (hcall : n.calls i = none)
    (hidle : n.store.calls i = none) (hlock : n.store.lock = none) (hwriter : n.writer = none)
    (hcurrent : n.current = some ⟨old, fresh⟩)
    (hread : read "policy.json" (nodeId sampleRoot) n.store.file = .ok (some old))
    (hold : old.version < version) :
    ∃ m : Node (nodeId sampleRoot) Bool,
      run (Node.step "policy.json" (3 : UInt8)) n (announcing i version host) = some m ∧
      m.current =
        some ⟨versionHeld version host h, signFresh (3 : UInt8) (versionHeld version host h) 5⟩ ∧
      m.writer = none ∧ m.store.lock = none ∧
      read "policy.json" (nodeId sampleRoot) m.store.file =
        .ok (some (versionHeld version host h)) ∧
      ∀ j, j ≠ i → m.calls j = n.calls j ∧ m.store.calls j = n.store.calls j := by
  have hfabric : old.signed.head.head.fabric = nodeId sampleRoot :=
    (SignedPolicyHead.verify_eq_ok.mp (SignedPolicy.verify_eq_ok.mp old.verified).1).2.2.1
  have hnewer : (versionOffer version host).policy.isNewerThan old.signed = true :=
    SignedPolicyHead.isNewerThan_iff.mpr ⟨hfabric.symm, hold⟩
  have hwrites : Adopt.found "policy.json" (nodeId sampleRoot) n.store.file
      (versionOffer version host).policy = .writes := by
    rw [Adopt.found, hread]
    exact if_pos hnewer
  have hversion : n.version < (versionHeld version host h).version := by
    rw [Node.version, hcurrent]
    exact hold
  have hfresh : (versionHeld version host h).checkFresh 5 = .ok () :=
    SignedPolicyHead.checkFresh_eq_ok.mpr (show (5 : Int64) ≤ 10000 by decide)
  obtain ⟨m, hm, hcur, hw, hl, hfile, hothers⟩ := run_accepting (c := versionOffer version host) rfl
    hfresh hcall hidle hlock hwriter hversion hwrites
  refine ⟨m, hm, hcur, hw, hl, ?_, hothers⟩
  rw [hfile]
  exact read_versionOffer h

/-- The beat waits while version 2 is accepted, and then signs for that. -/
def sampleBeats : List (NodeEvent Bool) :=
  .beat false 5 :: announcing true 2 (sampleNode 4) ++ [.lock false]

theorem run_sampleBeats {file : PolicyFile}
    (hread : read "policy.json" (nodeId sampleRoot) file = .ok (some heldFirst)) :
    ∃ n m : Node (nodeId sampleRoot) Bool,
      run (Node.step "policy.json" (3 : UInt8)) (.start file (some heldFirst)) sampleBeats = some n ∧
      n.step "policy.json" (3 : UInt8) (.announce false) = some m ∧
      m.current = some ⟨heldSecond, signFresh (3 : UInt8) heldSecond 5⟩ := by
  let beats : Node (nodeId sampleRoot) Bool :=
    (Node.start file (some heldFirst)).goes false (.job .beat 5 .waits)
  obtain ⟨n, hn, hcur, hwriter, -, -, hothers⟩ :=
    run_announcing (n := beats) true (by decide : (samplePolicy 2 [sampleNode 4]).validate = .ok ())
      rfl rfl rfl rfl rfl hread (by decide)
  have hwaits : n.calls false = some (.job .beat 5 .waits) := (hothers false (by decide)).1
  -- what is signed for is what is held by then
  let signs : Node (nodeId sampleRoot) Bool :=
    { n.goes false (.job .beat 5 (.announces heldSecond (signFresh (3 : UInt8) heldSecond 5))) with
      writer := some false }
  have hlock : n.step "policy.json" (3 : UInt8) (.lock false) = some signs := by
    simp only [Node.step, hwaits, hwriter, Node.locked, Job.candidate, hcur]
    rfl
  refine ⟨signs, { signs.returns false .beat 5 (.ok true) with
    current := some ⟨heldSecond, signFresh (3 : UInt8) heldSecond 5⟩ },
    run_cons.mpr ⟨beats, rfl, run_concat.mpr ⟨n, hn, hlock⟩⟩, ?_, rfl⟩
  have hsigns : signs.calls false =
      some (.job .beat 5 (.announces heldSecond (signFresh (3 : UInt8) heldSecond 5))) := by
    simp only [signs, Node.goes, Function.update_self]
  simp only [Node.step, hsigns]

theorem announcements_sample : ∃ (file : PolicyFile) (n m : Node (nodeId sampleRoot) Bool),
    Node.Announcements "policy.json" (3 : UInt8) file (some heldFirst) sampleBeats n (.announce false) m ∧
    m.current = some ⟨heldSecond, signFresh (3 : UInt8) heldSecond 5⟩ := by
  have hread : read "policy.json" (nodeId sampleRoot)
      (.text (policyText (versionOffer 1 (sampleNode 2)).policy)) = .ok (some heldFirst) :=
    read_versionOffer (by decide)
  obtain ⟨n, m, hn, hm, hcur⟩ := run_sampleBeats hread
  exact ⟨_, n, m, Node.announcements hread hn hm, hcur⟩

end Sample

end Directory

end Wires
