import Wires.Impl.Network
import Wires.Proof.Directory
import Wires.Proof.Freshness
import Wires.Proof.Release

/-!
# The life of a superseded policy

Once every directory a head lists announces something newer, no directory signs
for that head again, and the words it has signed run out after the head's
`fresh_secs`: a caller that reads the clock later than that clears no host on
the strength of that head, whoever's words it holds or is shown
(`superseded`). `Network.Timed` says that no word is signed ahead of the clock,
`Network.Past` what stands once the directories have moved on. The `Hello`
itself is written after the clock was read, and may go out later.
-/

namespace Wires

section

variable [Crypto] {root : NodeId}

/-! ## What a directory's step signs -/

namespace Directory.Node

variable {ι : Type} [DecidableEq ι] {path : String} {me : NodeIdentity} {n m : Node root ι}
  {e : NodeEvent ι}

/-- No call was made ahead of the clock. -/
def Timed (clock : Int64) (n : Node root ι) : Prop :=
  ∀ i job now stage, n.calls i = some (.job job now stage) → now ≤ clock

theorem Timed.of_goes {clock : Int64} (h : n.Timed clock) {i : ι} {c : Call root}
    (hcalls : m.calls = (n.goes i c).calls)
    (hc : ∀ job now stage, c = .job job now stage → now ≤ clock) : m.Timed clock := by
  intro j job now stage hj
  rw [hcalls, calls_goes] at hj
  split_ifs at hj with hji
  · exact hc job now stage (Option.some.inj hj)
  · exact h j job now stage hj

theorem Timed.step {clock : Int64} (h : n.Timed clock) (hm : Moves path me n e m)
    (he : ∀ now, e.reading = some now → now ≤ clock) : m.Timed clock := by
  -- a job goes on with the clock it was called at
  have hjob : ∀ {i : ι} {job : Job} {now : Int64} {stage stage' : JobStage root},
      n.calls i = some (.job job now stage) → ∀ job' now' stage'',
      Call.job job now stage' = .job job' now' stage'' → now' ≤ clock := by
    intro i job now stage stage' hi job' now' stage'' heq
    cases heq
    exact h i job now stage hi
  cases hm with
  | store _ => exact h
  | opens _ =>
    intro i job now stage hi
    cases hi
  | @calls e i job now stage _ _ hcalled =>
    refine h.of_goes rfl fun job' now' stage' heq => ?_
    cases heq
    apply he
    rcases hcalled with rfl | ⟨c, rfl⟩ | ⟨is, hp, rfl⟩ <;> rfl
  | checks _ hc _ _ => exact h.of_goes rfl fun job now stage heq => absurd heq (hc job now stage)
  | answers _ =>
    refine h.of_goes rfl fun job now stage heq => ?_
    cases heq
  | stands hi _ => exact h.of_goes rfl (hjob hi)
  | beats hi _ _ _ => exact h.of_goes rfl (hjob hi)
  | adopts hi _ _ _ _ => exact h.of_goes rfl (hjob hi)
  | stops hi _ _ => exact h.of_goes rfl (hjob hi)
  | signs hi _ _ _ => exact h.of_goes rfl (hjob hi)
  | announces hi => exact h.of_goes rfl (hjob hi)
  | fails hi => exact h.of_goes rfl (hjob hi)

/-- A word is signed at the clock of a call, for nothing older than what is announced. -/
structure Signs (me : NodeIdentity) (n : Node root ι) (f : Fresh) : Prop where
  called : ∃ i job stage, n.calls i = some (.job job f.at_ stage)
  newest : ∀ c, n.current = some c → c.held.version ≤ f.version

theorem version_of_signFresh {held : Held root} {now : Int64} {f : Fresh}
    (h : signFresh me held now = some f) : f.at_ = now ∧ f.version = held.version := by
  obtain ⟨hword, hat⟩ := word_of_signFresh h
  exact ⟨hat, (Fresh.verify_eq_ok.mp hword.verifies).2.2.1.2.1⟩

theorem Moves.of_signs (hm : Moves path me n e m) {f : Fresh} (hf : m.signs e = some f) :
    n.Signs me f := by
  cases hm with
  | store _ => cases hf
  | opens _ => cases hf
  | calls _ _ hcalled =>
    rcases hcalled with rfl | ⟨c, rfl⟩ | ⟨is, hp, rfl⟩ <;> cases hf
  | checks _ _ _ _ => cases hf
  | answers _ => cases hf
  | announces _ => cases hf
  | fails _ => cases hf
  | @stands i job now _ _ =>
    have hcalls : (n.returns i job now (.ok false)).calls i = some (.job job now (.returned (.ok false))) :=
      calls_goes.trans (if_pos rfl)
    rw [Node.signs, hcalls] at hf
    cases hf
  | @adopts i job now c s _ _ _ _ _ =>
    have hcalls : (n.goes i (.job job now .adopts)).calls i = some (.job job now .adopts) :=
      calls_goes.trans (if_pos rfl)
    simp only [Node.signs, hcalls] at hf
    cases hf
  | @stops _ i job now r _ _ he =>
    have hcalls : (n.returns i job now r).calls i = some (.job job now (.returned r)) :=
      calls_goes.trans (if_pos rfl)
    rcases he with rfl | ⟨why, rfl⟩
    · rw [Node.signs, hcalls] at hf
      cases hf
    · cases hf
  | @beats i job now c hi _ _ hcur =>
    have hcalls : (n.goes i (.job job now (.announces c.held (signFresh me c.held now)))).calls i =
        some (.job job now (.announces c.held (signFresh me c.held now))) :=
      calls_goes.trans (if_pos rfl)
    simp only [Node.signs, hcalls] at hf
    obtain ⟨hat, hversion⟩ := version_of_signFresh hf
    refine ⟨⟨i, job, _, hat ▸ hi⟩, fun d hd => ?_⟩
    cases hcur.symm.trans hd
    exact hversion ▸ le_rfl
  | @signs i job now b held hi _ _ hlt =>
    have hcalls : (n.goes i (.job job now (.announces held (signFresh me held now)))).calls i =
        some (.job job now (.announces held (signFresh me held now))) :=
      calls_goes.trans (if_pos rfl)
    rw [Node.signs, hcalls] at hf
    obtain ⟨hat, hversion⟩ := version_of_signFresh hf
    refine ⟨⟨i, job, _, hat ▸ hi⟩, fun d hd => ?_⟩
    rw [version, hd] at hlt
    exact hversion ▸ le_of_lt hlt

end Directory.Node

/-! ## Who is cleared, and when -/

/-- A `Hello` that is sent was licensed. -/
theorem Licensed.hello {J : NodeId → Grounds root → Prop} {sent : List (Sent root)}
    (h : Licensed J sent) {host : NodeId} {version : Option StateVersion} {token : IdToken}
    {on : Grounds root} {at_ : Int64} (hm : Sent.hello host version token on at_ ∈ sent) :
    J host on := by
  induction sent with
  | nil => cases hm
  | cons s older ih =>
    obtain ⟨hs, holder⟩ := h
    rcases List.mem_cons.mp hm with rfl | hm
    · exact hs
    · exact ih holder hm

/-- The signatures of the words a caller held, or was shown, when it sent a `Hello`. -/
def presentedWords (sent : List (Sent root)) : Set Presented :=
  {p | ∃ host version token on at_ f, Sent.hello host version token on at_ ∈ sent ∧
    (f ∈ on.held.fresh.iter ∨ ∃ proof, on.shown = some proof ∧ f ∈ proof.fresh) ∧
    p = (f.signedBytes, f.sig)}

/-- A caller of its scope, all of whose frames are licensed, and which prepares its next. -/
def Contact.Good (scope : Scope) (known : List NodeId) : Contact root → Prop
  | .call _ _ c => c.talk.Good scope known ∧ c.stage.Good scope known c.talk.sent
  | .fetch f => f.talk.Good scope known ∧ f.stage.Good scope known f.talk.sent

namespace Contact

variable {scope : Scope} {known : List NodeId} {idToken : IdToken} {c c' : Contact root}
  {e : ContactEvent root}

theorem Good.talk (h : c.Good scope known) : c.talk.Good scope known := by
  cases c with
  | call service argv c => exact h.1
  | fetch f => exact h.1

theorem Starts.good (h : c.Starts) : ∃ scope known, c.Good scope known := by
  cases h with
  | call service argv vouch targets => exact ⟨vouch.scope, vouch.known, ⟨rfl, rfl, trivial⟩, trivial⟩
  | fetch vouch waitMs => exact ⟨vouch.scope, vouch.known, ⟨rfl, rfl, trivial⟩, trivial⟩

theorem good_step (h : c.Good scope known) (hs : c.step idToken e = some c') :
    c'.Good scope known := by
  unfold step at hs
  split at hs
  · obtain ⟨d, hd, rfl⟩ := Option.map_eq_some_iff.mp hs
    exact ServiceCall.good_step h hd
  · obtain ⟨g, hg, rfl⟩ := Option.map_eq_some_iff.mp hs
    exact InboxFetch.good_step h hg
  · cases hs

end Contact

/-! ## What every step of the network keeps -/

namespace Network

variable {δ κ ι : Type} [DecidableEq δ] [DecidableEq κ] [DecidableEq ι] {path : δ → String}
  {me : δ → NodeIdentity} {idToken : κ → IdToken} {n m : Network root δ κ ι}
  {e : NetworkEvent root δ κ ι}

/-- What a step of the network does. -/
inductive Moves (path : δ → String) (me : δ → NodeIdentity) (idToken : κ → IdToken)
    (n : Network root δ κ ι) : Network root δ κ ι → Prop
  | tick {now : Int64} (h : n.clock ≤ now) : Moves path me idToken n { n with clock := now }
  | node {d : δ} {e : Directory.NodeEvent ι} {node : Directory.Node root ι}
    (hread : ∀ now, e.reading = some now → now = n.clock)
    (hs : (n.nodes d).step (path d) (me d) e = some node) :
    Moves path me idToken n { n with
      nodes := Function.update n.nodes d node
      signed := Function.update n.signed d ((node.signs e).toList ++ n.signed d) }
  | contact {k : κ} {e : ContactEvent root} {c : Contact root}
    (hread : ∀ now, e.reading = some now → now = n.clock)
    (hs : (n.contacts k).step (idToken k) e = some c) :
    Moves path me idToken n { n with contacts := Function.update n.contacts k c }

theorem moves_of_step (h : n.step path me idToken e = some m) : Moves path me idToken n m := by
  cases e with
  | tick now =>
    simp only [step] at h
    split_ifs at h with hle
    cases h
    exact .tick hle
  | node d e =>
    simp only [step] at h
    split_ifs at h with hread
    obtain ⟨node, hs, rfl⟩ := Option.map_eq_some_iff.mp h
    refine .node (fun now hnow => ?_) hs
    rw [hnow] at hread
    exact of_decide_eq_true hread
  | contact k e =>
    simp only [step] at h
    split_ifs at h with hread
    obtain ⟨c, hs, rfl⟩ := Option.map_eq_some_iff.mp h
    refine .contact (fun now hnow => ?_) hs
    rw [hnow] at hread
    exact of_decide_eq_true hread

/-- A network as it starts: the directories opened on their files, no word signed ahead of the
clock, and no host dialed. -/
structure Starts (path : δ → String) (file : δ → PolicyFile) (n : Network root δ κ ι) : Prop where
  nodes : ∀ d, ∃ held, Wires.read (path d) root (file d) = .ok held ∧
    n.nodes d = Directory.Node.start (file d) held
  signed : ∀ d, ∀ f ∈ n.signed d, f.at_ ≤ n.clock
  contacts : ∀ k, (n.contacts k).Starts

/-- Every directory is as its own steps keep it, no call was made and no word signed ahead of the
clock, and every caller's frames are licensed. -/
structure Good (path : δ → String) (me : δ → NodeIdentity) (file : δ → PolicyFile)
    (n : Network root δ κ ι) : Prop where
  nodes : ∀ d, (n.nodes d).Good (path d) (me d) (file d)
  timed : ∀ d, (n.nodes d).Timed n.clock
  signed : ∀ d, ∀ f ∈ n.signed d, f.at_ ≤ n.clock
  contacts : ∀ k, ∃ scope known, (n.contacts k).Good scope known

variable {file : δ → PolicyFile}

omit [DecidableEq δ] [DecidableEq κ] in
theorem Starts.good (h : n.Starts path file) : n.Good path me file where
  nodes d := by
    obtain ⟨held, hread, hd⟩ := h.nodes d
    rw [hd]
    exact Directory.Node.good_start hread
  timed d := by
    obtain ⟨held, -, hd⟩ := h.nodes d
    rw [hd]
    intro i job now stage hi
    cases hi
  signed := h.signed
  contacts k := (h.contacts k).good

omit [DecidableEq δ] [DecidableEq κ] in
/-- What is signed is signed at the clock of a call, so not ahead of it. -/
theorem Good.at_le (h : n.Good path me file) {d : δ} {f : Fresh} (hs : (n.nodes d).Signs (me d) f) :
    f.at_ ≤ n.clock := by
  obtain ⟨i, job, stage, hi⟩ := hs.called
  exact h.timed d i job f.at_ stage hi

theorem Good.step (hread : ∀ d, ∃ held, Wires.read (path d) root (file d) = .ok held)
    (h : n.Good path me file) (hm : Moves path me idToken n m) : m.Good path me file := by
  cases hm with
  | @tick now hle =>
    refine ⟨h.nodes, fun d i job t stage hi => ?_, fun d f hf => ?_, h.contacts⟩
    · exact Int64.le_trans (h.timed d i job t stage hi) hle
    · exact Int64.le_trans (h.signed d f hf) hle
  | @node d e node hclock hs =>
    obtain ⟨held, hheld⟩ := hread d
    have hmoves := Directory.Node.moves_of_step hs
    refine ⟨fun d' => ?_, fun d' => ?_, fun d' f hf => ?_, h.contacts⟩
    · show (Function.update n.nodes d node d').Good (path d') (me d') (file d')
      rw [Function.update_apply]
      split_ifs with heq
      · subst heq
        exact (h.nodes d').step hheld hmoves
      · exact h.nodes d'
    · show (Function.update n.nodes d node d').Timed n.clock
      rw [Function.update_apply]
      split_ifs with heq
      · exact (h.timed d).step hmoves fun now hnow => hclock now hnow ▸ Int64.le_refl _
      · exact h.timed d'
    · change f ∈ Function.update n.signed d _ d' at hf
      rw [Function.update_apply] at hf
      split_ifs at hf with heq
      · rcases List.mem_append.mp hf with hnew | hold
        · exact h.at_le (hmoves.of_signs (Option.mem_toList.mp hnew))
        · exact h.signed d f hold
      · exact h.signed d' f hf
  | @contact k e c hclock hs =>
    refine ⟨h.nodes, h.timed, h.signed, fun k' => ?_⟩
    show ∃ scope known, (Function.update n.contacts k c k').Good scope known
    rw [Function.update_apply]
    split_ifs with heq
    · obtain ⟨scope, known, hk⟩ := h.contacts k
      exact ⟨scope, known, Contact.good_step hk hs⟩
    · exact h.contacts k'

/-! ## Once the directories have moved on -/

/-- Every directory the head lists announces something newer, and what it signed was signed by `t`,
or for something newer. -/
structure Past (me : δ → NodeIdentity) (head : SignedPolicyHead) (t : Int64)
    (n : Network root δ κ ι) : Prop where
  newer : ∀ d, nodeId (me d) ∈ head.head.directories →
    ∃ c, (n.nodes d).current = some c ∧ head.head.version < c.held.version
  signed : ∀ d, nodeId (me d) ∈ head.head.directories → ∀ f ∈ n.signed d,
    f.at_ ≤ t ∨ head.head.version < f.version

variable {head : SignedPolicyHead} {t : Int64}

theorem Past.step (h : n.Past me head t) (hg : n.Good path me file)
    (hm : Moves path me idToken n m) : m.Past me head t := by
  cases hm with
  | tick _ => exact ⟨h.newer, h.signed⟩
  | contact _ _ => exact ⟨h.newer, h.signed⟩
  | @node d e node hclock hs =>
    have hmoves := Directory.Node.moves_of_step hs
    refine ⟨fun d' hd' => ?_, fun d' hd' f hf => ?_⟩
    · show ∃ c, (Function.update n.nodes d node d').current = some c ∧ _
      rw [Function.update_apply]
      split_ifs with heq
      · subst heq
        obtain ⟨c, hc, hlt⟩ := h.newer d' hd'
        obtain ⟨c', hc', hle⟩ := (hg.nodes d').grows hmoves hc
        exact ⟨c', hc', lt_of_lt_of_le hlt hle⟩
      · exact h.newer d' hd'
    · change f ∈ Function.update n.signed d _ d' at hf
      rw [Function.update_apply] at hf
      split_ifs at hf with heq
      · subst heq
        rcases List.mem_append.mp hf with hnew | hold
        · obtain ⟨c, hc, hlt⟩ := h.newer d' hd'
          have hsigns := hmoves.of_signs (Option.mem_toList.mp hnew)
          exact .inr (lt_of_lt_of_le hlt (hsigns.newest c hc))
        · exact h.signed d' hd' f hold
      · exact h.signed d' hd' f hf

/-- What the directories that have one key signed; of other kinds of message, any. -/
def signedBy (me : δ → NodeIdentity) (n : Network root δ κ ι) (key : NodeId) : Set (List UInt8) :=
  {b | (∃ d, nodeId (me d) = key ∧ ∃ f ∈ n.signed d, b = f.signedBytes) ∨
    ¬MessageKind.fresh.Signs b}

omit [DecidableEq δ] [DecidableEq κ] [DecidableEq ι] in
/-- A word for the head that was current when a caller read the clock was signed by `t`, so the
clock then was not past the head's life. -/
theorem Past.now_le (h : n.Past me head t) {sent : List (Sent root)}
    (hunforged : ∀ d ∈ head.head.directories, Unforged d (n.signedBy me d) (presentedWords sent))
    {f : Fresh} (hf : (f.signedBytes, f.sig) ∈ presentedWords sent) (hverify : f.verify head = .ok ())
    {now : Int64} (hcurrent : f.isCurrent now = true) :
    now.toInt ≤ t.toInt + head.head.freshSecs.toNat := by
  obtain ⟨-, -, ⟨-, hversion, -⟩, hdir, hle, hsecs, hsig⟩ := Fresh.verify_eq_ok.mp hverify
  have hlife := (Fresh.life_iff.mp ⟨hle, hsecs⟩).2
  have huntil := (Fresh.isCurrent_iff.mp hcurrent).2
  rcases hunforged f.directory hdir _ hf hsig with ⟨d, hd, g, hg, hbytes⟩ | hother
  · have hbody := freshBytes_inj hbytes
    have hat : f.at_ = g.at_ := congrArg Fresh.SignedBody.at_ hbody
    have hgversion : f.version = g.version := congrArg Fresh.SignedBody.version hbody
    rcases h.signed d (hd ▸ hdir) g hg with ht | hlt
    · have htime := Int64.le_iff_toInt_le.mp (hat ▸ ht)
      omega
    · rw [← hgversion, hversion] at hlt
      exact absurd hlt (lt_irrefl _)
  · exact absurd (signs_fresh f) hother

/-- **A superseded policy's life.** Whatever the directories, the callers and their hosts do before
and after: once every directory `head` lists announces something newer, a caller that sends a
`Hello` on the strength of `head` read the clock, to check its words and the host's, no later than
`fresh_secs` from then. -/
theorem superseded {n₀ : Network root δ κ ι} {es es' : List (NetworkEvent root δ κ ι)}
    (hstart : n₀.Starts path file) (hrun : run (step path me idToken) n₀ es = some n)
    (hnewer : ∀ d, nodeId (me d) ∈ head.head.directories →
      ∃ c, (n.nodes d).current = some c ∧ head.head.version < c.held.version)
    (hrest : run (step path me idToken) n es' = some m)
    (hunforged : ∀ k, ∀ d ∈ head.head.directories,
      Unforged d (m.signedBy me d) (presentedWords (m.contacts k).talk.sent))
    (hcoll : ∀ k, NoCollision (comparedHeads (m.contacts k).talk.sent)) (k : κ) (host : NodeId)
    (version : Option StateVersion) (token : IdToken) (on : Grounds root) (at_ : Int64)
    (hsent : Sent.hello host version token on at_ ∈ (m.contacts k).talk.sent)
    (hhead : on.held.view.head = head) :
    on.now.toInt ≤ n.clock.toInt + head.head.freshSecs.toNat := by
  have hread : ∀ d, ∃ held, Wires.read (path d) root (file d) = .ok held := fun d =>
    (hstart.nodes d).imp fun _ h => h.1
  have hn : n.Good path me file := run_invariant (P := fun n => n.Good path me file)
    (fun _ _ _ h hs => h.step hread (moves_of_step hs)) hstart.good hrun
  have hpast : n.Past me head n.clock := ⟨hnewer, fun d _ f hf => .inl (hn.signed d f hf)⟩
  obtain ⟨hm, hpast⟩ := run_invariant
    (P := fun m => m.Good path me file ∧ m.Past me head n.clock)
    (fun _ _ _ h hs => ⟨h.1.step hread (moves_of_step hs), h.2.step h.1 (moves_of_step hs)⟩)
    ⟨hn, hpast⟩ hrest
  obtain ⟨scope, known, hgood⟩ := hm.contacts k
  have hjust : on.Justified scope known host :=
    (hgood.talk.licensed.justified (hcoll k)).hello hsent
  obtain ⟨f, hheld, hverify, hcurrent, -, -⟩ := hjust.vouched
  rw [hhead] at hverify
  exact hpast.now_le (hunforged k) ⟨host, version, token, on, at_, f, hsent, hheld, rfl⟩ hverify hcurrent

end Network

end

/-! ## A `Hello` that waits -/

section Sample

attribute [local instance] Crypto.plain

namespace Network

/-- Version 2 of the sample policy. -/
def sampleNewer : SignedPolicy := (samplePolicy 2 [sampleNode 2]).signed sampleRoot none

theorem verify_sampleNewer : sampleNewer.verify (nodeId sampleRoot) = .ok () :=
  Policy.verify_signed_none rfl (by decide)

/-- A directory that has opened on version 2, and had signed a word for version 1; and a caller
that holds the word. -/
def sampleNetwork (held : Held (nodeId sampleRoot)) (w : VerifiedFresh) :
    Network (nodeId sampleRoot) Unit Unit Unit where
  clock := 5
  nodes _ := .start (.text (policyText sampleNewer)) (some held)
  signed _ := [w.fresh]
  contacts _ := .call sampleName [] (.start (sampleVouching ⟨[w]⟩) [sampleNode 2])

/-- The caller reads the clock at 5, and its `Hello` is written at 2000. -/
def sampleWait : List (NetworkEvent (nodeId sampleRoot) Unit Unit Unit) :=
  [.contact () (.call (.connect (.ok (sampleNode 2)))), .contact () (.call (.speak (.clock 5))),
    .tick 2000, .contact () (.call (.speak (.wrote 2000 (.ok ()))))]

/-- A word signed at 0 clears node 2 for that caller. -/
theorem exists_word_sample : ∃ w : VerifiedFresh, w.fresh.at_ = 0 ∧
    (sampleVouching ⟨[w]⟩).ready (sampleNode 2) 5 = true := by
  have hsign : ∃ f, Fresh.sign (3 : UInt8) sampleSigned.head 0 100 = .ok f := ⟨_, rfl⟩
  obtain ⟨f, hf⟩ := hsign
  obtain ⟨hverify, hdir, hat, huntil⟩ := Fresh.of_sign hf
  have hother : f.directory ≠ sampleNode 2 := by
    rw [hdir]
    decide
  have hcurrent : f.isCurrent 5 = true := by
    simp only [Fresh.isCurrent, hat, huntil]
    decide
  have hvouches : f.vouches sampleSigned.head (sampleNode 2) 5 = .ok () :=
    Fresh.vouches_eq_ok.mpr ⟨hverify, hcurrent, fun he => absurd he hother⟩
  have hok : isOk (f.vouches sampleSigned.head (sampleNode 2) 5) = true := isOk_unit_iff.mpr hvouches
  refine ⟨⟨f, _, hverify⟩, hat, Vouching.ready_iff.mpr ⟨⟨sampleEntry, rfl, by decide⟩, f, ?_,
    fun he => absurd he hother⟩⟩
  simp [FreshSet.vouching, sampleVouching, sampleHeld, hok]

/-- What the `Hello` goes out on. -/
def sampleGrounds (w : VerifiedFresh) : Grounds (nodeId sampleRoot) :=
  ⟨sampleHeld ⟨[w]⟩, 5, sampleHeld ⟨[w]⟩, none⟩

theorem run_sampleWait (held : Held (nodeId sampleRoot)) {w : VerifiedFresh}
    (hready : (sampleVouching ⟨[w]⟩).ready (sampleNode 2) 5 = true) :
    ∃ m, run (step (fun _ => "policy.json") (fun _ => (3 : UInt8)) fun _ => "token")
        (sampleNetwork held w) sampleWait = some m ∧ m.signed () = [w.fresh] ∧
      (m.contacts ()).talk.sent =
        [.hello (sampleNode 2) (some 1) "token" (sampleGrounds w) 2000] := by
  have htick : (5 : Int64) ≤ 2000 := by decide
  simp only [sampleWait, sampleNetwork, run, step, ContactEvent.reading, SpeakEvent.reading,
    Contact.step, ServiceCall.step, ServiceCall.start, Opening.step, ServiceCall.opened, hready, htick,
    Option.all_none, Option.all_some, decide_true, if_true, Option.map_some, Option.bind_some,
    Function.update_self]
  exact ⟨_, rfl, rfl, rfl⟩

theorem starts_sampleNetwork {held : Held (nodeId sampleRoot)} {w : VerifiedFresh}
    (hread : Wires.read "policy.json" (nodeId sampleRoot) (.text (policyText sampleNewer)) =
      .ok (some held)) (hat : w.fresh.at_ = 0) :
    (sampleNetwork held w).Starts (fun _ => "policy.json") fun _ => .text (policyText sampleNewer) where
  nodes _ := ⟨some held, hread, rfl⟩
  signed d f hf := by
    obtain rfl := List.mem_singleton.mp hf
    rw [hat]
    show (0 : Int64) ≤ 5
    decide
  contacts _ := .call _ _ _ _

/-- Of one `Hello` on the cached path, every word presented is one the directory signed, and no
head was compared. -/
theorem presented_sampleWait {m : Network (nodeId sampleRoot) Unit Unit Unit} {w : VerifiedFresh}
    (hsigned : m.signed () = [w.fresh])
    (hsent : (m.contacts ()).talk.sent =
      [.hello (sampleNode 2) (some 1) "token" (sampleGrounds w) 2000]) :
    Unforged (sampleNode 3) (m.signedBy (fun _ => (3 : UInt8)) (sampleNode 3))
        (presentedWords (m.contacts ()).talk.sent) ∧
      NoCollision (comparedHeads (m.contacts ()).talk.sent) := by
  rw [hsent]
  constructor
  · refine unforged_of_signed fun p hp => ?_
    obtain ⟨host, version, token, on, at_, f, hm, hf, rfl⟩ := hp
    obtain ⟨-, -, -, rfl, -⟩ := Sent.hello.inj (List.mem_singleton.mp hm)
    rcases hf with hf | ⟨proof, hproof, -⟩
    · obtain rfl : f = w.fresh := List.mem_singleton.mp hf
      exact .inl ⟨(), rfl, w.fresh, by simp [hsigned], rfl⟩
    · cases hproof
  · rintro b ⟨host, version, token, on, at_, proof, hm, hproof, -⟩
    obtain ⟨-, -, -, rfl, -⟩ := Sent.hello.inj (List.mem_singleton.mp hm)
    cases hproof

theorem superseded_sample : ∃ (held : Held (nodeId sampleRoot)) (w : VerifiedFresh)
    (m : Network (nodeId sampleRoot) Unit Unit Unit),
    run (step (fun _ => "policy.json") (fun _ => (3 : UInt8)) fun _ => "token")
      (sampleNetwork held w) sampleWait = some m ∧
    (m.contacts ()).talk.sent = [.hello (sampleNode 2) (some 1) "token" (sampleGrounds w) 2000] ∧
    (sampleGrounds w).now.toInt ≤ (5 : Int64).toInt + sampleSigned.head.head.freshSecs.toNat := by
  obtain ⟨held, hread, hsigned⟩ := read_policyText "policy.json"
    (c := ⟨sampleNewer, Policy.parsed_signed parsed_samplePolicy⟩) verify_sampleNewer
  obtain ⟨w, hat, hready⟩ := exists_word_sample
  obtain ⟨m, hrun, hwords, hsent⟩ := run_sampleWait held hready
  obtain ⟨hunforged, hcoll⟩ := presented_sampleWait hwords hsent
  have hnewer : sampleSigned.head.head.version < held.version := by
    rw [Held.version, hsigned]
    decide
  have hbefore : run (step (fun _ => "policy.json") (fun _ => (3 : UInt8)) fun _ => "token")
      (sampleNetwork held w) [] = some (sampleNetwork held w) := rfl
  have hannounced : ∀ d : Unit, sampleNode 3 ∈ sampleSigned.head.head.directories →
      ∃ c, ((sampleNetwork held w).nodes d).current = some c ∧
        sampleSigned.head.head.version < c.held.version := fun _ _ => ⟨_, rfl, hnewer⟩
  refine ⟨held, w, m, hrun, hsent, superseded (starts_sampleNetwork hread hat) hbefore hannounced hrun
    (fun _ d hd => ?_) (fun _ => hcoll) () (sampleNode 2) (some 1) "token" (sampleGrounds w) 2000 (by simp [hsent]) rfl⟩
  obtain rfl : d = sampleNode 3 := List.mem_singleton.mp hd
  exact hunforged

/-- A caller that has read the clock in time may send its `Hello` at any later time. -/
theorem not_superseded : ∃ (held : Held (nodeId sampleRoot)) (w : VerifiedFresh)
    (m : Network (nodeId sampleRoot) Unit Unit Unit),
    (sampleNetwork held w).Starts (fun _ => "policy.json") (fun _ => .text (policyText sampleNewer)) ∧
    (∀ d ∈ sampleSigned.head.head.directories, d = nodeId (3 : UInt8)) ∧
    sampleSigned.head.head.version < held.version ∧
    run (step (fun _ => "policy.json") (fun _ => (3 : UInt8)) fun _ => "token")
      (sampleNetwork held w) sampleWait = some m ∧
    Unforged (sampleNode 3) (m.signedBy (fun _ => (3 : UInt8)) (sampleNode 3))
      (presentedWords (m.contacts ()).talk.sent) ∧
    NoCollision (comparedHeads (m.contacts ()).talk.sent) ∧
    ∃ on at_, .hello (sampleNode 2) (some 1) "token" on at_ ∈ (m.contacts ()).talk.sent ∧
      on.held.view.head = sampleSigned.head ∧
      (sampleNetwork held w).clock.toInt + sampleSigned.head.head.freshSecs.toNat < at_.toInt := by
  obtain ⟨held, hread, hsigned⟩ := read_policyText "policy.json"
    (c := ⟨sampleNewer, Policy.parsed_signed parsed_samplePolicy⟩) verify_sampleNewer
  obtain ⟨w, hat, hready⟩ := exists_word_sample
  obtain ⟨m, hrun, hwords, hsent⟩ := run_sampleWait held hready
  obtain ⟨hunforged, hcoll⟩ := presented_sampleWait hwords hsent
  have hnewer : sampleSigned.head.head.version < held.version := by
    rw [Held.version, hsigned]
    decide
  have hlate : (5 : Int64).toInt + sampleSigned.head.head.freshSecs.toNat < (2000 : Int64).toInt := by
    decide
  exact ⟨held, w, m, starts_sampleNetwork hread hat, fun d hd => List.mem_singleton.mp hd, hnewer,
    hrun, hunforged, hcoll, sampleGrounds w, 2000, by simp [hsent], rfl, hlate⟩

end Network

end Sample

end Wires
