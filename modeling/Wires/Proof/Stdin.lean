import Wires.Proof.Release

/-!
# When stdin flows

A call's stdin goes to a host once its proof checked out and its ack was
accepted. A host whose proof showed a newer policy than the caller's view is
sent stdin with its assignment verified under a policy that new exactly when
the caller waited for the proof before it spoke, or the host's ack names a
version no lower than the proof's (`stdin_after_newer`): a caller that spoke at
once leaves a newer head to the ack, and the ack's check believes the version
the ack claims (`not_stdin_verified`).
-/

namespace Wires

section

variable [Crypto] {root : NodeId}

/-! ## What a session knows -/

/-- What holds between a caller and the grounds it is about to speak on, or spoke on: they have its
view; on the cached path that is the view it opened the stream with, and after a check it is at the
version shown, and lists the host. -/
structure Grounds.Fits (on : Grounds root) (v : Vouching root) (scope : Scope) (host : NodeId) :
    Prop where
  view : v.held.view = on.held.view
  cached : on.shown = none → on.held = on.before
  shown : ∀ proof, on.shown = some proof →
    proof.head.head.version = on.held.version ∧ scope.Lists on.held.view host

/-- A session with a host whose proof checked out. -/
structure Grounds.Confirmed (on : Grounds root) (proof : HostProof) : Prop where
  shown : ∀ p, on.shown = some p → p = proof
  newer : on.shown = none → on.before.version < proof.head.head.version →
    proof.head.verify root = .ok ()

/-- What each stage of opening a stream knows. -/
def Opening.Knows (v : Vouching root) (scope : Scope) (host : NodeId) : Opening root → Prop
  | .greets on => on.Fits v scope host
  | .requests on => on.Fits v scope host
  | .waits (some on) => on.Fits v scope host ∧ on.shown = none
  | .spoken on proof => on.Fits v scope host ∧ on.Confirmed proof
  | _ => True

theorem Opening.knows_step {errand : Errand} {idToken : IdToken} {host : NodeId}
    {t t' : Talk root} {o o' : Opening root} {e : SpeakEvent root} {scope : Scope}
    (hscope : t.vouch.scope = scope) (ho : o.Knows t.vouch scope host)
    (hm : Moves errand idToken host t o e t' o') :
    t'.vouch.scope = scope ∧ o'.Knows t'.vouch scope host := by
  cases hm with
  | ready hready =>
    exact ⟨hscope, rfl, fun _ => rfl, fun _ h => absurd h (by simp)⟩
  | unready => exact ⟨hscope, trivial⟩
  | opened hnext =>
    refine ⟨hscope, ?_⟩
    rcases hnext with rfl | ⟨why, rfl⟩ <;> trivial
  | greeted hnext =>
    refine ⟨hscope, ?_⟩
    rcases hnext with rfl | ⟨why, rfl⟩
    · exact ho
    · trivial
  | requested hnext =>
    have hfits : Grounds.Fits _ t.vouch scope host := ho
    refine ⟨hscope, ?_⟩
    rcases hnext with ⟨hnone, rfl⟩ | ⟨proof, hsome, rfl⟩ | ⟨why, rfl⟩
    · exact ⟨hfits, hnone⟩
    · refine ⟨hfits, fun p hp => ?_, fun hnone => ?_⟩
      · exact Option.some.inj (hp.symm.trans hsome)
      · rw [hsome] at hnone
        cases hnone
    · trivial
  | refused => exact ⟨hscope, trivial⟩
  | failed hcheck => exact ⟨(Vouching.check_eq_error hcheck).1.trans hscope, trivial⟩
  | @checked proof now refreshed v hcheck =>
    obtain ⟨⟨hsame, -⟩, -, hlists, -⟩ := Vouching.checkBefore_eq_ok hcheck
    obtain ⟨-, -, hversion, -⟩ := cleared_of_check hcheck t.vouch.held
    refine ⟨hsame.trans hscope, rfl, fun h => absurd h (by simp), fun p hp => ?_⟩
    obtain rfl := Option.some.inj hp
    rw [hscope] at hlists
    exact ⟨hversion, hlists⟩
  | @confirmed on proof now refreshed v hcheck =>
    obtain ⟨⟨hsame, -⟩, hview, hnewer⟩ := Vouching.checkAfter_eq_ok hcheck
    obtain ⟨⟨hfits, hcached, hshown⟩, hnone⟩ := ho
    refine ⟨hsame.trans hscope, ⟨hview.trans hfits, hcached, hshown⟩, fun p hp => ?_, fun _ hlt => ?_⟩
    · rw [hnone] at hp
      cases hp
    · refine hnewer ?_
      rw [Vouching.version, HeldView.version, hfits, hcached hnone]
      exact hlt

/-- What each stage of a call knows. -/
def CallStage.Knows (service : ServiceName) (v : Vouching root) (scope : Scope) :
    CallStage root → Prop
  | .speaking _ host opening => opening.Knows v scope host
  | .awaits host on proof => on.Fits v scope host ∧ on.Confirmed proof
  | .bridges host on proof ack => on.Fits v scope host ∧ on.Confirmed proof ∧
      ack.assigns root on.held.version service host = .ok true
  | _ => True

theorem ServiceCall.knows_opened {service : ServiceName} {c : ServiceCall root}
    {targets : List NodeId} {host : NodeId} {t : Talk root} {o : Opening root} {scope : Scope}
    (hscope : t.vouch.scope = scope) (ho : o.Knows t.vouch scope host) :
    (c.opened targets host t o).talk.vouch.scope = scope ∧
      (c.opened targets host t o).stage.Knows service (c.opened targets host t o).talk.vouch
        scope := by
  unfold opened
  split
  · exact ⟨hscope, ho⟩
  · exact ⟨hscope, trivial⟩
  · exact ⟨hscope, trivial⟩
  · exact ⟨hscope, ho⟩

theorem ServiceCall.knows_step {service : ServiceName} {argv : List String} {idToken : IdToken}
    {c c' : ServiceCall root} {e : CallEvent root} {scope : Scope}
    (hc : c.talk.vouch.scope = scope ∧ c.stage.Knows service c.talk.vouch scope)
    (hs : c.step service argv idToken e = some c') :
    c'.talk.vouch.scope = scope ∧ c'.stage.Knows service c'.talk.vouch scope := by
  obtain ⟨hscope, hstage⟩ := hc
  cases e with
  | connect peer =>
    simp only [step] at hs
    split at hs
    · cases hs
      exact ⟨hscope, trivial⟩
    · split at hs <;> cases hs <;> exact ⟨hscope, trivial⟩
    · cases hs
  | speak e =>
    simp only [step] at hs
    split at hs
    · rename_i targets host opening hspeaking
      obtain ⟨⟨t', o'⟩, hstep, rfl⟩ := Option.map_eq_some_iff.mp hs
      rw [hspeaking] at hstage
      obtain ⟨hscope', ho'⟩ := Opening.knows_step hscope hstage (Opening.moves_of_step hstep)
      exact knows_opened hscope' ho'
    · cases hs
  | answer a =>
    simp only [step] at hs
    split at hs
    · rename_i host on proof hawaits
      cases hs
      rw [hawaits] at hstage
      obtain ⟨hfits, hconfirmed⟩ := hstage
      refine ⟨hscope, ?_⟩
      show (c.answered service host on proof a).Knows service c.talk.vouch scope
      unfold answered
      split
      · split
        · rename_i hack
          have hassigns := acceptAck_eq_ok.mp hack
          rw [Vouching.version, HeldView.version, hfits.view] at hassigns
          exact ⟨hfits, hconfirmed, hassigns⟩
        · trivial
      all_goals trivial
    · cases hs
  | stdin chunk =>
    simp only [step] at hs
    split at hs
    · cases hs
      exact ⟨hscope, hstage⟩
    · cases hs
  | ends result =>
    simp only [step] at hs
    split at hs
    · cases hs
      exact ⟨hscope, trivial⟩
    · cases hs

/-! ## What was verified -/

/-- By the time its ack was accepted, the caller had verified, under a head of at least `version`,
an entry of the service that lists the host: in its view, or in the ack, whose head and entry are
looked at only when the version it claims is above the view's. -/
def VerifiedAt (service : ServiceName) (host : NodeId) (version : StateVersion)
    (on : Grounds root) (ack : HelloAck) : Prop :=
  (version ≤ on.held.version ∧
    ∃ e ∈ on.held.view.entries, e.verify root = .ok () ∧ e.Lists service host) ∨
  (on.held.version < ack.stateVersion ∧ ∃ head e, ack.head = some head ∧ ack.entry = some e ∧
    head.verify root = .ok () ∧ version ≤ head.head.version ∧
    checkEntryVersion e head = .ok () ∧ e.verify root = .ok () ∧ e.Lists service host)

theorem verifiedAt_iff {service : ServiceName} {v : Vouching root} {host : NodeId}
    {on : Grounds root} {proof : HostProof} {ack : HelloAck}
    (hfits : on.Fits v (.service service) host) (hconfirmed : on.Confirmed proof)
    (hassigns : ack.assigns root on.held.version service host = .ok true)
    (hlt : on.before.version < proof.head.head.version) :
    VerifiedAt service host proof.head.head.version on ack ↔
      on.shown ≠ none ∨ proof.head.head.version ≤ ack.stateVersion := by
  cases hs : on.shown with
  | some p =>
    obtain rfl := hconfirmed.shown p hs
    obtain ⟨hversion, hlists⟩ := hfits.shown p hs
    obtain ⟨e, he, hv, hhost, hname⟩ := hlists.exists_mem
    have hverified : VerifiedAt service host p.head.head.version on ack :=
      .inl ⟨hversion.le, e, he, hv, hname service rfl, hhost⟩
    simp [hverified]
  | none =>
    have hheld : on.held.version < proof.head.head.version := by
      rw [hfits.cached hs]
      exact hlt
    simp only [ne_eq, not_true_eq_false, false_or]
    constructor
    · rintro (⟨hle, -⟩ | ⟨hnewer, head, e, hhead, hentry, -, hle, -⟩)
      · exact absurd hheld (not_lt.mpr hle)
      · rcases HelloAck.assigns_eq_ok_true.mp hassigns with hold | ⟨-, head', e', hhead', -, -, hv, -⟩
        · exact absurd hnewer (not_lt.mpr hold)
        · obtain rfl : head = head' := Option.some.inj (hhead.symm.trans hhead')
          exact hv ▸ hle
    · intro hle
      rcases HelloAck.assigns_eq_ok_true.mp hassigns with hold | ⟨hnewer, hverified⟩
      · exact absurd (hheld.trans_le (hle.trans hold)) (lt_irrefl _)
      · obtain ⟨head, e, hhead, hentry, hv, hversion, hname, hcheck, hev, hhost⟩ := hverified
        exact .inr ⟨hnewer, head, e, hhead, hentry, hv, hversion ▸ hle, hcheck, hev, hname, hhost⟩

/-- **When a newer policy's host is sent stdin.** In every run of a call of a service, stdin goes to
a host after its ack was accepted; and where the host's proof showed a head, signed by the root, that
is newer than the view the caller opened the stream with, the caller had verified the host's
assignment under a head that new exactly if it waited for the proof before it spoke, or the ack claims
a version no lower than that head's. -/
theorem stdin_after_newer (vouch : Vouching root) (service : ServiceName)
    (hscope : vouch.scope = .service service) (argv : List String) (idToken : IdToken)
    (targets : List NodeId) (es : List (CallEvent root)) (c c' : ServiceCall root)
    (chunk : List UInt8)
    (hrun : run (ServiceCall.step service argv idToken) (.start vouch targets) es = some c)
    (hstdin : c.step service argv idToken (.stdin chunk) = some c') :
    ∃ host on proof ack, c.stage = .bridges host on proof ack ∧
      c'.talk.sent = .stdin host chunk :: c.talk.sent ∧
      (proof.head.verify root = .ok () → on.before.version < proof.head.head.version →
        (VerifiedAt service host proof.head.head.version on ack ↔
          on.shown ≠ none ∨ proof.head.head.version ≤ ack.stateVersion)) := by
  have hknows := run_invariant (P := fun c : ServiceCall root =>
    c.talk.vouch.scope = .service service ∧ c.stage.Knows service c.talk.vouch (.service service))
    (fun _ _ _ hc hs => ServiceCall.knows_step hc hs) (s := .start vouch targets)
    ⟨hscope, trivial⟩ hrun
  simp only [ServiceCall.step] at hstdin
  split at hstdin
  · rename_i host on proof ack hbridges
    cases hstdin
    have hstage := hknows.2
    rw [hbridges] at hstage
    obtain ⟨hfits, hconfirmed, hassigns⟩ := hstage
    exact ⟨host, on, proof, ack, hbridges, rfl, fun _ hlt =>
      verifiedAt_iff hfits hconfirmed hassigns hlt⟩
  · cases hstdin

/-! ## A host that claims an old version -/

/-- A caller that spoke at once, is shown a newer head, and gets an ack that claims `version`. -/
def claims (host : NodeId) (now : Int64) (head : SignedPolicyHead) (version : StateVersion) :
    List (CallEvent root) :=
  speaksAtOnce host now ++
    [.speak (.first (.proof ⟨head, []⟩) now .timedOut), .answer (.helloAck ⟨version, none, none⟩)]

/-- On the cached path an ack at no newer version than the view's is enough, whatever head the
host's proof showed. -/
theorem run_claims {vouch : Vouching root} {host : NodeId} {now : Int64} {head : SignedPolicyHead}
    {version : StateVersion} (hready : vouch.ready host now = true)
    (hhead : head.verify root = .ok ()) (hnewer : vouch.version < head.head.version)
    (hversion : version ≤ vouch.version) (service : ServiceName) (argv : List String)
    (idToken : IdToken) :
    ∃ c, run (ServiceCall.step service argv idToken) (.start vouch [host])
        (claims host now head version) = some c ∧
      c.stage = .bridges host ⟨vouch.held, now, vouch.held, none⟩ ⟨head, []⟩ ⟨version, none, none⟩ := by
  have hack : acceptAck root vouch.version service host ⟨version, none, none⟩ = .ok () :=
    acceptAck_eq_ok.mpr (HelloAck.assigns_eq_ok_true.mpr (.inl hversion))
  have hcheck : vouch.checkAfter host ⟨head, []⟩ now = .ok vouch := by
    simp only [Vouching.checkAfter, gt_iff_lt, hnewer, if_true, hhead]
    rfl
  have hrest : ∀ sent : List (Sent root), ∃ c, run (ServiceCall.step service argv idToken)
      ⟨⟨vouch, sent⟩, [], 0, .speaking [] host (.waits (some ⟨vouch.held, now, vouch.held, none⟩))⟩
      [.speak (.first (.proof ⟨head, []⟩) now .timedOut),
        .answer (.helloAck ⟨version, none, none⟩)] = some c ∧
      c.stage = .bridges host ⟨vouch.held, now, vouch.held, none⟩ ⟨head, []⟩
        ⟨version, none, none⟩ := by
    intro sent
    simp [run, ServiceCall.step, Opening.step, Opening.heard, Vouching.check, hcheck,
      ServiceCall.opened, ServiceCall.answered, hack]
  obtain ⟨c, hc, hstage⟩ := hrest [.invoke host service argv,
    .hello host (some vouch.version) idToken ⟨vouch.held, now, vouch.held, none⟩ now]
  exact ⟨c, run_append.mpr ⟨_, run_speaksAtOnce hready service argv idToken, hc⟩, hstage⟩

end

section Sample

attribute [local instance] Crypto.plain

/-- A caller at version 1 that spoke at once to node 2, which showed version 2's head and claims
version 1, sends it stdin. -/
theorem exists_claims_sample : ∃ (w : VerifiedFresh) (c c' : ServiceCall (nodeId sampleRoot)),
    run (ServiceCall.step sampleName [] "token") (.start (sampleVouching ⟨[w]⟩) [sampleNode 2])
      (claims (sampleNode 2) 5 sampleEdited.head 1) = some c ∧
    c.stage = .bridges (sampleNode 2)
      ⟨sampleHeld ⟨[w]⟩, 5, sampleHeld ⟨[w]⟩, none⟩ ⟨sampleEdited.head, []⟩ ⟨1, none, none⟩ ∧
    c.step sampleName [] "token" (.stdin [1]) = some c' := by
  obtain ⟨w, hready⟩ := exists_ready_sample
  have hhead := (SignedPolicy.verify_eq_ok.mp (edits_sample.verify sampleEdited (by simp))).1
  obtain ⟨c, hrun, hstage⟩ := run_claims hready hhead (show (1 : UInt64) < 2 by decide)
    (show (1 : UInt64) ≤ 1 by decide) sampleName [] "token"
  refine ⟨w, c, { c with talk := c.talk.send (.stdin (sampleNode 2) [1]) }, hrun, hstage, ?_⟩
  simp only [ServiceCall.step, hstage]

theorem stdin_after_newer_sample : ∃ (c : ServiceCall (nodeId sampleRoot)) (host : NodeId)
    (on : Grounds (nodeId sampleRoot)) (proof : HostProof) (ack : HelloAck),
    c.stage = .bridges host on proof ack ∧ (proof.head.verify (nodeId sampleRoot) = .ok () →
      on.before.version < proof.head.head.version →
      (VerifiedAt sampleName host proof.head.head.version on ack ↔
        on.shown ≠ none ∨ proof.head.head.version ≤ ack.stateVersion)) := by
  obtain ⟨w, c, c', hrun, -, hstep⟩ := exists_claims_sample
  obtain ⟨host, on, proof, ack, hstage, -, hiff⟩ := stdin_after_newer (sampleVouching ⟨[w]⟩)
    sampleName rfl [] "token" [sampleNode 2] _ c c' [1] hrun hstep
  exact ⟨c, host, on, proof, ack, hstage, hiff⟩

/-- Nothing was verified under version 2. -/
theorem not_stdin_verified : ∃ (fresh : FreshSet) (c c' : ServiceCall (nodeId sampleRoot))
    (es : List (CallEvent (nodeId sampleRoot))) (on : Grounds (nodeId sampleRoot))
    (proof : HostProof) (ack : HelloAck),
    run (ServiceCall.step sampleName [] "token") (.start (sampleVouching fresh) [sampleNode 2]) es =
      some c ∧ c.stage = .bridges (sampleNode 2) on proof ack ∧
    c.step sampleName [] "token" (.stdin [1]) = some c' ∧
    proof.head.verify (nodeId sampleRoot) = .ok () ∧
    on.before.version < proof.head.head.version ∧
    ¬VerifiedAt sampleName (sampleNode 2) proof.head.head.version on ack := by
  obtain ⟨w, c, c', hrun, hstage, hstep⟩ := exists_claims_sample
  have hhead := (SignedPolicy.verify_eq_ok.mp (edits_sample.verify sampleEdited (by simp))).1
  refine ⟨⟨[w]⟩, c, c', _, _, _, _, hrun, hstage, hstep, hhead,
    show (1 : UInt64) < 2 by decide, ?_⟩
  rintro (⟨hle, -⟩ | ⟨hlt, -⟩)
  · exact absurd hle (show ¬(2 : UInt64) ≤ 1 by decide)
  · exact absurd hlt (show ¬(1 : UInt64) < 1 by decide)

end Sample

end Wires
