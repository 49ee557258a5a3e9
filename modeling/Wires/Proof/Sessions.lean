import Wires.Proof.Host

/-!
# Which issuers a session's token is verified under

A host's trusted issuers are shared: `policy` sets them to those of the policy
it read, and a session verifies its caller's token later, against whatever they
are then. So a session decides under its own policy with the issuers of another
one when a second session's `policy` answers in between
(`not_own_trust`). `own_trust` says when that cannot be: no `policy` answers
with other issuers while some session waits for its caller's token.
-/

namespace Wires

section

variable [Crypto] {root : NodeId}

/-- The policy a session decides under, and the issuers its token was verified against. -/
def Task.against : Task root → Option (Held root × IdpTrust)
  | .verified s t _ _ | .decided s t _ _ => some (s, t)
  | _ => none

namespace Host

variable {ι : Type} [DecidableEq ι] {path : String} {config : HostConfig} {me : NodeId}
  {issuerOf : IdToken → Except String Issuer} {h h' : Host root ι} {e : HostEvent ι}

/-- An event that sets the trusted issuers sets the ones every session that waits for its
caller's token trusts. -/
def Steady (config : HostConfig) (h : Host root ι) (e : HostEvent ι) : Prop :=
  ∀ i s, e = .publish i → h.tasks i = .publishes s →
    ∀ j t, h.tasks j = .holds t → config.trust s.policy = config.trust t.policy

/-- The issuers are those of every session that waits for its caller's token, and each token was
verified against those of its session's policy. -/
structure OwnTrust (config : HostConfig) (h : Host root ι) : Prop where
  waiting : ∀ i s, h.tasks i = .holds s → h.trust = config.trust s.policy
  verified : ∀ i s t, (h.tasks i).against = some (s, t) → t = config.trust s.policy

/-- A task comes to a stage with no policy to verify under. -/
theorem OwnTrust.goes (ho : OwnTrust config h) {i : ι} {task : Task root} {mark : StateVersion}
    (hw : ∀ s, task ≠ .holds s) (hv : ∀ s t, task.against = some (s, t) → t = config.trust s.policy) :
    OwnTrust config { h.goes i task with highWater := mark } where
  waiting := fun j s hj => by
    replace hj : (h.goes i task).tasks j = .holds s := hj
    rw [tasks_goes] at hj
    split_ifs at hj
    · exact absurd hj (hw s)
    · exact ho.waiting j s hj
  verified := fun j s t hj => by
    replace hj : ((h.goes i task).tasks j).against = some (s, t) := hj
    rw [tasks_goes] at hj
    split_ifs at hj
    · exact hv s t hj
    · exact ho.verified j s t hj

theorem OwnTrust.step (ho : OwnTrust config h) (hs : Steady config h e)
    (hm : Moves path config me issuerOf h e h') : OwnTrust config h' := by
  cases hm with
  | rewrites => exact ⟨ho.waiting, ho.verified⟩
  | calls | fails | loads | refuses | passes => exact ho.goes nofun nofun
  | @publishes i state hi =>
    refine ⟨fun j s hj => ?_, fun j s t hj => ?_⟩
    · replace hj : (h.goes i (.holds state)).tasks j = .holds s := hj
      rw [tasks_goes] at hj
      split_ifs at hj
      · cases hj
        rfl
      · exact hs i state rfl hi j s hj
    · replace hj : ((h.goes i (.holds state)).tasks j).against = some (s, t) := hj
      rw [tasks_goes] at hj
      split_ifs at hj
      · cases hj
      · exact ho.verified j s t hj
  | verifies hi =>
    refine ho.goes nofun fun s t hst => ?_
    cases hst
    exact ho.waiting _ _ hi
  | decides hi =>
    refine ho.goes nofun fun s t hst => ?_
    cases hst
    exact ho.verified _ _ _ (by rw [hi]; rfl)

theorem step_verify {j : ι} {t : Held root} (hj : h.tasks j = .holds t) (caller : NodeId)
    (token : IdToken) (now : Int64) (keys : Keys) :
    h.step path config me issuerOf (.verify j caller token now keys) =
      some (h.goes j (.verified t h.trust caller
        (admitCaller t caller token (verifyToken issuerOf keys h.trust caller token now)))) := by
  simp only [Host.step, hj]

/-- After a step that is not steady, the session that waits can verify its caller's token against
other issuers than its policy's. -/
theorem exists_not_own (hn : ¬Steady config h e) (hs : h.step path config me issuerOf e = some h') :
    ∃ j t, h.tasks j = .holds t ∧ ∀ caller token now keys, ∃ h'' against,
      h'.step path config me issuerOf (.verify j caller token now keys) = some h'' ∧
      (h''.tasks j).against = some (t, against) ∧ against ≠ config.trust t.policy := by
  simp only [Steady, not_forall] at hn
  obtain ⟨i, s, rfl, hi, j, t, hj, hne⟩ := hn
  refine ⟨j, t, hj, fun caller token now keys => ?_⟩
  have hm := moves_of_step hs
  cases hm with
  | @publishes i state hi' =>
    obtain rfl : state = s := by
      rw [hi'] at hi
      exact Task.publishes.inj hi
    have hj' : ({ h.goes i (.holds state) with trust := config.trust state.policy } :
        Host root ι).tasks j = .holds t := by
      show (h.goes i (.holds state)).tasks j = .holds t
      rw [tasks_goes, if_neg, hj]
      rintro rfl
      rw [hi] at hj
      cases hj
    refine ⟨_, _, step_verify hj' caller token now keys, ?_, hne⟩
    rw [tasks_goes, if_pos rfl]
    rfl

end Host

/-- **A token is verified against the issuers of its session's policy** in a run whose `policy`
calls set no other issuers while a session waits for its caller's token; after one that does, the
session that waits verifies whatever token it is shown against the others. -/
theorem own_trust {ι : Type} [DecidableEq ι] (path : String) (config : HostConfig) (me : NodeId)
    (issuerOf : IdToken → Except String Issuer) (file : PolicyFile) (trust : IdpTrust)
    (es : List (HostEvent ι)) (h : Host root ι)
    (hrun : run (Host.step path config me issuerOf) (.start file trust) es = some h) :
    ((∀ es₁ e es₂ (h₁ : Host root ι), es = es₁ ++ e :: es₂ →
        run (Host.step path config me issuerOf) (.start file trust) es₁ = some h₁ →
        h₁.Steady config e) →
      ∀ i s t, (h.tasks i).against = some (s, t) → t = config.trust s.policy) ∧
    ∀ e h', h.step path config me issuerOf e = some h' → ¬h.Steady config e →
      ∃ j s, h.tasks j = .holds s ∧ ∀ caller token now keys, ∃ h'' t,
        h'.step path config me issuerOf (.verify j caller token now keys) = some h'' ∧
        (h''.tasks j).against = some (s, t) ∧ t ≠ config.trust s.policy := by
  refine ⟨fun hsteady => ?_, fun e h' hs hn => Host.exists_not_own hn hs⟩
  have hstart : Host.OwnTrust config (.start file trust : Host root ι) := ⟨nofun, nofun⟩
  exact (run_invariant_of (P := Host.OwnTrust config) (C := Host.Steady config)
    (fun _ _ _ ho hs hstep => ho.step hs (Host.moves_of_step hstep)) hstart hsteady hrun).verified

end

/-! ## Two sessions -/

section Sample

attribute [local instance] Crypto.plain

/-- A file with such a policy, read. -/
theorem read_idpSigned {version : StateVersion} {audience : Audience}
    (h : (idpSigned version audience).verify (nodeId sampleRoot) = .ok ()) :
    ∃ held : Held (nodeId sampleRoot), held.version = version ∧
      held.policy = idpPolicy version audience ∧
      read "policy.json" (nodeId sampleRoot) (.text (policyText (idpSigned version audience))) =
        .ok (some held) := by
  have hparsed : (idpPolicy version audience).Parsed := by
    simp [Policy.Parsed, idpPolicy, Matcher.Parsed, Matcher.new]
  obtain ⟨held, hread, hs⟩ :=
    read_policyText "policy.json" (c := ⟨_, Policy.parsed_signed hparsed⟩) h
  refine ⟨held, by rw [Held.version, hs]; rfl, ?_, hread⟩
  have htyped : (idpSigned version audience).toPolicy = .ok held.policy := by
    have := held.typed
    rwa [hs] at this
  rw [idpSigned, Policy.toPolicy_signed rfl] at htyped
  exact (Except.ok.inj htyped).symm

/-- Keys that verify a token of one audience. -/
def sampleKeys (audience : Audience) : Keys := fun _ _ audiences _ =>
  if audience ∈ audiences then .ok samplePrincipal else .error (.rejected "audience")

/-- A token of `audience` is admitted under version 1, when it is verified against `audience`. -/
theorem admitCaller_sample {s : Held (nodeId sampleRoot)} (hs : s.policy = idpPolicy 1 "cli")
    (audience : Audience) :
    admitCaller s (sampleNode 4) "token" (verifyToken (fun _ => .ok "idp") (sampleKeys audience)
      ⟨[("idp", [audience])]⟩ (sampleNode 4) "token" 5) = .ok ⟨"token", samplePrincipal⟩ := by
  have hv : verifyToken (fun _ => .ok "idp") (sampleKeys audience) ⟨[("idp", [audience])]⟩
      (sampleNode 4) "token" 5 = .ok samplePrincipal := by
    simp [verifyToken, sampleKeys, IdpTrust.issuers, IdpTrust.audiencesFor, ensure, mapErr]
  have hc : checkAdmitted (idpPolicy 1 "cli") (sampleNode 4) samplePrincipal = .ok () := by decide
  rw [hv, admitCaller, hs, hc]

theorem trust_sample {s : Held (nodeId sampleRoot)} {version : StateVersion} {audience : Audience}
    (hs : s.policy = idpPolicy version audience) :
    HostConfig.trust ⟨none, ∅⟩ s.policy = ⟨[("idp", [audience])]⟩ := by
  rw [hs]
  rfl

/-- One session, which decides a call under version 1. -/
def sampleSession : List (HostEvent Unit) :=
  [.call (), .read (), .mark (), .publish (), .verify () (sampleNode 4) "token" 5 (sampleKeys "cli"),
    .decide () sampleName 5]

theorem run_sampleSession {file : List Char} {s : Held (nodeId sampleRoot)}
    (hs : read "policy.json" (nodeId sampleRoot) (.text file) = .ok (some s))
    (hsp : s.policy = idpPolicy 1 "cli") :
    ∃ (h : Host (nodeId sampleRoot) Unit) (t : IdpTrust),
      run (Host.step "policy.json" ⟨none, ∅⟩ (sampleNode 2) fun _ => .ok "idp")
        (.start (.text file) ⟨[]⟩) sampleSession = some h ∧
      (h.tasks ()).against = some (s, t) := by
  have h0 : ¬s.version < 0 := not_lt.mpr UInt64.zero_le
  simp only [sampleSession, run, Host.step, Host.start, Host.goes, Host.found, Host.weighed, hs,
    h0, if_false, Function.update_self, Option.bind_some, trust_sample hsp,
    admitCaller_sample hsp]
  exact ⟨_, _, rfl, rfl⟩

theorem own_trust_sample : ∃ (h : Host (nodeId sampleRoot) Unit) (s : Held (nodeId sampleRoot)),
    (h.tasks ()).against = some (s, HostConfig.trust ⟨none, ∅⟩ s.policy) := by
  obtain ⟨s, -, hsp, hs⟩ := read_idpSigned verify_idpSigned.1
  obtain ⟨h, t, hrun, hagainst⟩ := run_sampleSession hs hsp
  have hown := (own_trust _ _ _ _ _ _ _ h hrun).1 fun es₁ e es₂ h₁ _ _ i s _ hi j t hj => by
    rw [hi] at hj
    cases hj
  rw [hown () s t hagainst] at hagainst
  exact ⟨h, s, hagainst⟩

/-- Two sessions: the first reads version 1, the second reads version 2 before the first has its
caller's token. -/
def sampleSessions (newer : List Char) : List (HostEvent Bool) :=
  [.call false, .read false, .mark false, .publish false, .rewrite (.text newer), .call true,
    .read true, .mark true, .publish true,
    .verify false (sampleNode 4) "token" 5 (sampleKeys "web"), .decide false sampleName 5]

theorem run_sampleSessions {older newer : List Char} {s t : Held (nodeId sampleRoot)}
    (hs : read "policy.json" (nodeId sampleRoot) (.text older) = .ok (some s))
    (ht : read "policy.json" (nodeId sampleRoot) (.text newer) = .ok (some t))
    (hsv : s.version = 1) (htv : t.version = 2) (hsp : s.policy = idpPolicy 1 "cli")
    (htp : t.policy = idpPolicy 2 "web") :
    ∃ (h : Host (nodeId sampleRoot) Bool) (answer : Except GateRefusal Admitted),
      run (Host.step "policy.json" ⟨none, ∅⟩ (sampleNode 2) fun _ => .ok "idp")
        (.start (.text older) ⟨[]⟩) (sampleSessions newer) = some h ∧
      h.tasks false = .decided s ⟨[("idp", ["web"])]⟩ sampleName answer := by
  have h0 : ¬(1 : StateVersion) < 0 := by decide
  have h1 : ¬(2 : StateVersion) < max 0 1 := by decide
  simp only [sampleSessions, run, Host.step, Host.start, Host.goes, Host.found, Host.weighed, hs,
    ht, hsv, htv, h0, h1, if_false, Function.update_self, Option.bind_some, Function.update_of_ne,
    ne_eq, reduceCtorEq, not_false_eq_true, trust_sample htp, admitCaller_sample hsp]
  exact ⟨_, _, rfl, rfl⟩

/-- The first session's token is one for version 2's audience, and it decides under version 1. -/
theorem not_own_trust : ¬∀ (path : String) (config : HostConfig) (me : NodeId)
    (issuerOf : IdToken → Except String Issuer) (file : PolicyFile) (trust : IdpTrust)
    (es : List (HostEvent Bool)) (h : Host (nodeId sampleRoot) Bool),
    run (Host.step path config me issuerOf) (.start file trust) es = some h →
    ∀ i s t service answer, h.tasks i = .decided s t service answer →
      t = config.trust s.policy := by
  intro hall
  obtain ⟨hv1, hv2⟩ := verify_idpSigned
  obtain ⟨s, hsv, hsp, hs⟩ := read_idpSigned hv1
  obtain ⟨t, htv, htp, ht⟩ := read_idpSigned hv2
  obtain ⟨h, answer, hrun, hdecided⟩ := run_sampleSessions hs ht hsv htv hsp htp
  have := hall _ _ _ _ _ _ _ h hrun false s _ _ answer hdecided
  rw [hsp] at this
  exact absurd this (by decide)

end Sample

end Wires
