import Wires.Impl.Call
import Wires.Proof.Signing

/-!
# A refusal says nothing of what a caller may not call

What a caller is told of a service it may not call is computed from the token's
verdict, whether the caller is admitted, and the policy's version and expiry
(`answerCall_of_not_callable`). Two policies that agree on these therefore
refuse it in the same words, whatever else they hold.
-/

namespace Wires

namespace ServicesHost

section

variable [Crypto] {root : NodeId} (host : ServicesHost)
  (issuerOf : IdToken → Except String Issuer) (keys : Keys)

/-- The services a policy lets a caller call, as the person its token verifies as. -/
def callable (state : Held root) (caller : NodeId) (token : IdToken) (now : Int64) :
    Set ServiceName :=
  {service | ∃ who, host.verdict issuerOf keys state caller token now = .ok who ∧
    checkAdmitted state.policy caller who = .ok () ∧
    ∃ role, authorize state.policy caller (some who) service = .ok role}

/-- Two policies of one version and expiry that trust the same issuers, admit the same people, and
let a caller call the same services. -/
structure Alike (caller : NodeId) (token : IdToken) (now : Int64) (s t : Held root) : Prop where
  version : s.version = t.version
  expiry : s.signed.head.head.notAfter = t.signed.head.head.notAfter
  issuers : s.policy.issuers = t.policy.issuers
  admitted : ∀ node who,
    checkAdmitted s.policy node who = .ok () ↔ checkAdmitted t.policy node who = .ok ()
  callable : host.callable issuerOf keys s caller token now =
    host.callable issuerOf keys t caller token now

/-- What a caller is told of a service it may not call, from the policy's version and expiry, the
token's verdict and whether the policy admits the person. -/
def refusal (version : StateVersion) (notAfter : Int64) (verdict : Except VerifyError Principal)
    (admits : Principal → Bool) (service : ServiceName) (now : Int64) : String :=
  match verdict with
  | .error (.expired _) => SIGN_IN_EXPIRED
  | .error (.unavailable _) => IDP_UNREACHABLE
  | .error _ => NOT_ADMITTED
  | .ok who =>
    if admits who = false then NOT_ADMITTED
    else if notAfter < now then
      (GateRefusal.stale version (Error.display (.expired notAfter))).display
    else notCallable service

variable {host issuerOf keys}

/-- An admitted caller that may not call a service is told that the policy is stale, or the one
sentence about the service. -/
theorem decide_of_unauthorized {state : Held root} {caller : NodeId} {verified : Verified}
    {service : ServiceName} {now : Int64}
    (hadmitted : checkAdmitted state.policy caller verified.principal = .ok ())
    (hnot : ¬∃ role, authorize state.policy caller (some verified.principal) service = .ok role) :
    host.decide state caller verified service now = .error (
      if state.signed.head.head.notAfter < now then
        (GateRefusal.stale state.version
          (Error.display (.expired state.signed.head.head.notAfter))).display
      else notCallable service) := by
  obtain ⟨hnode, -, hperson, -⟩ := checkAdmitted_eq_ok.mp hadmitted
  unfold decide admitCall
  dsimp only
  rw [hadmitted]
  by_cases hexpired : state.signed.head.head.notAfter < now
  · have hstale : state.checkFresh now = .error (.expired state.signed.head.head.notAfter) := by
      simp [Held.checkFresh, SignedPolicyHead.checkFresh, hexpired]
    rw [hstale, if_pos hexpired]
    rfl
  · have hfresh : state.checkFresh now = .ok () := by
      simp [Held.checkFresh, SignedPolicyHead.checkFresh, hexpired]
    rw [hfresh, if_neg hexpired]
    -- A ban would have refused the caller admission.
    cases hauth : authorize state.policy caller (some verified.principal) service with
    | ok role => exact absurd ⟨role, hauth⟩ hnot
    | error r =>
      have hban : r ≠ .banned := by
        rintro rfl
        simp [authorize, bind_eq_error, orError_eq_error, hnode, hperson] at hauth
      cases r with
      | banned => exact absurd rfl hban
      | unknownService s => rfl
      | nobodyAllowed s => rfl
      | notInRole s allow p => rfl

/-- What a caller is told of a service it may not call. -/
theorem answerCall_of_not_callable {state : Held root} {caller : NodeId} {token : IdToken}
    {service : ServiceName} {now : Int64}
    (h : service ∉ host.callable issuerOf keys state caller token now) :
    host.answerCall issuerOf keys state caller token service now = .error (truncateReason
      (refusal state.version state.signed.head.head.notAfter
        (host.verdict issuerOf keys state caller token now)
        (fun who => isOk (checkAdmitted state.policy caller who)) service now)) := by
  unfold answerCall
  cases hv : host.verdict issuerOf keys state caller token now with
  | error e => cases e <;> rfl
  | ok who =>
    cases hc : checkAdmitted state.policy caller who with
    | error e =>
      have hcaller : admitCaller state caller token (.ok who) =
          .error ⟨NOT_ADMITTED, Decidable.decide (e = .banned)⟩ := by simp only [admitCaller, hc]
      rw [hcaller]
      simp [refusal, hc, mapErr, isOk]
    | ok u =>
      have hcaller : admitCaller state caller token (.ok who) = .ok ⟨token, who⟩ := by
        simp only [admitCaller, hc]
      have hnot : ¬∃ role, authorize state.policy caller (some who) service = .ok role :=
        fun hr => h ⟨who, hv, hc, hr⟩
      have hdecide := @decide_of_unauthorized _ _ host state caller ⟨token, who⟩ service now hc hnot
      rw [hcaller]
      simp [refusal, hc, mapErr, isOk, hdecide]

/-- Two policies that are alike to a caller refuse what it may not call in the same words. -/
theorem refusals_alike {caller : NodeId} {token : IdToken} {now : Int64} {s t : Held root}
    (h : host.Alike issuerOf keys caller token now s t) {service : ServiceName}
    (hs : service ∉ host.callable issuerOf keys s caller token now) :
    ∃ text, host.answerCall issuerOf keys s caller token service now = .error text ∧
      host.answerCall issuerOf keys t caller token service now = .error text := by
  have ht : service ∉ host.callable issuerOf keys t caller token now := h.callable ▸ hs
  have hverdict : host.verdict issuerOf keys s caller token now =
      host.verdict issuerOf keys t caller token now := by
    unfold verdict HostConfig.trust
    rw [h.issuers]
  have hadmits : (fun who => isOk (checkAdmitted s.policy caller who)) =
      fun who => isOk (checkAdmitted t.policy caller who) := by
    funext who
    rw [Bool.eq_iff_iff, isOk_unit_iff, isOk_unit_iff]
    exact h.admitted caller who
  rw [answerCall_of_not_callable hs, answerCall_of_not_callable ht, h.version, h.expiry, hverdict,
    hadmits]
  exact ⟨_, rfl, rfl⟩

end

/-! ## A service that is there, and one that is not -/

section Sample

attribute [local instance] Crypto.plain

def analystRole : RoleName := ⟨"analyst", by decide⟩

/-- Whoever the issuer verified is staff, and there is no service. -/
def quietPolicy : Policy :=
  { samplePolicy 1 [] with
    roles := ⟨[(sampleRole, [.new "idp"])], by simp⟩
    services := ⟨[], by simp⟩
    issuers := ⟨[("idp", ⟨"cli", ["cli"]⟩)], by simp⟩ }

/-- Besides, Alice is an analyst, and analysts may call a service. -/
def loudPolicy : Policy :=
  { quietPolicy with
    roles := ⟨[(analystRole, [⟨"idp", some (.exact "alice@x"), none, none⟩]),
      (sampleRole, [.new "idp"])], by decide⟩
    services := ⟨[(sampleName, ⟨"orders", [analystRole], [sampleNode 2]⟩)], by simp⟩ }

theorem validate_quietPolicy : quietPolicy.validate = .ok () := by decide

theorem validate_loudPolicy : loudPolicy.validate = .ok () := by decide

def quietHeld : Held (nodeId sampleRoot) :=
  ⟨quietPolicy.signed sampleRoot none, quietPolicy,
    Policy.verify_signed_none rfl validate_quietPolicy, Policy.toPolicy_signed rfl⟩

def loudHeld : Held (nodeId sampleRoot) :=
  ⟨loudPolicy.signed sampleRoot none, loudPolicy,
    Policy.verify_signed_none rfl validate_loudPolicy, Policy.toPolicy_signed rfl⟩

def bob : Principal := ⟨"idp", "bob", some "bob@x", none, [], 100⟩

theorem checkAdmitted_quiet_iff (node : NodeId) (who : Principal) :
    checkAdmitted quietPolicy node who = .ok () ↔ checkAdmitted loudPolicy node who = .ok () := by
  simp only [checkAdmitted_eq_ok]
  refine and_congr Iff.rfl (and_congr Iff.rfl (and_congr Iff.rfl ?_))
  simp only [Policy.anyRoleAdmits, quietPolicy, loudPolicy, SortedMap.values, List.map_cons,
    List.map_nil, List.any_cons, List.any_nil, admits, Matcher.matches, Matcher.new]
  cases who.email with
  | none => simp
  | some email =>
    simp
    exact fun h _ => h

/-- Bob may call neither policy's services. -/
theorem not_authorized_bob {p : Policy} (hp : p = quietPolicy ∨ p = loudPolicy)
    {service : ServiceName} {role : RoleName} :
    authorize p (sampleNode 4) (some bob) service ≠ .ok role := by
  intro h
  obtain ⟨-, -, svc, hsvc, hfind⟩ := authorize_eq_ok.mp h
  have hmem := SortedMap.get?_eq_some_iff.mp hsvc
  rcases hp with rfl | rfl
  · exact absurd hmem List.not_mem_nil
  · obtain rfl := (Prod.mk.inj (List.mem_singleton.mp hmem)).2
    have hbob : loudPolicy.roleAdmits analystRole (some bob) = false := by decide
    simp [hbob] at hfind

def sampleHost : ServicesHost := ⟨sampleNode 2, ⟨none, ∅⟩, []⟩

/-- The keys verify every token as Bob's. -/
def bobsKeys : Keys := fun _ _ _ _ => .ok bob

theorem callable_bob {s : Held (nodeId sampleRoot)}
    (hs : s.policy = quietPolicy ∨ s.policy = loudPolicy) (token : IdToken) (now : Int64) :
    sampleHost.callable .ok bobsKeys s (sampleNode 4) token now = ∅ := by
  refine Set.eq_empty_iff_forall_notMem.mpr fun service => ?_
  rintro ⟨who, hwho, -, role, hrole⟩
  obtain rfl : bob = who := by
    have hkeys := (bind_eq_ok.mp hwho).choose_spec.2
    obtain ⟨-, hkeys⟩ := (bind_eq_ok.mp hkeys).choose_spec
    exact Except.ok.inj hkeys
  exact not_authorized_bob hs hrole

theorem alike_bob :
    sampleHost.Alike .ok bobsKeys (sampleNode 4) "idp" 5 quietHeld loudHeld where
  version := by
    have hquiet : quietHeld.version = 1 := rfl
    have hloud : loudHeld.version = 1 := rfl
    rw [hquiet, hloud]
  expiry := by
    have hquiet : quietHeld.signed.head.head.notAfter = 10000 := rfl
    have hloud : loudHeld.signed.head.head.notAfter = 10000 := rfl
    rw [hquiet, hloud]
  issuers := rfl
  admitted := checkAdmitted_quiet_iff
  callable := by rw [callable_bob (.inl rfl), callable_bob (.inr rfl)]

/-- Bob is told the same of `db` where it is for analysts and where there is no such service. -/
theorem refusals_alike_sample : ∃ text,
    sampleHost.answerCall .ok bobsKeys quietHeld (sampleNode 4) "idp" sampleName 5 = .error text ∧
      sampleHost.answerCall .ok bobsKeys loudHeld (sampleNode 4) "idp" sampleName 5 =
        .error text := by
  have hout : sampleName ∉ sampleHost.callable .ok bobsKeys quietHeld (sampleNode 4) "idp" 5 := by
    rw [callable_bob (.inl rfl)]
    exact Set.notMem_empty sampleName
  exact refusals_alike alike_bob hout

end Sample

end ServicesHost

end Wires
