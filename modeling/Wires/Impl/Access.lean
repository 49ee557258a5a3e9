import Wires.Impl.SignedPolicy

/-!
# Who may call what

`library/network/admission.rs` (`check_admitted`) and
`library/services/access.rs` (`authorize`), with the texts of the errors and
refusals a host puts in its trace.
-/

namespace Wires

/-- `Error`'s `Display`. -/
def Error.display : Error → String
  | .decode => "decode: "
  | .invalidSignature => "invalid signature"
  | .unsupportedAlgorithm => "unsupported algorithm"
  | .unsupportedVersion => "unsupported version"
  | .expired notAfter => "expired at " ++ toString notAfter
  | .banned => "removed from this network"
  | .noVerifiedEmail => "the sign-in carries no verified email"
  | .noRole => "no role in the policy matches this person"
  | .badFrame => "bad frame"
  | .fabricMismatch => "signing key is not the network root"
  | .invalidServiceName => "invalid service name"
  | .invalidRoleName => "invalid role name (expected 1-64 of [A-Za-z0-9_.-])"
  | .invalidEmailPattern => "invalid email pattern (an address, or `*@domain`)"
  | .invalidArgv => "invalid argv"
  | .invalidPush why => "invalid push: " ++ why
  | .invalidPolicy why => "invalid policy: " ++ why
  | .itemsMismatch => "the items are not the ones the policy head commits to"
  | .notADirectory => "freshness signed by a node that is not a directory"
  | .freshMismatch => "freshness is for another policy head"
  | .freshLapsed => "the freshness has lapsed"
  | .freshTooLong => "the freshness lasts longer than the policy allows"
  | .selfVouched =>
    "the host vouched for its own policy, and the policy lists other directories"
  | .olderHead theirs ours => "the host holds policy version " ++ toString theirs ++
    ", older than this caller's " ++ toString ours
  | .unvouched => "no directory has vouched for this host's policy recently"

/-! ## Admission -/

/-- `check_admitted`. -/
def checkAdmitted (policy : Policy) (caller : NodeId) (principal : Principal) : Result Unit := do
  ensure (¬policy.bansNode caller) .banned
  ensure (principal.email ≠ none) .noVerifiedEmail
  ensure (¬policy.bansPerson principal) .banned
  ensure (policy.anyRoleAdmits principal) .noRole

theorem checkAdmitted_eq_ok {p : Policy} {caller : NodeId} {principal : Principal} {u : Unit} :
    checkAdmitted p caller principal = .ok u ↔ p.bansNode caller = false ∧
      principal.email ≠ none ∧ p.bansPerson principal = false ∧
      p.anyRoleAdmits principal = true := by
  simp [checkAdmitted]

/-! ## Authorization -/

/-- Why `authorize` refused. -/
inductive Refusal where
  | banned
  | unknownService (service : ServiceName)
  | nobodyAllowed (service : ServiceName)
  | notInRole (service : ServiceName) (allow : List RoleName) (principal : Option String)
deriving DecidableEq

/-- `Refusal`'s `Display`. -/
def Refusal.display : Refusal → String
  | .banned => "removed from this network"
  | .unknownService s => "unknown service: " ++ s.name
  | .nobodyAllowed s => "service " ++ s.name ++ " allows no role"
  | .notInRole service allow (some who) => who ++ " is in no role allowed to call " ++
    service.name ++ " (" ++ ", ".intercalate (allow.map (·.name)) ++ ")"
  | .notInRole service allow none => service.name ++ " needs a verified identity in role " ++
    ", ".intercalate (allow.map (·.name)) ++ "; run `wires login`"

/-- `authorize`: nobody banned, the service exists, and the first role of its `allow` that admits
the caller. -/
def authorize (policy : Policy) (caller : NodeId) (principal : Option Principal)
    (service : ServiceName) : Except Refusal RoleName := do
  ensure (¬(policy.bansNode caller = true ∨ principal.any policy.bansPerson = true)) .banned
  let svc ← orError (policy.services.get? service) (.unknownService service)
  ensure (svc.allow ≠ []) (.nobodyAllowed service)
  orError (svc.allow.find? fun role => policy.roleAdmits role principal)
    (.notInRole service svc.allow (principal.map fun p => p.email.getD p.subject))

theorem authorize_eq_ok {p : Policy} {caller : NodeId} {principal : Option Principal}
    {service : ServiceName} {role : RoleName} :
    authorize p caller principal service = .ok role ↔ p.bansNode caller = false ∧
      principal.any p.bansPerson = false ∧ ∃ svc, p.services.get? service = some svc ∧
        svc.allow.find? (fun r => p.roleAdmits r principal) = some role := by
  simp only [authorize, bind_eq_ok, ensure_eq_ok, orError_eq_ok, exists_const, not_or,
    Bool.not_eq_true, and_assoc]
  refine and_congr_right fun _ => and_congr_right fun _ => exists_congr fun svc =>
    and_congr_right fun _ => ⟨fun h => h.2, fun h => ⟨fun he => ?_, h⟩⟩
  rw [he] at h
  cases h

end Wires
