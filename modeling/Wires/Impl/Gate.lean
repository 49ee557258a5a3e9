import Wires.Impl.Store

/-!
# The host's gate

The part of `host.json` (`wires/host/config.rs`) a decision reads, and `admit`
of `wires/host/gate.rs`: the checks a host runs on a call, in order, the first
failure being the refusal the caller hears.
-/

namespace Wires

/-! ## `host.json` -/

/-- How one service runs on this host: what a decision reads of it. -/
structure ServiceImpl where
  alsoRequire : List RoleName
deriving DecidableEq

/-- One identity provider a host keeps trusting. -/
structure TrustedIssuer where
  issuer : String
  audiences : List String
deriving DecidableEq

/-- `host.json`, as far as deciding a call reads it: `identity` narrows the issuers the policy
trusts, and a service may ask for more roles. -/
structure HostConfig where
  identity : Option (List TrustedIssuer)
  services : SortedMap ServiceName ServiceImpl
deriving DecidableEq

/-- `validate_fields`, of the issuers: each is named once, and nothing is blank. -/
def validateIssuers : List Issuer → List TrustedIssuer → Except Anyhow Unit
  | _, [] => .ok ()
  | issuers, trusted :: rest => do
    let iss := trusted.issuer
    ensure (¬isBlank iss) ["identity.issuers: an issuer is empty"]
    ensure (iss ∉ issuers) ["identity.issuers: " ++ iss ++ " is listed twice"]
    ensure (¬trusted.audiences.any isBlank) ["identity.issuers: " ++ iss ++ " lists an empty audience"]
    validateIssuers (issuers ++ [iss]) rest

/-- `HostConfig::validate_fields`, of `identity`. -/
def HostConfig.validateIdentity (config : HostConfig) : Except Anyhow Unit :=
  validateIssuers [] (config.identity.getD [])

/-- `IdpTrust`: the issuers whose tokens are verified, each with the audiences accepted from it. -/
structure IdpTrust where
  byIssuer : List (Issuer × List Audience)
deriving DecidableEq

/-- `HostConfig::trust`: the policy's issuers, narrowed by `identity` when it is present. -/
def HostConfig.trust (config : HostConfig) (policy : Policy) : IdpTrust :=
  let signed := policy.issuers.entries.map fun e => (e.1, e.2.audiences)
  match config.identity with
  | none => ⟨signed⟩
  | some issuers => ⟨signed.filterMap fun e =>
      (issuers.find? fun t => t.issuer = e.1).map fun loc =>
        (e.1, if loc.audiences = [] then e.2 else e.2.filter fun a => loc.audiences.contains a)⟩

/-! ## The gate -/

/-- A raw ID token, opaque until verified. -/
abbrev IdToken := String

/-- A caller's token, and the principal it verified as. -/
structure Verified where
  token : IdToken
  principal : Principal
deriving DecidableEq

/-- A call the gate admitted. -/
structure Admitted where
  role : RoleName
  stateVersion : StateVersion
  caller : Verified
deriving DecidableEq

/-- Why `admit` refused. -/
inductive GateRefusal where
  | stale (version : StateVersion) (why : String)
  | notAdmitted (why : String)
  | notCallable (service : ServiceName) (refusal : Refusal)
  | notAssigned (service : ServiceName) (version : StateVersion)
  | alsoRequire (service : ServiceName) (roles : List RoleName) (principal : String)
deriving DecidableEq

/-- `map_err`. -/
def mapErr {ε ε' α : Type} (f : ε → ε') : Except ε α → Except ε' α
  | .ok a => .ok a
  | .error e => .error (f e)

@[simp] theorem mapErr_eq_ok {ε ε' α : Type} {f : ε → ε'} {x : Except ε α} {a : α} :
    mapErr f x = .ok a ↔ x = .ok a := by
  cases x <;> simp [mapErr]

theorem mapErr_eq_error {ε ε' α : Type} {f : ε → ε'} {x : Except ε α} {e : ε'} :
    mapErr f x = .error e ↔ ∃ e', x = .error e' ∧ f e' = e := by
  cases x <;> simp [mapErr]

variable [Crypto]

/-- `admit`. -/
def admitCall {root : NodeId} (state : Held root) (config : HostConfig) (me caller : NodeId)
    (verified : Verified) (service : ServiceName) (now : Int64) : Except GateRefusal Admitted := do
  let principal := some verified.principal
  let version := state.version
  let s := state.policy
  mapErr (fun e => .notAdmitted e.display) (checkAdmitted s caller verified.principal)
  mapErr (fun e => .stale version e.display) (state.checkFresh now)
  let role ← mapErr (fun
    | .banned => .notAdmitted Refusal.banned.display
    | refusal => .notCallable service refusal) (authorize s caller principal service)
  ensure (s.assigns service me) (.notAssigned service version)
  let also := ((config.services.get? service).map (·.alsoRequire)).getD []
  ensure (also.all fun r => s.roleAdmits r principal)
    (.alsoRequire service also verified.principal.name)
  return { role, stateVersion := version, caller := verified }

theorem admitCall_eq_ok {root : NodeId} {state : Held root} {config : HostConfig} {me caller : NodeId}
    {verified : Verified} {service : ServiceName} {now : Int64} {a : Admitted} :
    admitCall state config me caller verified service now = .ok a ↔
      checkAdmitted state.policy caller verified.principal = .ok () ∧
      now ≤ state.signed.head.head.notAfter ∧
      (∃ role, authorize state.policy caller (some verified.principal) service = .ok role ∧
        a = ⟨role, state.version, verified⟩) ∧
      state.policy.assigns service me = true ∧
      ∀ r ∈ ((config.services.get? service).map (·.alsoRequire)).getD [],
        state.policy.roleAdmits r (some verified.principal) = true := by
  simp only [admitCall, bind_eq_ok, mapErr_eq_ok, ensure_eq_ok, pure_eq_ok, exists_const,
    exists_ok_unit, exists_and_right, Held.checkFresh, SignedPolicyHead.checkFresh_eq_ok,
    List.all_eq_true]
  constructor
  · rintro ⟨hc, hn, role, hr, ha, hall, rfl⟩
    exact ⟨hc, hn, ⟨role, hr, rfl⟩, ha, hall⟩
  · rintro ⟨hc, hn, ⟨role, hr, rfl⟩, ha, hall⟩
    exact ⟨hc, hn, role, hr, ha, hall, rfl⟩

end Wires
