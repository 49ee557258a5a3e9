import Wires.Impl.Gate

/-!
# A host's sessions

`wires/host/gate.rs`'s `ServicesHost::policy` and `admit_caller`, and what
`wires/host/identity.rs` and `wires/caller/jwks.rs` do with the trusted
issuers. Many sessions and fetches run on one host, sharing the policy file,
the highest version decided under (`high_water`) and the trusted issuers:
`Host.step` is one step of one of them, each of what they share being read or
changed in one step. What an identity provider's keys make of a token is the
environment's.
-/

namespace Wires

/-! ## Identity tokens -/

/-- Why a token did not verify. -/
inductive VerifyError where
  | untrusted (issuer : Issuer)
  | unavailable (why : String)
  | rejected (why : String)
  | expired (principal : Principal)
deriving DecidableEq

namespace IdpTrust

/-- `IdpTrust::issuers`. -/
def issuers (t : IdpTrust) : List Issuer := t.byIssuer.map Prod.fst

/-- `IdpTrust::audiences_for`: none from an untrusted issuer. -/
def audiencesFor (t : IdpTrust) (issuer : Issuer) : List Audience :=
  ((t.byIssuer.find? fun e => e.1 = issuer).map Prod.snd).getD []

end IdpTrust

/-- What a token's issuer's keys, fetched or cached, make of it for the audiences accepted. -/
abbrev Keys := NodeId → IdToken → List Audience → Int64 → Except VerifyError Principal

/-- `KeyFetcher::verify`, with the issuers and audiences `Identities::verify_token` gives it.
`issuerOf` is the token's unverified issuer. -/
def verifyToken (issuerOf : IdToken → Except String Issuer) (keys : Keys) (trust : IdpTrust)
    (caller : NodeId) (token : IdToken) (now : Int64) : Except VerifyError Principal := do
  let issuer ← mapErr .rejected (issuerOf token)
  ensure (issuer ∈ trust.issuers) (.untrusted issuer)
  keys caller token (trust.audiencesFor issuer) now

/-! ## Admission -/

def NOT_ADMITTED : String :=
  "not admitted to this network: sign in with `wires login`, or ask your admin for a role"

def SIGN_IN_EXPIRED : String := "your sign-in has expired; run `wires login`"

def IDP_UNREACHABLE : String :=
  "the identity provider is unreachable from this host; try again later"

def HOST_MISCONFIGURED : String := "host configuration error"

/-- Why `admit_caller` refused a peer: what the peer hears, and whether it is banned. -/
structure NotAdmitted where
  said : String
  banned : Bool
deriving DecidableEq

/-- `admit_caller`, after the token's verdict. -/
def admitCaller [Crypto] {root : NodeId} (state : Held root) (caller : NodeId) (token : IdToken)
    (verdict : Except VerifyError Principal) : Except NotAdmitted Verified :=
  match verdict with
  | .error (.expired p) =>
    .error ⟨SIGN_IN_EXPIRED, state.policy.bansNode caller || state.policy.bansPerson p⟩
  | .error (.unavailable _) => .error ⟨IDP_UNREACHABLE, state.policy.bansNode caller⟩
  | .error _ => .error ⟨NOT_ADMITTED, state.policy.bansNode caller⟩
  | .ok principal =>
    match checkAdmitted state.policy caller principal with
    | .error e => .error ⟨NOT_ADMITTED, decide (e = .banned)⟩
    | .ok () => .ok ⟨token, principal⟩

/-! ## Sessions -/

/-- A session or a fetch, from its call of `policy` on. -/
inductive Task [Crypto] (root : NodeId) where
  | idle
  /-- In `policy`, before reading the file. -/
  | reads
  /-- In `policy`, before raising the high-water mark. -/
  | marks (state : Held root)
  /-- In `policy`, before setting the trusted issuers. -/
  | publishes (state : Held root)
  /-- `policy` answered an error. -/
  | failed (why : Anyhow)
  /-- `policy` answered; the caller's token is not verified. -/
  | holds (state : Held root)
  /-- The token was verified against these issuers, and the caller admitted or not. -/
  | verified (state : Held root) (against : IdpTrust) (caller : NodeId)
    (result : Except NotAdmitted Verified)
  /-- The call was decided. -/
  | decided (state : Held root) (against : IdpTrust) (service : ServiceName)
    (answer : Except GateRefusal Admitted)

/-- The host: the file, what its tasks share, and the tasks. -/
structure Host [Crypto] (root : NodeId) (ι : Type) where
  file : PolicyFile
  highWater : StateVersion
  trust : IdpTrust
  tasks : ι → Task root

/-- A step of one of the tasks, or a rewrite of the file by whoever can write it. -/
inductive HostEvent (ι : Type) where
  | rewrite (file : PolicyFile)
  | call (i : ι)
  | read (i : ι)
  | mark (i : ι)
  | publish (i : ι)
  | verify (i : ι) (caller : NodeId) (token : IdToken) (now : Int64) (keys : Keys)
  | decide (i : ι) (service : ServiceName) (now : Int64)

namespace Host

variable [Crypto] {root : NodeId} {ι : Type} [DecidableEq ι]

/-- A host that has decided nothing yet. -/
def start (file : PolicyFile) (trust : IdpTrust) : Host root ι := ⟨file, 0, trust, fun _ => .idle⟩

/-- Task `i` comes to a stage. -/
def goes (h : Host root ι) (i : ι) (task : Task root) : Host root ι :=
  { h with tasks := Function.update h.tasks i task }

/-- What `policy` makes of the file it read. -/
def found (path : String) (file : PolicyFile) : Task root :=
  match Wires.read path root file with
  | .error e => .failed e
  | .ok none => .failed ["this host holds no signed policy yet (the admin's next publish, " ++
    "or a directory, gives it one)"]
  | .ok (some state) => .marks state

/-- What `policy` makes of the highest version seen before its own. -/
def weighed (seen : StateVersion) (state : Held root) : Task root :=
  if state.version < seen then
    .failed ["the signed policy on disk (version " ++ toString state.version ++
      ") is older than version " ++ toString seen ++
      ", which this host already decided under; refusing to decide until a policy at " ++
      "least that new is back"]
  else .publishes state

variable (path : String) (config : HostConfig) (me : NodeId)
  (issuerOf : IdToken → Except String Issuer)

/-- One step of one task, or a rewrite of the file. -/
def step (h : Host root ι) : HostEvent ι → Option (Host root ι)
  | .rewrite file => some { h with file }
  | .call i =>
    match h.tasks i with
    | .idle => some (h.goes i .reads)
    | _ => none
  | .read i =>
    match h.tasks i with
    | .reads => some (h.goes i (found path h.file))
    | _ => none
  | .mark i =>
    match h.tasks i with
    | .marks state =>
      some { h.goes i (weighed h.highWater state) with highWater := max h.highWater state.version }
    | _ => none
  | .publish i =>
    match h.tasks i with
    | .publishes state => some { h.goes i (.holds state) with trust := config.trust state.policy }
    | _ => none
  | .verify i caller token now keys =>
    match h.tasks i with
    | .holds state => some (h.goes i (.verified state h.trust caller
        (admitCaller state caller token (verifyToken issuerOf keys h.trust caller token now))))
    | _ => none
  | .decide i service now =>
    match h.tasks i with
    | .verified state against caller (.ok verified) => some (h.goes i (.decided state against service
        (admitCall state config me caller verified service now)))
    | _ => none

end Host

end Wires
