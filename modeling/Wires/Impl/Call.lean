import Wires.Impl.Directory
import Wires.Impl.Host

/-!
# What a host answers a call

The texts of the gate's refusals and `ServicesHost::decide`
(`wires/host/gate.rs`), and `serve_session_permitted` of
`wires/host/transport.rs` once it has read a `Hello` and an `Invoke`: what the
caller is told under the policy the host holds, or what runs.
-/

namespace Wires

/-- `not_callable`. -/
def notCallable (service : ServiceName) : String :=
  "no service named `" ++ service.name ++ "` that you may call"

/-- `GateRefusal`'s `Display`: what the caller is sent. -/
def GateRefusal.display : GateRefusal → String
  | .stale version why => "this host's signed policy (version " ++ toString version ++
    ") is not fresh (" ++ why ++ "); the admin must sign a newer one"
  | .notAdmitted _ => NOT_ADMITTED
  | .notCallable service _ => Wires.notCallable service
  | .notAssigned service version => "service " ++ service.name ++
    " is not assigned to this host (signed policy version " ++ toString version ++ ")"
  | .alsoRequire service _ principal => principal ++ " is not admitted to " ++ service.name ++
    " by this host's own rules"

/-- How a host implements a service. -/
inductive Implementation where
  | command (svc : ServiceImpl)
  /-- A handler of the app's own. -/
  | native

/-- `ServicesHost`, as far as answering a call reads it; `native` are the services the app
implements. -/
structure ServicesHost where
  me : NodeId
  config : HostConfig
  native : List ServiceName

namespace ServicesHost

variable [Crypto] {root : NodeId} (host : ServicesHost)

/-- `ServicesHost::implementation`. -/
def implementation (service : ServiceName) : Option Implementation :=
  if service ∈ host.native then some .native
  else (host.config.services.get? service).map .command

/-- `ServicesHost::decide`. -/
def decide (state : Held root) (caller : NodeId) (verified : Verified) (service : ServiceName)
    (now : Int64) : Except String Admitted :=
  mapErr GateRefusal.display (admitCall state host.config host.me caller verified service now)

variable (issuerOf : IdToken → Except String Issuer) (keys : Keys)

/-- The token's verdict under `state`'s issuers, as `host.json` narrows them. -/
def verdict (state : Held root) (caller : NodeId) (token : IdToken) (now : Int64) :
    Except VerifyError Principal :=
  verifyToken issuerOf keys (host.config.trust state.policy) caller token now

/-- The rest of `serve_session_permitted` under `state`: the reason of the `Denied` the caller is
sent, or what the call was admitted as and what runs. -/
def answerCall (state : Held root) (caller : NodeId) (token : IdToken) (service : ServiceName)
    (now : Int64) : Except String (Admitted × Implementation) := do
  let verified ← mapErr (fun refused => truncateReason refused.said)
    (admitCaller state caller token (host.verdict issuerOf keys state caller token now))
  let admitted ← mapErr truncateReason (host.decide state caller verified service now)
  let implementation ← orError (host.implementation service)
    (truncateReason ("service " ++ service.name ++ " is not implemented on this host"))
  return (admitted, implementation)

end ServicesHost

end Wires
