import Wires.Impl.Call
import Wires.Impl.Capability

/-!
# What a service child is run as

How `host.json` implements a service, with what validating the file checks
(`wires/host/config.rs`), and the last part of `serve_session_permitted` of
`wires/host/transport.rs`: the child an admitted call spawns, and its whole
environment. A name or a value of an environment is the bytes the operating
system has.
-/

namespace Wires

/-- `OsString`: a name or a value of an environment. -/
abbrev OsString := List UInt8

/-- A text as the operating system has it. -/
def os (s : String) : OsString := utf8 s.toList

/-! ## `host.json` -/

/-- `ServiceImpl`: how one service runs on this host. -/
structure ServiceCommand extends ServiceImpl where
  command : List String
  cwd : Option String
  env : SortedMap String String
  endOfOptions : Bool
deriving DecidableEq

/-- `ServiceImpl::argv`: the program, then its arguments. -/
def ServiceCommand.argv (svc : ServiceCommand) (caller : List String) :
    Option (String × List String) :=
  match svc.command with
  | [] => none
  | program :: fixed => some (program, fixed ++ (if svc.endOfOptions then ["--"] else []) ++ caller)

/-- `HostConfig`, with how each service runs. -/
structure HostJson where
  identity : Option (List TrustedIssuer)
  services : SortedMap ServiceName ServiceCommand
deriving DecidableEq

namespace HostJson

/-- What a decision reads of it. -/
def config (json : HostJson) : HostConfig :=
  ⟨json.identity, json.services.filterMap fun _ svc => some svc.toServiceImpl⟩

variable [Web]

/-- `validate_fields`, of a name of a service's `env`. -/
def validateEnvName (name : ServiceName) (key : String) : Except Anyhow Unit := do
  ensure (key ≠ "" ∧ '=' ∉ key.toList ∧ '\x00' ∉ key.toList)
    ["service " ++ name.name ++ ": env name " ++ Web.quoted key ++ " is not a variable name"]
  ensure (¬"WIRES_".toList <+: key.toList)
    ["service " ++ name.name ++ ": env " ++ key ++ " is set by wires itself"]

/-- `validate_fields`, of a service. -/
def validateService (e : ServiceName × ServiceCommand) : Except Anyhow Unit := do
  ensure (e.2.command ≠ []) ["service " ++ e.1.name ++ ": empty command"]
  ensure (e.2.cwd ≠ some "") ["service " ++ e.1.name ++ ": empty cwd"]
  forEach (validateEnvName e.1) e.2.env.keys

/-- `HostConfig::validate_fields`. -/
def validateFields (json : HostJson) : Except Anyhow Unit := do
  json.config.validateIdentity
  forEach validateService json.services.entries

/-- `HostConfig::validate`. -/
def validate (json : HostJson) : Except Anyhow Unit := do
  ensure (json.services.entries ≠ []) ["nothing is implemented: `services` is empty"]
  json.validateFields

end HostJson

/-! ## The child's environment -/

/-- The variables a child inherits, besides every `LC_*`. -/
def CHILD_INHERITS : List String := ["PATH", "LANG"]

def ENV_SOCKET : String := "WIRES_PUSH_SOCKET"

def ENV_TOKEN : String := "WIRES_PUSH_TOKEN"

/-- `child_env`'s filter: a name that is not UTF-8 is not kept. -/
def childInherits (k : OsString) : Bool :=
  (utf8Decode k).any fun cs => CHILD_INHERITS.contains (String.ofList cs) || "LC_".toList.isPrefixOf cs

/-- `child_env`: what is inherited, then the service's own, then the server's. -/
def childEnv (inherited : List (OsString × OsString)) (service : SortedMap String String)
    (server : List (OsString × OsString)) : SortedMap OsString OsString :=
  let env := SortedMap.collect (inherited.filter fun e => childInherits e.1)
  let env := env.extend (service.entries.map fun e => (os e.1, os e.2))
  env.extend server

/-- `Principal`'s serialiser. -/
def Principal.toJson (p : Principal) : Json :=
  .obj ([("issuer", Wires.toJson p.issuer), ("subject", Wires.toJson p.subject)] ++
    optMember "email" p.email ++ optMember "org" p.org ++
    (if p.groups = [] then [] else [("groups", Wires.toJson p.groups)]) ++
    [("not_after", Wires.toJson p.notAfter)])

/-- `caller_json`. -/
def callerJson (p : Principal) : String := String.ofList p.toJson.compact

/-- The values the server sets; `capability` is the call's push token and the socket it is for. -/
def serverEnv (caller : NodeId) (service : ServiceName) (admitted : Admitted)
    (capability : Option (PushToken × OsString)) : List (OsString × OsString) :=
  let who := admitted.caller
  [(os "WIRES_CALLER_NODE", os caller.hex), (os "WIRES_ID_TOKEN", os who.token),
    (os "WIRES_CALLER", os (callerJson who.principal)), (os "WIRES_SERVICE", os service.name),
    (os "WIRES_ROLE", os admitted.role.name)] ++
  (match who.principal.email with
    | some email => [(os "WIRES_CALLER_EMAIL", os email)]
    | none => []) ++
  match capability with
  | some (token, socket) =>
    [(os ENV_SOCKET, socket), (os ENV_TOKEN, os (String.ofList (hexEncode token.toList)))]
  | none => []

/-! ## The child -/

/-- What a child is spawned as. -/
structure Child where
  program : String
  args : List String
  cwd : Option String
  env : SortedMap OsString OsString
deriving DecidableEq

/-- A host's push grants: the live tokens, and the socket its children push on. -/
structure PushGrants where
  caps : Capabilities
  socket : OsString

/-- What one call brings, besides what decides it: its arguments, the environment of the host
process, the push token that is drawn and the instant it is minted at. -/
structure CallInput where
  argv : List String
  inherited : List (OsString × OsString)
  pushToken : PushToken
  mintedAt : Nat

/-- What an admitted call of a command spawns, with the grants it leaves; none for an empty
command. -/
def ServiceCommand.spawn (svc : ServiceCommand) (grants : Option PushGrants) (input : CallInput)
    (caller : NodeId) (service : ServiceName) (admitted : Admitted) :
    Option (Child × Option PushGrants) :=
  (svc.argv input.argv).map fun run =>
    let minted := grants.map fun g => { g with caps := g.caps.mint input.pushToken caller input.mintedAt }
    let capability := minted.map fun g => (input.pushToken, g.socket)
    let server := serverEnv caller service admitted capability
    (⟨run.1, run.2, svc.cwd, childEnv input.inherited svc.env server⟩, minted)

/-- `serve_session_permitted` once it has read a `Hello` and an `Invoke`: the reason of the
`Denied`, or the child the call spawns, if any. -/
def HostJson.serveCall [Crypto] {root : NodeId} (json : HostJson) (me : NodeId)
    (native : List ServiceName) (issuerOf : IdToken → Except String Issuer) (keys : Keys)
    (state : Held root) (caller : NodeId) (token : IdToken) (service : ServiceName) (now : Int64)
    (grants : Option PushGrants) (input : CallInput) :
    Except String (Option (Child × Option PushGrants)) := do
  let (admitted, implementation) ← ServicesHost.answerCall ⟨me, json.config, native⟩ issuerOf keys
    state caller token service now
  return match implementation with
  | .native => none
  | .command _ => (json.services.get? service).bind fun svc =>
    svc.spawn grants input caller service admitted

end Wires
