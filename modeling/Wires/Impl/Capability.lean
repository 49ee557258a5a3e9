import Wires.Impl.Directory
import Wires.Impl.Push

/-!
# A call's push capability

`wires/host/capability.rs`, what the child socket makes of a line
(`serve_conn` of `wires/host/control.rs`), and whom a push goes to
(`PushHost::recipients` and `send` of `wires/host/push.rs`, `push_recipients`
of `wires/host/gate.rs`). `ChildSocket` is one `serve`'s tokens with its calls
and the lines its children send; `ChildSocket.step` is one step of one of them.
`Instant`s are nanoseconds. A `finish` and a `check` read the clock before they
take the lock.
-/

namespace Wires

/-! ## Tokens -/

/-- How long a token outlives its call: ten minutes. -/
def CAPABILITY_GRACE : Nat := 10 * 60 * 1000000000

/-- A call's push token. -/
abbrev PushToken := Bytes 32

/-- `PushToken::from_hex`. -/
def PushToken.fromHex (s : String) : Option PushToken :=
  if byteLen s ≠ 64 then none else (hexDecode s.toList).bind (Bytes.ofList? 32)

/-- `NodeId::from_hex`. -/
def NodeId.fromHex (s : String) : Option NodeId := (hexDecode s.toList).bind (Bytes.ofList? 32)

/-- What a live token entitles its holder to. -/
structure Grant where
  caller : NodeId
  /-- When it dies; none while the call runs. -/
  expires : Option Nat
deriving DecidableEq

/-- Why the child socket refused a push. -/
inductive CapabilityRefusal where
  | unknown
  | notTheCaller (caller : NodeId)
deriving DecidableEq

/-- `CapabilityRefusal`'s `Display`. -/
def CapabilityRefusal.display : CapabilityRefusal → String
  | .unknown => "unknown or expired push token (a call's token lasts until " ++
    toString (CAPABILITY_GRACE / 1000000000 / 60) ++ " min after the call ends)"
  | .notTheCaller caller => "this call's push capability reaches only its caller (" ++ caller.hex ++
    "); --to must be $WIRES_CALLER_NODE"

/-- Every live push token of one `serve`. -/
structure Capabilities where
  grants : PushToken → Option Grant

namespace Capabilities

/-- `prune`. -/
def prune (c : Capabilities) (now : Nat) : Capabilities :=
  ⟨fun t => (c.grants t).filter fun g => g.expires.all fun e => e > now⟩

/-- `Capabilities::mint`, of a token that was generated. -/
def mint (c : Capabilities) (token : PushToken) (caller : NodeId) (now : Nat) : Capabilities :=
  ⟨Function.update (c.prune now).grants token (some ⟨caller, none⟩)⟩

/-- `Capabilities::finish`. -/
def finish (c : Capabilities) (token : PushToken) (at_ : Nat) : Capabilities :=
  match c.grants token with
  | some g => ⟨Function.update c.grants token (some { g with expires := some (at_ + CAPABILITY_GRACE) })⟩
  | none => c

/-- `Capabilities::check`. -/
def check (c : Capabilities) (token : PushToken) (to_ : String) (now : Nat) :
    Capabilities × Except CapabilityRefusal Grant :=
  let c := c.prune now
  (c, match c.grants token with
    | none => .error .unknown
    | some grant =>
      if NodeId.fromHex to_ = some grant.caller then .ok grant
      else .error (.notTheCaller grant.caller))

end Capabilities

/-! ## Requests -/

/-- What `wires push` asks the host to send. -/
structure PushSpec where
  to_ : String
  subject : Subject
  body : PushBody
  ttlSecs : Option UInt64
deriving DecidableEq

/-- A push's deserialiser: an array has all four elements. -/
def PushSpec.ofJson (j : Json) : Option PushSpec := do
  let f ← j.openFields ["to", "subject", "body", "ttl_secs"]
  let to_ ← field f "to"
  let subject ← field f "subject"
  let body ← field f "body"
  let ttlSecs ← match j, f "ttl_secs" with
    | .arr _, none => none
    | _, _ => optField f "ttl_secs"
  return { to_, subject, body, ttlSecs }

/-- One request of a control socket. -/
inductive ControlRequest where
  | push (spec : PushSpec)
  | callerPush (token : String) (push : PushSpec)

/-- A request's deserialiser: an object of one member, named for what it is. -/
def ControlRequest.ofJson : Json → Option ControlRequest
  | .obj [("push", j)] => (PushSpec.ofJson j).map .push
  | .obj [("caller_push", j)] => do
    let f ← j.fields ["token", "push"]
    let token ← field f "token"
    let push ← (f "push").bind PushSpec.ofJson
    return .callerPush token push
  | _ => none

/-! ## Whom a push goes to -/

/-- The life of a push that gives none, in seconds. -/
def DEFAULT_PUSH_TTL : Nat := 24 * 3600

/-- The longest life of a push, in seconds. -/
def MAX_PUSH_TTL : Nat := 7 * 24 * 3600

variable [Web]

/-- `ServicesHost::push_recipients`, of the `nodes` whose principals are remembered. -/
def pushRecipients [Crypto] {root : NodeId} (state : Option (Held root)) (known : Known)
    (nodes : List NodeId) (me : NodeId) (role : RoleName) (now : Int64) : List NodeId :=
  match state with
  | none => []
  | some s => (nodes.filter fun n => n ≠ me && (known.current n now).any fun p =>
      isOk (checkAdmitted s.policy n p) && s.policy.roleAdmits role (some p)).mergeSort
        fun a b => a ≤ b

/-- `PushHost::recipients`; `inRole` is what `push_recipients` answers for a role. -/
def recipients (to_ : String) (inRole : RoleName → List NodeId) : Except Anyhow (List NodeId) :=
  match if byteLen to_ = 64 then NodeId.fromHex to_ else none with
  | some node => .ok [node]
  | none => do
    let role ← mapErr (fun _ => ["--to " ++ Web.quoted to_ ++
      " is neither a node id (64 hex) nor a role name"]) (RoleName.new to_)
    let nodes := inRole role
    ensure (nodes ≠ []) ["no node with a verified identity is in role " ++ role.name ++
      " right now (a node's identity reaches this host when it calls here or runs `wires inbox`)"]
    return nodes

/-- `PushHost::send`: the messages it makes, one for each recipient, before each is decided on. -/
def sends (me : NodeId) (inRole : RoleName → List NodeId) (ids : Nat → PushId) (atMs : Int64)
    (spec : PushSpec) : Except Anyhow (List PushMessage) := do
  let ttl := (spec.ttlSecs.map UInt64.toNat).getD DEFAULT_PUSH_TTL
  ensure (¬(ttl = 0 ∨ ttl > MAX_PUSH_TTL)) ["--ttl must be between 1s and 7d"]
  let nodes ← recipients spec.to_ inRole
  return nodes.mapIdx fun i node => {
    id := ids i
    sender := me
    recipient := node
    subject := spec.subject
    body := spec.body
    atMs
    expiresMs := satAdd atMs (Int64.ofNat (ttl * 1000)) }

/-! ## The child socket -/

/-- A call of a service, as far as its push capability goes. -/
inductive CapableCall where
  | idle
  | runs (token : PushToken) (caller : NodeId)
  /-- Its capability is dropped, and the clock was read. -/
  | ends (token : PushToken) (caller : NodeId) (at_ : Nat)
  | ended (token : PushToken) (caller : NodeId) (at_ : Nat)
deriving DecidableEq

/-- A line on the child socket. -/
inductive ControlLine where
  | idle
  /-- The clock was read, and `check` is called. -/
  | checks (token : PushToken) (spec : PushSpec) (now : Nat)
  /-- What it is answered, if it is. -/
  | answered (err : Option String)
  /-- Its push is handed to the push service. -/
  | dispatched (token : PushToken) (spec : PushSpec) (grant : Grant)
  /-- The push service sends it. -/
  | sent (token : PushToken) (spec : PushSpec) (grant : Grant) (messages : List PushMessage)

/-- What `serve_conn` makes of a line before a check: blank lines are passed over. -/
def readLine (line : List UInt8) (now : Nat) : ControlLine :=
  if line.all fun b => b = 0x20 || b = 0x09 || b = 0x0a || b = 0x0c || b = 0x0d then .answered none
  else
    match (utf8Decode line).bind fun cs => (Json.parse cs).bind ControlRequest.ofJson with
    | some (.callerPush token spec) =>
      match PushToken.fromHex token with
      | some token => .checks token spec now
      | none => .answered (some (truncateReason CapabilityRefusal.unknown.display))
    | some (.push _) => .answered (some
        "this socket takes only a call's push (`caller_push` with its WIRES_PUSH_TOKEN)")
    | none => .answered (some (truncateReason ("malformed request: " ++ Web.serdeError line)))

/-- One `serve`'s tokens and the clock, its calls, and the lines of its children. -/
structure ChildSocket (ι κ : Type) where
  clock : Nat
  caps : Capabilities
  minted : List PushToken
  calls : ι → CapableCall
  lines : κ → ControlLine

/-- A step of a call or of a line, or the passing of time. -/
inductive ChildEvent (ι κ : Type) where
  | tick (now : Nat)
  /-- Call `i` is minted a token that is not one before. -/
  | mint (i : ι) (token : PushToken) (caller : NodeId)
  | drops (i : ι)
  | finish (i : ι)
  | line (k : κ) (line : List UInt8)
  | check (k : κ)
  /-- `send`, with whom each role names. -/
  | send (k : κ) (inRole : RoleName → List NodeId) (ids : Nat → PushId) (atMs : Int64)

namespace ChildSocket

variable {ι κ : Type} [DecidableEq ι] [DecidableEq κ]

/-- A `serve` has begun. -/
def start : ChildSocket ι κ := ⟨0, ⟨fun _ => none⟩, [], fun _ => .idle, fun _ => .idle⟩

/-- Call `i` comes to a stage. -/
def calling (s : ChildSocket ι κ) (i : ι) (c : CapableCall) : ChildSocket ι κ :=
  { s with calls := Function.update s.calls i c }

/-- Line `k` comes to a stage. -/
def lining (s : ChildSocket ι κ) (k : κ) (l : ControlLine) : ChildSocket ι κ :=
  { s with lines := Function.update s.lines k l }

variable (me : NodeId)

/-- One step; `me` is the host. -/
def step (s : ChildSocket ι κ) : ChildEvent ι κ → Option (ChildSocket ι κ)
  | .tick now => if s.clock ≤ now then some { s with clock := now } else none
  | .mint i token caller =>
    match s.calls i with
    | .idle =>
      if token ∈ s.minted then none
      else some { s.calling i (.runs token caller) with
        caps := s.caps.mint token caller s.clock
        minted := token :: s.minted }
    | _ => none
  | .drops i =>
    match s.calls i with
    | .runs token caller => some (s.calling i (.ends token caller s.clock))
    | _ => none
  | .finish i =>
    match s.calls i with
    | .ends token caller at_ =>
      some { s.calling i (.ended token caller at_) with caps := s.caps.finish token at_ }
    | _ => none
  | .line k line =>
    match s.lines k with
    | .idle => some (s.lining k (readLine line s.clock))
    | _ => none
  | .check k =>
    match s.lines k with
    | .checks token spec now =>
      let (caps, result) := s.caps.check token spec.to_ now
      some { s.lining k (match result with
        | .ok grant => .dispatched token spec grant
        | .error refusal => .answered (some (truncateReason refusal.display))) with caps }
    | _ => none
  | .send k inRole ids atMs =>
    match s.lines k with
    | .dispatched token spec grant =>
      some (s.lining k (match sends me inRole ids atMs spec with
        | .ok messages => .sent token spec grant messages
        | .error why => .answered (some (truncateReason (oneLine why)))))
    | _ => none

end ChildSocket

end Wires
