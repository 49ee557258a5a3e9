import Wires.Impl.Call
import Wires.Impl.Frame

/-!
# A call and its hosts

Both ends of every session one call opens: the caller's is `call_service_on`
(`Impl/Session.lean`), the host's is `serve_session_permitted` of
`wires/host/transport.rs`, of which `Serving.step` is one step. Each session has
a stream either way, and a frame a peer reads is the next that was written. A
host that does not follow the program sends what it likes, and any read or write
can fail. A write that fails leaves no whole frame behind.
-/

namespace Wires

/-- What a caller is told that sends no invocation. -/
def DENY_INVOKE_REQUIRED : String := "invoke required"

/-- Why no frame is read. -/
inductive NoFrame where
  | closed
  | unreadable (why : Anyhow)
  | timedOut

/-! ## The host's side -/

section

variable [Crypto] {root : NodeId}

/-- Where a host is in a session. -/
inductive Serving (root : NodeId) where
  /-- About to read its policy. -/
  | begins
  /-- About to send its proof. -/
  | proves (state : Held root) (proof : HostProof)
  /-- Waits for the `Hello`, having read `Open` or not. -/
  | listens (state : Held root) (opened : Bool)
  /-- Waits for the `Invoke`. -/
  | greeted (state : Held root) (hello : Hello)
  | decides (state : Held root) (hello : Hello) (invocation : Invocation)
  /-- About to send the ack. -/
  | acks (ack : HelloAck) (implementation : Implementation)
  | starts (implementation : Implementation)
  /-- The service was started. -/
  | runs
  /-- About to send a `Denied`. -/
  | refuses (reason : String)
  /-- The session is over; whether the service was started. -/
  | ended (ran : Bool)

/-- What the environment does on the host's side. -/
inductive ServeEvent (root : NodeId) where
  /-- `policy` answers, with the words the host then holds. -/
  | policy (state : Except Anyhow (Held root)) (fresh : FreshSet) (now : Int64)
  | wrote (ok : Bool)
  /-- The next frame is read, or none is. -/
  | reads (no : Option NoFrame)
  | decides (keys : Keys) (now : Int64)
  | spawned (ok : Bool)
  /-- A frame of the service's stdio or its exit code. -/
  | bridges (f : Frame)
  | ends

/-- Whether a frame is read. -/
def ServeEvent.reading : ServeEvent root → Bool
  | .reads none => true
  | _ => false

/-- Why a host refuses the peer whose first frame it could not read. -/
def NoFrame.noHello : NoFrame → String
  | .closed => "connection closed before hello"
  | .unreadable _ => "unreadable hello"
  | .timedOut => "timed out waiting for hello"

/-- The ack of an admitted caller: with the host's head and the service's entry when the caller's
view is older. -/
def Held.ack (state : Held root) (hello : Hello) (service : ServiceName) : HelloAck :=
  let news := hello.stateVersion < state.version
  { stateVersion := state.version
    head := if news then some state.signed.head else none
    entry := if news then state.signed.entries.find? fun e => e.name = service else none }

namespace Serving

variable (host : ServicesHost) (issuerOf : IdToken → Except String Issuer) (caller : NodeId)
  (next : Option Frame)

/-- What a read comes to, when `next` is the next frame: it waits while there is none. -/
def received : Option NoFrame → Option (Except NoFrame Frame)
  | some no => some (.error no)
  | none => next.map .ok

/-- What a host makes of the frame that should be a `Hello`. -/
def hears (state : Held root) (opened : Bool) : Except NoFrame Frame → Serving root
  | .ok .opens => if opened then .refuses "first frame was not a hello" else .listens state true
  | .ok (.hello hello) => .greeted state hello
  | .ok _ => .refuses "first frame was not a hello"
  | .error no => .refuses no.noHello

/-- What a host makes of the frame that should be an `Invoke`. -/
def invoked (state : Held root) (hello : Hello) : Except NoFrame Frame → Serving root
  | .ok (.invoke invocation) => .decides state hello invocation
  | _ => .refuses DENY_INVOKE_REQUIRED

/-- One step of `serve_session_permitted`, and the frame it writes. -/
def step : Serving root → ServeEvent root → Option (Serving root × Option Frame)
  | .begins, .policy (.error _) _ _ => some (.refuses HOST_MISCONFIGURED, none)
  | .begins, .policy (.ok state) fresh now =>
    some (.proves state ⟨state.signed.head, fresh.currentFor state.signed.head now⟩, none)
  | .proves state proof, .wrote ok =>
    if ok then some (.listens state false, some (.proof proof)) else some (.ended false, none)
  | .listens state opened, .reads no => (received next no).map fun got => (hears state opened got, none)
  | .greeted state hello, .reads no => (received next no).map fun got => (invoked state hello got, none)
  | .decides state hello invocation, .decides keys now =>
    match host.answerCall issuerOf keys state caller hello.idToken invocation.service now with
    | .ok (_, implementation) => some (.acks (state.ack hello invocation.service) implementation, none)
    | .error reason => some (.refuses reason, none)
  | .acks ack implementation, .wrote ok =>
    if ok then some (.starts implementation, some (.helloAck ack)) else some (.ended false, none)
  | .starts _, .spawned ok => some (if ok then .runs else .ended false, none)
  | .runs, .bridges f => some (.runs, some f)
  | .runs, .ends => some (.ended true, none)
  | .refuses reason, .wrote ok => some (.ended false, if ok then some (.denied reason) else none)
  | _, _ => none

/-- Whether the service was started. -/
def ran : Serving root → Bool
  | .runs => true
  | .ended ran => ran
  | _ => false

end Serving

/-! ## Sessions -/

/-- One session of a call: its peer, the frames the caller wrote and how many of them were read, the
frames the peer wrote and how many of them were read, and where the peer is if it follows the
program. -/
structure Dial (root : NodeId) where
  peer : NodeId
  told : List Frame
  taken : Nat
  said : List Frame
  heard : Nat
  serving : Serving root

/-- A stream that was just opened. -/
def Dial.new (peer : NodeId) : Dial root := ⟨peer, [], 0, [], 0, .begins⟩

/-- The frame an entry of the caller's log stands for, in a call of `invocation`; a call logs no
entries of a fetch, and each of its `Hello`s names a version. -/
def Sent.frame? (invocation : Invocation) : Sent root → Option Frame
  | .opens _ => some .opens
  | .hello _ v idToken _ _ => v.map fun v => .hello ⟨v, idToken⟩
  | .invoke _ _ _ => some (.invoke invocation)
  | .stdin _ chunk => some (.stdin chunk)
  | .fetch _ _ => none
  | .ack _ _ => none

end

/-- What a caller makes of a frame that should be a proof. -/
def Frame.first : Frame → FirstFrame
  | .proof p => .proof p
  | .denied reason => .denied reason
  | _ => .other

/-- What a caller makes of a frame that should be an ack. -/
def Frame.answer : Frame → CallAnswer
  | .helloAck a => .helloAck a
  | .denied reason => .denied reason
  | _ => .other

def NoFrame.first : NoFrame → FirstFrame
  | .closed => .closed
  | .unreadable why => .unreadable why
  | .timedOut => .timedOut

/-- Nothing times out once the proof checked out. -/
def NoFrame.answer : NoFrame → Option CallAnswer
  | .closed => some .closed
  | .unreadable why => some (.unreadable why)
  | .timedOut => none

section

variable [Crypto] {root : NodeId}

/-- A call with its sessions, the newest first. -/
structure Dialing (root : NodeId) where
  call : ServiceCall root
  dials : List (Dial root)

/-- A step of the caller, of the host of the `i`th newest session, or of a peer of another kind. -/
inductive DialingEvent (root : NodeId) where
  | connect (peer : Except String NodeId)
  | clock (now : Int64)
  | wrote (at_ : Int64) (result : Except Anyhow Unit)
  | first (no : Option NoFrame) (now : Int64) (refreshed : Refreshed root)
  | answer (no : Option NoFrame)
  | stdin (chunk : List UInt8)
  | ends (result : Except Anyhow Unit)
  | host (i : Nat) (e : ServeEvent root)
  | peer (i : Nat) (f : Frame)

namespace Dialing

variable (hosts : NodeId → Option ServicesHost) (issuerOf : IdToken → Except String Issuer)
  (caller : NodeId) (invocation : Invocation) (idToken : IdToken)

/-- A call about to dial its first target. -/
def start (vouch : Vouching root) (targets : List NodeId) : Dialing root :=
  ⟨ServiceCall.start vouch targets, []⟩

/-- A step of `call_service_on`. -/
def callStep (d : Dialing root) (e : CallEvent root) : Option (ServiceCall root) :=
  d.call.step invocation.service invocation.argv.args idToken e

/-- The newest session's caller writes the frame it logged last. -/
def writes (d : Dialing root) (call : ServiceCall root) : Dialing root :=
  match d.dials, call.talk.sent with
  | dial :: dials, s :: _ =>
    ⟨call, { dial with told := dial.told ++ (s.frame? invocation).toList } :: dials⟩
  | dials, _ => ⟨call, dials⟩

/-- The next frame of the newest session, and the session once it is read. -/
def next (d : Dialing root) : Option (Frame × List (Dial root)) :=
  match d.dials with
  | dial :: dials =>
    dial.said[dial.heard]?.map fun f => (f, { dial with heard := dial.heard + 1 } :: dials)
  | [] => none

/-- A step of a host that follows the program. -/
def serves (dial : Dial root) (e : ServeEvent root) : Option (Dial root) := do
  let host ← hosts dial.peer
  let (serving, wrote) ←
    dial.serving.step host issuerOf caller (dial.told[dial.taken]?) e
  return { dial with
    taken := dial.taken + e.reading.toNat
    said := dial.said ++ wrote.toList
    serving }

/-- One step of a call and its hosts. -/
def step (d : Dialing root) : DialingEvent root → Option (Dialing root)
  | .connect peer =>
    (d.callStep invocation idToken (.connect peer)).map fun call =>
      match call.stage with
      | .speaking _ host _ => ⟨call, Dial.new host :: d.dials⟩
      | _ => ⟨call, d.dials⟩
  | .clock now => (d.callStep invocation idToken (.speak (.clock now))).map (⟨·, d.dials⟩)
  | .wrote at_ result =>
    (d.callStep invocation idToken (.speak (.wrote at_ result))).map fun call =>
      match result with
      | .ok () => d.writes invocation call
      | .error _ => ⟨call, d.dials⟩
  | .first none now refreshed => do
    let (f, dials) ← d.next
    let call ← d.callStep invocation idToken (.speak (.first f.first now refreshed))
    return ⟨call, dials⟩
  | .first (some no) now refreshed =>
    (d.callStep invocation idToken (.speak (.first no.first now refreshed))).map (⟨·, d.dials⟩)
  | .answer none => do
    let (f, dials) ← d.next
    let call ← d.callStep invocation idToken (.answer f.answer)
    return ⟨call, dials⟩
  | .answer (some no) => do
    let a ← no.answer
    let call ← d.callStep invocation idToken (.answer a)
    return ⟨call, d.dials⟩
  | .stdin chunk =>
    (d.callStep invocation idToken (.stdin chunk)).map fun call => d.writes invocation call
  | .ends result => (d.callStep invocation idToken (.ends result)).map (⟨·, d.dials⟩)
  | .host i e => do
    let dial ← d.dials[i]?
    let dial ← serves hosts issuerOf caller dial e
    return { d with dials := d.dials.set i dial }
  | .peer i f => do
    let dial ← d.dials[i]?
    if (hosts dial.peer).isSome then none
    else return { d with dials := d.dials.set i { dial with said := dial.said ++ [f] } }

end Dialing

end

end Wires
