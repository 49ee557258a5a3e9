import Wires.Impl.Vouch

/-!
# A caller's sessions

The caller's side of a call and of an inbox fetch: `call_service_on`, `speak`
and `converse` of `wires/host/transport.rs`, `fetch_from` of
`wires/caller/inbox.rs`, and the check of the host's `HelloAck`
(`library/calls/session.rs`, `accept_ack` of `wires/caller/call.rs`). A call
and a fetch open a stream the same way, so both run `Opening.step`; `ServiceCall.step`
and `InboxFetch.step` go on from there. An event is one thing the environment does:
a connection, a reading of the clock, a frame written or not, a frame read.
Every frame a caller writes is kept in `sent`, newest first.
-/

namespace Wires

/-! ## The host's ack -/

/-- The host's answer to an admitted `Hello`. -/
structure HelloAck where
  stateVersion : StateVersion
  head : Option SignedPolicyHead
  entry : Option SignedEntry

variable [Crypto]

/-- `HelloAck::assigns`: whether the ack lets a caller whose view is at `held` go on with a call
of `service` on `host`. -/
def HelloAck.assigns (a : HelloAck) (root : NodeId) (held : StateVersion) (service : ServiceName)
    (host : NodeId) : Result Bool :=
  if a.stateVersion ≤ held then .ok true
  else do
    let head ← orError a.head (.invalidPolicy ("the host reports policy version " ++
      toString a.stateVersion ++ " without its head"))
    head.verify root
    ensure (head.head.version = a.stateVersion) (.invalidPolicy ("the host's head is version " ++
      toString head.head.version ++ ", not the " ++ toString a.stateVersion ++ " it reports"))
    match a.entry with
    | none => return false
    | some entry =>
      ensure (entry.name = service) (.invalidPolicy ("the host sent the entry of " ++
        entry.name.name ++ ", not " ++ service.name))
      checkEntryVersion entry head
      entry.verify root
      return entry.service.hosts.contains host

/-- `accept_ack`: what the caller does at a `HelloAck`, before any stdin. -/
def acceptAck (root : NodeId) (held : StateVersion) (service : ServiceName) (host : NodeId)
    (a : HelloAck) : Except Anyhow Unit :=
  match a.assigns root held service host with
  | .ok true => .ok ()
  | .ok false => .error ["signed policy version " ++ toString a.stateVersion ++
      " no longer assigns `" ++ service.name ++ "` to host " ++ host.short ++
      ", so the call was stopped before any input was sent (see `wires services`)"]
  | .error e => .error ["the host's newer policy head or service entry does not verify; no " ++
      "input was sent", e.display]

/-- What an ack that is accepted at a newer version shows. -/
theorem HelloAck.assigns_eq_ok_true {a : HelloAck} {root : NodeId} {held : StateVersion}
    {service : ServiceName} {host : NodeId} : a.assigns root held service host = .ok true ↔
      a.stateVersion ≤ held ∨ held < a.stateVersion ∧ ∃ head e, a.head = some head ∧
        a.entry = some e ∧ head.verify root = .ok () ∧ head.head.version = a.stateVersion ∧
        e.name = service ∧ checkEntryVersion e head = .ok () ∧ e.verify root = .ok () ∧
        host ∈ e.service.hosts := by
  unfold assigns
  by_cases h : a.stateVersion ≤ held
  · simp [h]
  · have hlt : held < a.stateVersion := not_le.mp h
    cases he : a.entry with
    | none => simp [h]
    | some e => simp [h, hlt]

theorem acceptAck_eq_ok {root : NodeId} {held : StateVersion} {service : ServiceName}
    {host : NodeId} {a : HelloAck} {u : Unit} : acceptAck root held service host a = .ok u ↔
      a.assigns root held service host = .ok true := by
  unfold acceptAck
  split <;> simp_all

/-! ## What a caller sends -/

/-- What a `Hello` goes out on: the view when the stream was opened, the clock when the caller
checked, its view then, and the proof the host had shown (none on the cached path). -/
structure Grounds (root : NodeId) where
  before : HeldView root
  now : Int64
  held : HeldView root
  shown : Option HostProof

/-- A frame a caller writes to a host. A `Hello` carries the view's version (on a call) and the
token; it is kept with its grounds and when it was written. -/
inductive Sent (root : NodeId) where
  | opens (host : NodeId)
  | hello (host : NodeId) (stateVersion : Option StateVersion) (idToken : IdToken)
    (on : Grounds root) (at_ : Int64)
  | invoke (host : NodeId) (service : ServiceName) (argv : List String)
  | fetch (host : NodeId) (waitMs : Nat)
  | stdin (host : NodeId) (chunk : List UInt8)
  | ack (host : NodeId) (ids : List String)

/-- To whom it was sent. -/
def Sent.host {root : NodeId} : Sent root → NodeId
  | .opens host => host
  | .hello host _ _ _ _ => host
  | .invoke host _ _ => host
  | .fetch host _ => host
  | .stdin host _ => host
  | .ack host _ => host

/-- A caller: what it checks hosts against, and what it has sent. -/
structure Talk (root : NodeId) where
  vouch : Vouching root
  sent : List (Sent root)

/-- Another frame is written. -/
def Talk.send {root : NodeId} (t : Talk root) (s : Sent root) : Talk root :=
  { t with sent := s :: t.sent }

/-- What a caller opens a stream for. -/
inductive Errand where
  | call (service : ServiceName) (argv : List String)
  | fetch (waitMs : Nat)

namespace Errand

/-- The version a `Hello` names: a call's does. -/
def helloVersion (errand : Errand) (v : StateVersion) : Option StateVersion :=
  match errand with
  | .call _ _ => some v
  | .fetch _ => none

/-- The frame after the `Hello`. -/
def request {root : NodeId} (errand : Errand) (host : NodeId) : Sent root :=
  match errand with
  | .call service argv => .invoke host service argv
  | .fetch waitMs => .fetch host waitMs

/-- A failure to write `Open`: a dial failure on a call. -/
def openFailed (errand : Errand) (host : NodeId) (why : Anyhow) : Stop :=
  match errand with
  | .call _ _ => dialFailure host (oneLine why)
  | .fetch _ => .failed why

end Errand

/-! ## Opening a stream -/

/-- What reading the host's first frame comes to. -/
inductive FirstFrame where
  | proof (p : HostProof)
  | denied (reason : String)
  /-- Any other frame. -/
  | other
  | closed
  | unreadable (why : Anyhow)
  | timedOut

/-- Why a first frame is no proof. -/
def Errand.noProof (errand : Errand) : FirstFrame → String
  | .proof _ => ""
  | .denied reason => "it refused before showing a proof: " ++ reason
  | .other => "its first frame was not a proof"
  | .closed =>
    match errand with
    | .call _ _ => "it closed before showing a proof"
    | .fetch _ => "its first frame was not a proof"
  | .unreadable why =>
    match errand with
    | .call _ _ => "an unreadable proof: " ++ oneLine why
    | .fetch _ => "no proof: " ++ oneLine why
  | .timedOut =>
    match errand with
    | .call _ _ => "it showed no proof in time"
    | .fetch _ => "no proof: no inbox frame within 10s"

/-- The end of the error of a call that spoke at once and was shown no proof. -/
def Errand.noInput (errand : Errand) : String :=
  match errand with
  | .call _ _ => "; no input was sent"
  | .fetch _ => ""

/-- Where the opening of a stream is. -/
inductive Opening (root : NodeId) where
  /-- Nothing is said. -/
  | silent
  /-- About to write `Open`. -/
  | opens
  /-- About to write the `Hello`. -/
  | greets (on : Grounds root)
  /-- About to write the `Invoke` or `Fetch`. -/
  | requests (on : Grounds root)
  /-- Waits for the host's first frame, having spoken at once or not. -/
  | waits (atOnce : Option (Grounds root))
  /-- The caller has spoken, and the host's proof checked out. -/
  | spoken (on : Grounds root) (proof : HostProof)
  | stopped (why : Stop)

/-- What the environment does while a stream is opened. -/
inductive SpeakEvent (root : NodeId) where
  /-- The clock is read, before anything is said. -/
  | clock (now : Int64)
  /-- A frame is written, or not. -/
  | wrote (at_ : Int64) (result : Except Anyhow Unit)
  /-- The host's first frame is read; `now` is the clock when the check begins, and `refreshed`
  what the refresher comes to if it is asked. -/
  | first (frame : FirstFrame) (now : Int64) (refreshed : Refreshed root)

namespace Opening

variable {root : NodeId} (errand : Errand) (idToken : IdToken) (host : NodeId)

/-- What the caller makes of the host's first frame. -/
def heard (t : Talk root) (atOnce : Option (Grounds root)) (frame : FirstFrame) (now : Int64)
    (refreshed : Refreshed root) : Talk root × Opening root :=
  match frame with
  | .proof p =>
    match t.vouch.check host p now atOnce.isNone refreshed with
    | .error (v, stop) => ({ t with vouch := v }, .stopped stop)
    | .ok v =>
      match atOnce with
      | some on => ({ t with vouch := v }, .spoken on p)
      | none => ({ t with vouch := v },
          .greets { before := t.vouch.held, now, held := v.held, shown := some p })
  | .denied _ => (t, .stopped (dialFailure host (errand.noProof frame)))
  | frame =>
    match atOnce with
    | some _ => (t, .stopped (.failed ["host " ++ host.short ++ ": " ++ errand.noProof frame ++
        errand.noInput]))
    | none => (t, .stopped (dialFailure host (errand.noProof frame)))

/-- One step of opening a stream to `host`. -/
def step (t : Talk root) : Opening root → SpeakEvent root → Option (Talk root × Opening root)
  | .silent, .clock now =>
    if t.vouch.ready host now = true then
      some (t, .greets { before := t.vouch.held, now, held := t.vouch.held, shown := none })
    else some (t, .opens)
  | .opens, .wrote _ result =>
    some (t.send (.opens host), match result with
      | .ok () => .waits none
      | .error why => .stopped (errand.openFailed host why))
  | .greets on, .wrote at_ result =>
    some (t.send (.hello host (errand.helloVersion t.vouch.version) idToken on at_),
      match result with
      | .ok () => .requests on
      | .error why => .stopped (.failed why))
  | .requests on, .wrote _ result =>
    some (t.send (errand.request host), match result, on.shown with
      | .ok (), none => .waits (some on)
      | .ok (), some proof => .spoken on proof
      | .error why, _ => .stopped (.failed why))
  | .waits atOnce, .first frame now refreshed =>
    some (heard errand host t atOnce frame now refreshed)
  | _, _ => none

end Opening

/-! ## Calls -/

/-- What reading the host's answer to a call comes to. -/
inductive CallAnswer where
  | helloAck (a : HelloAck)
  | denied (reason : String)
  | other
  | closed
  | unreadable (why : Anyhow)

/-- Where a call is. -/
inductive CallStage (root : NodeId) where
  /-- About to dial the next of `targets`. -/
  | dialing (targets : List NodeId)
  /-- `speak`, on a stream to `host`. -/
  | speaking (targets : List NodeId) (host : NodeId) (opening : Opening root)
  /-- `converse`, waiting for the ack. -/
  | awaits (host : NodeId) (on : Grounds root) (proof : HostProof)
  /-- The ack was accepted: stdin flows. -/
  | bridges (host : NodeId) (on : Grounds root) (proof : HostProof) (ack : HelloAck)
  | ended (why : Except Anyhow Unit)

/-- A call: the caller, why each host so far was left, how many for want of a word, and where it
is. -/
structure ServiceCall (root : NodeId) where
  talk : Talk root
  failures : List String
  lapsed : Nat
  stage : CallStage root

/-- What the environment does during a call. -/
inductive CallEvent (root : NodeId) where
  /-- A connection and a stream to `peer`, or why not. -/
  | connect (peer : Except String NodeId)
  | speak (e : SpeakEvent root)
  | answer (a : CallAnswer)
  /-- A chunk of local stdin is written. -/
  | stdin (chunk : List UInt8)
  /-- The session ends. -/
  | ends (result : Except Anyhow Unit)

/-- `all_unvouched`. -/
def allUnvouched (what : String) (failures : List String) : Anyhow :=
  ["no directory has vouched for " ++ what ++ " recently, so nothing was sent (" ++
    String.intercalate "; " failures ++ "); the network's directories may be down or out of " ++
    "reach: try again later, or ask your admin"]

namespace ServiceCall

variable {root : NodeId} (service : ServiceName) (argv : List String) (idToken : IdToken)

/-- A call about to dial its first target. -/
def start (vouch : Vouching root) (targets : List NodeId) : ServiceCall root :=
  ⟨⟨vouch, []⟩, [], 0, .dialing targets⟩

/-- A dial failure: the next host is tried. -/
def left (c : ServiceCall root) (targets : List NodeId) (why : String) (lapsed : Bool) : ServiceCall root :=
  { c with
    failures := c.failures ++ [why]
    lapsed := c.lapsed + lapsed.toNat
    stage := .dialing targets }

/-- The error when no target is left. -/
def exhausted (c : ServiceCall root) : Anyhow :=
  if c.failures = [] then ["no host to dial"]
  else if c.lapsed = c.failures.length then
    allUnvouched ("a host of `" ++ service.name ++ "`") c.failures
  else ["no host answered (" ++ String.intercalate "; " c.failures ++ "); try again later, or " ++
    "ask your admin whether its hosts are up"]

/-- Where a call goes once a stream's opening came to `opening`. -/
def opened (c : ServiceCall root) (targets : List NodeId) (host : NodeId) (talk : Talk root) :
    Opening root → ServiceCall root
  | .spoken on proof => { c with talk, stage := .awaits host on proof }
  | .stopped (.unvouched u) =>
    { c with talk }.left targets (host.short ++ ": " ++ u.why) u.lapsed
  | .stopped (.failed why) => { c with talk, stage := .ended (.error why) }
  | opening => { c with talk, stage := .speaking targets host opening }

/-- What the caller makes of the host's answer. -/
def answered (c : ServiceCall root) (host : NodeId) (on : Grounds root) (proof : HostProof) :
    CallAnswer → CallStage root
  | .helloAck a =>
    match acceptAck root c.talk.vouch.version service host a with
    | .ok () => .bridges host on proof a
    | .error why => .ended (.error why)
  | .denied reason => .ended (.error [reason])
  | .other => .ended (.error ["the host's answer was not a hello ack"])
  | .closed => .ended (.error ["the host closed before sending a hello ack"])
  | .unreadable why => .ended (.error why)

/-- One step of `call_service_on`. -/
def step (c : ServiceCall root) : CallEvent root → Option (ServiceCall root)
  | .connect peer =>
    match c.stage with
    | .dialing [] => some { c with stage := .ended (.error (c.exhausted service)) }
    | .dialing (target :: targets) =>
      match peer with
      | .ok host => some { c with stage := .speaking targets host .silent }
      | .error why => some (c.left targets (target.short ++ ": " ++ why) false)
    | _ => none
  | .speak e =>
    match c.stage with
    | .speaking targets host opening =>
      (opening.step (.call service argv) idToken host c.talk e).map fun p =>
        c.opened targets host p.1 p.2
    | _ => none
  | .answer a =>
    match c.stage with
    | .awaits host on proof => some { c with stage := c.answered service host on proof a }
    | _ => none
  | .stdin chunk =>
    match c.stage with
    | .bridges host _ _ _ => some { c with talk := c.talk.send (.stdin host chunk) }
    | _ => none
  | .ends result =>
    match c.stage with
    | .bridges _ _ _ _ => some { c with stage := .ended result }
    | _ => none

end ServiceCall

/-! ## Fetches -/

/-- The most messages in one delivery. -/
def MAX_BATCH : Nat := 32

/-- What reading the host's answer to a fetch comes to. -/
inductive FetchAnswer where
  /-- A delivery of `count` messages, and the ids the mailbox then holds of them with how many were
  new, or why they were not stored. -/
  | deliver (count : Nat) (stored : Except Anyhow (List String × Nat))
  | denied (reason : String)
  /-- Another frame, or the end of the stream. -/
  | other
  | unreadable (why : Anyhow)

/-- What one host answered a fetch with. -/
inductive Fetched where
  | messages (count : Nat)
  | refused (why : String)
  | unvouched (u : Unvouched)

/-- Where a fetch is. -/
inductive FetchStage (root : NodeId) where
  | dialing
  | speaking (host : NodeId) (opening : Opening root)
  | awaits (host : NodeId)
  /-- The delivery is stored; about to acknowledge it. -/
  | stored (host : NodeId) (ids : List String) (full : Bool)
  | ended (result : Except Anyhow Fetched)

/-- A fetch: the caller, how many messages were new, how long the host may hold the stream, and
where it is. -/
structure InboxFetch (root : NodeId) where
  talk : Talk root
  total : Nat
  waitMs : Nat
  stage : FetchStage root

/-- What the environment does during a fetch. -/
inductive FetchEvent (root : NodeId) where
  | connect (peer : Except Anyhow NodeId)
  | speak (e : SpeakEvent root)
  | answer (a : FetchAnswer)
  | wrote (result : Except Anyhow Unit)

namespace InboxFetch

variable {root : NodeId} (idToken : IdToken)

/-- A fetch about to dial its host. -/
def start (vouch : Vouching root) (waitMs : Nat) : InboxFetch root := ⟨⟨vouch, []⟩, 0, waitMs, .dialing⟩

/-- Where a fetch goes once a stream's opening came to `opening`. -/
def opened (f : InboxFetch root) (host : NodeId) (talk : Talk root) : Opening root → InboxFetch root
  | .spoken _ _ => { f with talk, stage := .awaits host }
  | .stopped (.unvouched u) => { f with talk, stage := .ended (.ok (.unvouched u)) }
  | .stopped (.failed why) => { f with talk, stage := .ended (.error why) }
  | opening => { f with talk, stage := .speaking host opening }

/-- What the caller makes of the host's answer. -/
def answered (f : InboxFetch root) (host : NodeId) : FetchAnswer → InboxFetch root
  | .deliver count (.ok (ids, fresh)) =>
    { f with total := f.total + fresh, stage := .stored host ids (decide (count ≥ MAX_BATCH)) }
  | .deliver _ (.error why) => { f with stage := .ended (.error why) }
  | .denied reason => { f with stage := .ended (.ok (.refused reason)) }
  | .other => { f with stage := .ended (.error ["the host answered a fetch out of turn"]) }
  | .unreadable why => { f with stage := .ended (.error why) }

/-- One step of `fetch_from`: a full delivery is followed by another fetch. -/
def step (f : InboxFetch root) : FetchEvent root → Option (InboxFetch root)
  | .connect peer =>
    match f.stage with
    | .dialing =>
      match peer with
      | .ok host => some { f with stage := .speaking host .silent }
      | .error why => some { f with stage := .ended (.error why) }
    | _ => none
  | .speak e =>
    match f.stage with
    | .speaking host opening =>
      (opening.step (.fetch f.waitMs) idToken host f.talk e).map fun p => f.opened host p.1 p.2
    | _ => none
  | .answer a =>
    match f.stage with
    | .awaits host => some (f.answered host a)
    | _ => none
  | .wrote result =>
    match f.stage with
    | .stored host ids full =>
      let f := { f with talk := f.talk.send (.ack host ids) }
      match result with
      | .error why => some { f with stage := .ended (.error why) }
      | .ok () =>
        if full then some { f with waitMs := 0, stage := .dialing }
        else some { f with stage := .ended (.ok (.messages f.total)) }
    | _ => none

end InboxFetch

end Wires
