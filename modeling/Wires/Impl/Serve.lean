import Wires.Impl.Directory
import Wires.Impl.Host

/-!
# Who a directory serves

The rest of `wires/directory/node.rs` (`admit`, `answer`, `proof`), the
connections of `wires/directory/serve.rs` on both protocols, and the
subscription loop of `wires/directory/sub_policy.rs`. `Served` is a directory
and its connections; each read of what the directory holds is a step of its
own, so that an announcement can come between any two. What a peer sends, when,
what its token verifies as and whether a slot is free are the environment's.
-/

namespace Wires

namespace Directory

/-- What an admitted node hears when every slot is taken. -/
def BUSY : String := "this directory is busy; try again or ask another"

/-- What a node that is neither a host nor a directory hears when it asks for the whole policy. -/
def VIEW_NOT_POLICY : String :=
  "the whole policy is for the network's hosts and directories; a caller asks for its view"

/-- Who a directory's peer is, as its `hello` decided. -/
structure Peer where
  node : NodeId
  named : Bool
  principal : Option Principal
deriving DecidableEq

/-- `Peer::admitted`. -/
def Peer.admitted (p : Peer) : Bool := p.named || p.principal.isSome

variable [Crypto] {root : NodeId}

/-! ## What is held -/

/-- Whether a policy lets a node hold all of it: it is a host or a directory, and not banned. -/
def names (held : Held root) (node : NodeId) : Bool :=
  !held.policy.bansNode node &&
    (held.policy.isHost node || held.signed.head.head.directories.contains node)

/-- `Directory::holds_whole`. -/
def holdsWhole (current : Option (Current root)) (node : NodeId) : Bool :=
  current.any fun c => names c.held node

/-- `Directory::current_with_fresh`. -/
def currentWithFresh (current : Option (Current root)) (now : Int64) :
    Except String (Current root × Fresh) :=
  match current with
  | none => .error EMPTY
  | some c =>
    match c.held.checkFresh now with
    | .error _ => .error ("this directory holds only an expired policy (version " ++
        toString c.held.version ++ "); try again later")
    | .ok () =>
      match c.fresh with
      | none => .error ("this node is not a directory of the policy it holds (version " ++
          toString c.held.version ++ ")")
      | some fresh => .ok (c, fresh)

/-- `Directory::proof`; `host` is what a host on this node shows for the head. -/
def proof (current : Option (Current root)) (host : List Fresh) (now : Int64) :
    Except String HostProof := do
  let (c, own) ← currentWithFresh current now
  let head := c.held.signed.head
  let set := (own :: host).foldl (fun set f =>
    match f.toVerified head with
    | .ok v => (FreshSet.insert set v now).1
    | .error _ => set) FreshSet.empty
  return ⟨head, set.currentFor head now⟩

/-- `Directory::admit`, after its reads and the token's verification: who is admitted under
`held`, the policy that is not expired. -/
def admitPeer (caller : NodeId) (token : Option IdToken) (held : Option (Current root)) (named : Bool)
    (verdict : Except VerifyError Principal) : Peer :=
  { node := caller
    named
    principal :=
      match held, token, verdict with
      | some c, some _, .ok p => if isOk (checkAdmitted c.held.policy caller p) then some p else none
      | _, _, _ => none }

/-- `Directory::answer`. -/
def answer (current : Option (Current root)) (peer : Peer) (request : Request) (now : Int64) :
    Answer :=
  let denied (reason : String) := Answer.denied (truncateReason reason)
  if peer.admitted = false then denied NOT_ADMITTED
  else
    match currentWithFresh current now with
    | .error reason => denied reason
    | .ok (c, fresh) =>
      match request with
      | .policy have_ =>
        if peer.named = false then denied VIEW_NOT_POLICY
        else if have_ ≥ c.held.version then .current fresh
        else .policy c.held.signed fresh
      | .view query => .view (c.held.signed.viewFor peer.node peer.principal query) fresh
      | .resolve service =>
        let view := c.held.signed.viewFor peer.node peer.principal none
        .view { view with entries := view.entries.filter fun e => e.name = service } fresh
      | .hello _ | .opens => denied "a second hello"
      | .publish _ | .items _ => denied "a publish is a head and then its items"

/-- `next_frame`: what a subscriber that has `sent` gets, and the version it then has. -/
def nextFrame (c : Current root) (fresh : Fresh) (sent : StateVersion) : SubFrame × StateVersion :=
  if c.held.version > sent then (.policy c.held.signed fresh, c.held.version)
  else (.fresh fresh, sent)

/-! ## Connections -/

/-- What a peer is sent. -/
inductive Heard where
  | answer (a : Answer)
  | frame (f : SubFrame)

/-- Where a connection is. -/
inductive ConnStage (root : NodeId) (ι : Type) where
  /-- Its first frame is awaited. -/
  | opens
  /-- The proof is shown, and a `hello` awaited. -/
  | proven
  /-- `admit` read the policy, if it is not expired. -/
  | admits (token : Option IdToken) (held : Option (Current root))
  /-- `admit` read whether the policy names the peer; the token is being verified. -/
  | verifies (token : Option IdToken) (held : Option (Current root)) (named : Bool)
  /-- Its request, or its `subscribe`, is awaited. -/
  | asks (peer : Peer)
  /-- A publish is call `i`. -/
  | publishes (peer : Peer) (i : ι)
  /-- A subscription, about to read what is held. -/
  | follows (sent : StateVersion)
  /-- A subscription that read what is held. -/
  | weighs (c : Current root) (sent : StateVersion)
  | done

/-- A connection: the peer's authenticated key, whether it is on the subscription protocol, and
what it has been sent. -/
structure Conn (root : NodeId) (ι : Type) where
  node : NodeId
  sub : Bool
  stage : ConnStage root ι
  heard : List Heard

namespace Conn

variable {ι : Type}

/-- It comes to a stage. -/
def goes (c : Conn root ι) (stage : ConnStage root ι) : Conn root ι := { c with stage }

/-- It is sent something, and comes to a stage. -/
def hears (c : Conn root ι) (x : Heard) (stage : ConnStage root ι) : Conn root ι :=
  { c with stage, heard := c.heard ++ [x] }

/-- It is refused, on its own protocol. -/
def refused (c : Conn root ι) (reason : String) : Conn root ι :=
  c.hears (if c.sub then .frame (.denied (truncateReason reason)) else .answer (.denied reason)) .done

/-- `admit` begins: the policy is read, and kept if it is not expired. -/
def admitting (c : Conn root ι) (current : Option (Current root)) (token : Option IdToken)
    (now : Int64) : Conn root ι :=
  c.goes (.admits token (current.filter fun cur => isOk (cur.held.checkFresh now)))

/-- The frame that opens a request stream, or follows the proof. -/
def opening (c : Conn root ι) (current : Option (Current root)) (host : List Fresh) (now : Int64)
    (proven : Bool) : Except Anyhow Request → Conn root ι
  | .ok (.hello token) => c.admitting current token now
  | .ok .opens =>
    if proven then c.refused NOT_ADMITTED
    else
      match proof current host now with
      | .ok p => c.hears (.answer (.proof p)) .proven
      | .error reason => c.refused reason
  | _ => c.refused NOT_ADMITTED

/-- The peer is known: admitted, when a slot is free, or asked no more than a publish. -/
def known (c : Conn root ι) (current : Option (Current root)) (peer : Peer) (slot : Bool) :
    Conn root ι :=
  if peer.admitted then if slot then c.goes (.asks peer) else c.refused BUSY
  else if c.sub then c.refused (if current.isNone then EMPTY else NOT_ADMITTED)
  else c.goes (.asks peer)

/-- A request other than a publish. -/
def requested (c : Conn root ι) (current : Option (Current root)) (peer : Peer) (now : Int64)
    (request : Request) : Conn root ι :=
  if peer.admitted then c.hears (.answer (answer current peer request now)) .done
  else c.refused (if current.isNone then EMPTY else NOT_ADMITTED)

/-- A `subscribe` is read. -/
def subscribed (c : Conn root ι) (cap : Nat) (peer : Peer) (slot : Bool) : SubRequest → Conn root ι
  | .hello _ => c.refused "a second hello"
  | .subscribe have_ =>
    if peer.named = false then c.refused VIEW_NOT_POLICY
    else if slot then c.goes (.follows have_)
    else c.refused ("this directory's subscriber cap (" ++ toString cap ++ ") is reached")

/-- One turn of a subscription, for what it read: whether the node may hold it is read again. -/
def turn (c : Conn root ι) (current : Option (Current root)) (cur : Current root)
    (sent : StateVersion) : Conn root ι :=
  match cur.fresh with
  | none => c.refused "no longer a directory of this network"
  | some fresh =>
    if cur.held.policy.bansNode c.node then c.refused NOT_ADMITTED
    else if holdsWhole current c.node = false then c.refused VIEW_NOT_POLICY
    else
      let (frame, next) := nextFrame cur fresh sent
      c.hears (.frame frame) (.follows next)

end Conn

/-- A directory and its connections. -/
structure Served (root : NodeId) (ι κ : Type) where
  node : Node root ι
  conns : κ → Option (Conn root ι)

/-- A step of the directory, or of one of its connections. -/
inductive ServeEvent (ι κ : Type) where
  | node (e : NodeEvent ι)
  | connect (k : κ) (node : NodeId) (sub : Bool)
  /-- The first frame of a request stream, or the one after the proof, and the clock. -/
  | opening (k : κ) (frame : Except Anyhow Request) (host : List Fresh) (now : Int64)
  /-- The first frame of a subscription. -/
  | subOpening (k : κ) (frame : Except Anyhow SubRequest) (now : Int64)
  /-- `admit` reads whether the policy names the peer. -/
  | named (k : κ)
  /-- The token's verification ends. -/
  | verified (k : κ) (verdict : Except VerifyError Principal) (slot : Bool)
  | request (k : κ) (request : Request) (now : Int64)
  /-- A publish's head, which is call `i`. -/
  | publish (k : κ) (i : ι) (head : SignedPolicyHead) (now : Int64)
  /-- A publish from a peer not admitted finds no slot for its items. -/
  | crowded (k : κ)
  /-- A publish's answer is sent. -/
  | replies (k : κ)
  | subscribe (k : κ) (request : SubRequest) (slot : Bool)
  /-- A subscription is woken, and reads what is held. -/
  | wakes (k : κ)
  | sends (k : κ)
  /-- The peer goes, a frame cannot be read or sent, or a deadline passes. -/
  | closes (k : κ)

namespace Served

variable {ι κ : Type} [DecidableEq ι] [DecidableEq κ]

/-- Connection `k` comes to be. -/
def goes (s : Served root ι κ) (k : κ) (c : Conn root ι) : Served root ι κ :=
  { s with conns := Function.update s.conns k (some c) }

/-- One step of the directory or of one connection; `cap` is the subscriber cap. A restart of the
directory ends its connections. -/
def step (path : String) (me : NodeIdentity) (cap : Nat) (s : Served root ι κ) :
    ServeEvent ι κ → Option (Served root ι κ)
  | .node .opens => (s.node.step path me .opens).map fun node => ⟨node, fun _ => none⟩
  | .node e => (s.node.step path me e).map fun node => { s with node }
  | .connect k node sub =>
    match s.conns k with
    | none => some (s.goes k ⟨node, sub, .opens, []⟩)
    | some _ => none
  | .opening k frame host now =>
    match s.conns k with
    | some c@⟨_, false, .opens, _⟩ => some (s.goes k (c.opening s.node.current host now false frame))
    | some c@⟨_, false, .proven, _⟩ => some (s.goes k (c.opening s.node.current host now true frame))
    | _ => none
  | .subOpening k frame now =>
    match s.conns k with
    | some c@⟨_, true, .opens, _⟩ => some (s.goes k (match frame with
      | .ok (.hello token) => c.admitting s.node.current token now
      | _ => c.refused NOT_ADMITTED))
    | _ => none
  | .named k =>
    match s.conns k with
    | some c@⟨_, _, .admits token held, _⟩ =>
      some (s.goes k (c.goes (.verifies token held (holdsWhole s.node.current c.node))))
    | _ => none
  | .verified k verdict slot =>
    match s.conns k with
    | some c@⟨_, _, .verifies token held named, _⟩ =>
      some (s.goes k (c.known s.node.current (admitPeer c.node token held named verdict) slot))
    | _ => none
  | .request k request now =>
    match s.conns k with
    | some c@⟨_, false, .asks peer, _⟩ =>
      match request with
      | .publish _ => none
      | request => some (s.goes k (c.requested s.node.current peer now request))
    | _ => none
  | .publish k i head now =>
    match s.conns k with
    | some c@⟨_, false, .asks peer, _⟩ => do
      let node ← s.node.step path me (.publish i head now)
      return { s.goes k (c.goes (.publishes peer i)) with node }
    | _ => none
  | .crowded k =>
    match s.conns k with
    | some c@⟨_, _, .publishes peer i, _⟩ =>
      match s.node.calls i with
      | some (.wants _) => if peer.admitted then none else some (s.goes k (c.refused BUSY))
      | _ => none
    | _ => none
  | .replies k =>
    match s.conns k with
    | some c@⟨_, _, .publishes _ i, _⟩ =>
      match s.node.calls i with
      | some (.answered a) => some (s.goes k (c.hears (.answer a) .done))
      | _ => none
    | _ => none
  | .subscribe k request slot =>
    match s.conns k with
    | some c@⟨_, true, .asks peer, _⟩ => some (s.goes k (c.subscribed cap peer slot request))
    | _ => none
  | .wakes k =>
    match s.conns k with
    | some c@⟨_, _, .follows sent, _⟩ =>
      match s.node.current with
      | some cur => some (s.goes k (c.goes (.weighs cur sent)))
      | none => some s
    | _ => none
  | .sends k =>
    match s.conns k with
    | some c@⟨_, _, .weighs cur sent, _⟩ => some (s.goes k (c.turn s.node.current cur sent))
    | _ => none
  | .closes k =>
    match s.conns k with
    | some c => some (s.goes k (c.goes .done))
    | none => none

/-- A directory opened on a file, with no connection yet. -/
def start (file : PolicyFile) (held : Option (Held root)) : Served root ι κ :=
  ⟨Node.start file held, fun _ => none⟩

end Served

end Directory

end Wires
