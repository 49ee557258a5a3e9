import Wires.Impl.Jwks
import Wires.Impl.Queue

/-!
# Inbox fetches

`wires/host/push.rs`'s `serve_fetch`, with what it decides by: the principals
`wires/host/identity.rs` remembers (`Identities`) and `decide_push` of
`wires/host/gate.rs`. A host's sessions and fetches share the principals, the
queue and, as in `Host`, the policy file. `PushHost.step` is one step of one of
them. What its sends, its direct deliveries and its sweep do to the queue is the
environment's.
-/

namespace Wires

def INBOX_REFUSED : String := "inbox fetch refused: this host does not push to you"

def MAX_PREAUTH_FETCHES : Nat := 64

def MAX_FETCHES_PER_NODE : Nat := 2

/-- What a fetch hears when too many await a decision. -/
def FETCH_BUSY : String := "this host is busy; try again"

/-- What a fetch hears when its node holds enough of them open. -/
def TOO_MANY_FETCHES : String := "inbox fetch refused: this node already has " ++
  toString MAX_FETCHES_PER_NODE ++ " fetches open here"

/-! ## Who a node is -/

/-- `is_fresh`. -/
def isFresh (p : Principal) (now : Int64) : Bool := now ≤ satAdd p.notAfter CLOCK_SKEW_SECS

/-- `Identities`: of each node, the principal with the latest expiry that was admitted. -/
abbrev Known := NodeId → Option Principal

namespace Known

/-- The principal replaces one that expires no later. -/
def keep (known : Known) (node : NodeId) (p : Principal) : Known :=
  if (known node).all fun held => p.notAfter ≥ held.notAfter then
    Function.update known node (some p)
  else known

/-- `Identities::record`. -/
def record (known : Known) (node : NodeId) : Except VerifyError Principal → Known
  | .ok p => known.keep node p
  | .error (.expired p) => known.keep node p
  | .error _ => known

/-- `Identities::current`. -/
def current (known : Known) (node : NodeId) (now : Int64) : Option Principal :=
  (known node).filter fun p => isFresh p now

end Known

/-! ## Who may be pushed to -/

/-- Why `decide_push` refused a recipient. -/
inductive PushRefusal where
  | notAdmitted (why : String)
  | refused (why : String)
deriving DecidableEq

variable [Crypto] [Web] [Jose] {root : NodeId}

/-- Whether the policy still admits a node, as the principal it is known by. -/
def stillAdmitted (policy : Policy) (node : NodeId) : Option Principal → Result Unit
  | some p => checkAdmitted policy node p
  | none => ensure (¬policy.bansNode node) .banned

/-- Why nobody of `push.allow` is the recipient. -/
def inNoRole (allow : List RoleName) : Option Principal → String
  | some p => p.name ++ " is in no role allowed to receive pushes (" ++
    ", ".intercalate (allow.map (·.name)) ++ ")"
  | none => "receiving pushes needs a verified identity in role " ++
    ", ".intercalate (allow.map (·.name)) ++ " (call this host after `wires login`)"

/-- `decide_push`, under the policy it read, of a node known by this principal. `allow` is
`host.json`'s `push.allow`, empty where it has none. -/
def decidePush (state : Held root) (allow : List RoleName) (node : NodeId) (now : Int64)
    (principal : Option Principal) : Except PushRefusal (Option Principal × RoleName) := do
  let version := toString state.version
  mapErr (fun e => .refused ("this host's signed policy (version " ++ version ++
    ") is not fresh (" ++ e.display ++ ")")) (state.checkFresh now)
  mapErr (fun
    | .banned => .notAdmitted (node.short ++ " is removed by the current signed policy (version " ++
      version ++ ")")
    | e => .refused (node.short ++ " is no longer admitted by the current signed policy (version " ++
      version ++ "): " ++ e.display)) (stillAdmitted state.policy node principal)
  ensure (allow ≠ []) (.refused "this host's host.json `push.allow` is empty: it pushes to no one")
  let role ← orError (allow.find? fun r => state.policy.roleAdmits r principal)
    (.refused (inNoRole allow principal))
  return (principal, role)

/-! ## Visits -/

/-- The calls of `policy`: a visit's own, and that of `decide_push`. -/
inductive Look (ι : Type) where
  | visit (i : ι)
  | push (i : ι)
deriving DecidableEq

/-- What a peer comes for: a call, or what is queued for it. -/
inductive VisitKind where
  | session
  | fetch
deriving DecidableEq

/-- A visit whose `Hello` was judged: its caller and token, the policy and the clock it was judged
by, what the token verified as, and what `admit_caller` made of it. -/
structure Judged (root : NodeId) where
  kind : VisitKind
  state : Held root
  caller : NodeId
  token : Option IdToken
  now : Int64
  verdict : Option (Except VerifyError Principal)
  result : Except NotAdmitted Verified

/-- A fetch that `decide_push` decided: the policy it read, if it could, and its answer. -/
structure Decided (root : NodeId) extends Judged root where
  again : Option (Held root)
  answer : Except PushRefusal (Option Principal × RoleName)

/-- Where a visit is. -/
inductive Visit (root : NodeId) where
  | absent
  /-- Its `policy` is called, and its frames are read. -/
  | opens (kind : VisitKind)
  | judged (j : Judged root)
  /-- Its caller is admitted, and recorded. -/
  | admitted (j : Judged root)
  /-- It is not admitted; the flag says whether it dropped its node's queue. -/
  | refused (j : Judged root) (dropped : Bool)
  /-- `decide_push` reads the policy. -/
  | deciding (j : Judged root)
  | decided (d : Decided root)
  /-- It is not handed anything; the flag says whether it dropped its node's queue. -/
  | denied (d : Decided root) (said : String) (dropped : Bool)
  /-- It waits for something to be queued. -/
  | polls (d : Decided root)
  | delivers (d : Decided root) (batch : List PushMessage)
  | fetched (d : Decided root)
  | gone (said : Option String)

/-- What visits share, and the visits. -/
structure PushHost (root : NodeId) (ι : Type) where
  host : Host root (Look ι)
  known : Known
  queue : Queue
  /-- The fetches that await a decision. -/
  undecided : Nat
  /-- The fetches of each node that are held open. -/
  fetching : NodeId → Nat
  visits : ι → Visit root

/-- What others do to the queue: a send, a direct delivery, or the sweep. -/
inductive QueueOp where
  | insert (entry : Entry)
  | remove (node : NodeId) (ids : List PushId)
  | purge (node : NodeId)
  | expire (nowMs : Int64)

/-- A step of one of the visits, or of what else the host does. -/
inductive PushEvent (ι : Type) where
  /-- The file is rewritten, or a call of `policy` goes on. -/
  | host (e : HostEvent (Look ι))
  | queue (op : QueueOp)
  | arrive (i : ι) (kind : VisitKind)
  /-- It has no policy to be judged under, or sends no `Hello` (or no `Fetch`). -/
  | turn (i : ι) (said : Option String)
  /-- Its frames are read, and its token verified with these keys. -/
  | hello (i : ι) (caller : NodeId) (token : Option IdToken) (now : Int64)
    (keys : Issuer → Option String → Except Anyhow Jwks)
  /-- The gate's answer is acted on. -/
  | admits (i : ι)
  /-- `decide_push` calls `policy`. -/
  | again (i : ι)
  /-- `decide_push` answers. -/
  | decide (i : ι)
  /-- Its answer is acted on. -/
  | answer (i : ι)
  /-- The long poll looks into the queue; the flag says whether its wait is over. -/
  | look (i : ι) (nowMs : Int64) (timedOut : Bool)
  | ack (i : ι) (ids : List PushId)
  /-- The stream fails. -/
  | leave (i : ι)

/-- The steps of a host that are taken as they are. -/
def HostEvent.plain {ι : Type} : HostEvent (Look ι) → Bool
  | .rewrite _ => true
  | .call (.visit _) => true
  | .read _ => true
  | .mark _ => true
  | .publish _ => true
  | _ => false

/-- What an operation leaves queued. -/
def QueueOp.apply (q : Queue) : QueueOp → Queue
  | .insert entry => (q.insert entry QUEUE_PER_RECIPIENT).2
  | .remove node ids => (q.remove node ids).2
  | .purge node => (q.purge node).2
  | .expire nowMs => (q.expire nowMs).2

/-- `serve_fetch`'s admission: as of a call, and with no token nobody is admitted. -/
def admission (state : Held root) (caller : NodeId) :
    Option (IdToken × Except VerifyError Principal) → Except NotAdmitted Verified
  | some (token, verdict) => admitCaller state caller token verdict
  | none => .error ⟨NOT_ADMITTED, state.policy.bansNode caller⟩

/-- What a policy that was read again, or not, makes of a fetch. -/
def authorizePush (allow : List RoleName) (known : Known) (j : Judged root) (again : Option (Held root)) :
    Decided root :=
  { j with
    again
    answer := match again with
      | some state => decidePush state allow j.caller j.now (known.current j.caller j.now)
      | none => .error (.refused HOST_MISCONFIGURED) }

namespace PushHost

variable {ι : Type} [DecidableEq ι]

/-- A host whose visits are all to come. -/
def start (file : PolicyFile) (trust : IdpTrust) (queue : Queue) : PushHost root ι :=
  ⟨.start file trust, fun _ => none, queue, 0, fun _ => 0, fun _ => .absent⟩

/-- Visit `i` comes to a stage. -/
def goes (p : PushHost root ι) (i : ι) (v : Visit root) : PushHost root ι :=
  { p with visits := Function.update p.visits i v }

/-- A fetch that awaits no decision any more. -/
def settle (p : PushHost root ι) (kind : VisitKind) : PushHost root ι :=
  if kind = .fetch then { p with undecided := p.undecided - 1 } else p

/-- `drop_queue`, if it comes to that. -/
def drop (p : PushHost root ι) (node : NodeId) (dropped : Bool) : PushHost root ι :=
  if dropped then { p with queue := (p.queue.purge node).2 } else p

/-- A fetch of `node` that is not held open any more. -/
def close (p : PushHost root ι) (node : NodeId) : PushHost root ι :=
  { p with fetching := Function.update p.fetching node (p.fetching node - 1) }

variable (path : String) (config : HostConfig) (allow : List RoleName) (me : NodeId)

/-- One step of one visit, or of what else the host does. -/
def step (p : PushHost root ι) : PushEvent ι → Option (PushHost root ι)
  | .host e =>
    if e.plain then
      (p.host.step path config me (fun _ => .error "") e).map fun host => { p with host }
    else none
  | .queue op => some { p with queue := op.apply p.queue }
  | .arrive i kind =>
    match p.visits i with
    | .absent =>
      if kind = .fetch then
        if p.undecided ≥ MAX_PREAUTH_FETCHES then some (p.goes i (.gone (some FETCH_BUSY)))
        else some { p.goes i (.opens kind) with undecided := p.undecided + 1 }
      else some (p.goes i (.opens kind))
    | _ => none
  | .turn i said =>
    match p.visits i with
    | .opens kind => some ((p.goes i (.gone said)).settle kind)
    | _ => none
  | .hello i caller token now keys =>
    match p.visits i, p.host.tasks (.visit i) with
    | .opens kind, .holds state =>
      let verdict := token.map fun t => KeyFetcher.verify p.host.trust ⟨caller, t⟩ now keys
      some (p.goes i (.judged ⟨kind, state, caller, token, now, verdict,
        admission state caller (token.bind fun t => verdict.map fun v => (t, v))⟩))
    | _, _ => none
  | .admits i =>
    match p.visits i with
    | .judged j =>
      match j.result with
      | .ok verified => some { p.goes i (.admitted j) with
          known := p.known.record j.caller (.ok verified.principal) }
      | .error refused =>
        let dropped := decide (j.kind = .fetch) &&
          (refused.banned || j.state.policy.bansNode j.caller)
        some (((p.goes i (.refused j dropped)).settle j.kind).drop j.caller dropped)
    | _ => none
  | .again i =>
    match p.visits i with
    | .admitted j =>
      if j.kind = .fetch then
        (p.host.step path config me (fun _ => .error "") (.call (.push i))).map fun host =>
          { p.goes i (.deciding j) with host }
      else none
    | _ => none
  | .decide i =>
    match p.visits i, p.host.tasks (.push i) with
    | .deciding j, .holds state => some (p.goes i (.decided (authorizePush allow p.known j (some state))))
    | .deciding j, .failed _ => some (p.goes i (.decided (authorizePush allow p.known j none)))
    | _, _ => none
  | .answer i =>
    match p.visits i with
    | .decided d =>
      match d.answer with
      | .ok _ =>
        if p.fetching d.caller ≥ MAX_FETCHES_PER_NODE then
          some ((p.goes i (.denied d TOO_MANY_FETCHES false)).settle .fetch)
        else some { (p.goes i (.polls d)).settle .fetch with
          fetching := Function.update p.fetching d.caller (p.fetching d.caller + 1) }
      | .error (.notAdmitted _) =>
        some (((p.goes i (.denied d NOT_ADMITTED true)).settle .fetch).drop d.caller true)
      | .error (.refused _) => some ((p.goes i (.denied d INBOX_REFUSED false)).settle .fetch)
    | _ => none
  | .look i nowMs timedOut =>
    match p.visits i with
    | .polls d =>
      let batch := p.queue.pending d.caller nowMs MAX_BATCH
      if batch ≠ [] ∨ timedOut = true then some (p.goes i (.delivers d batch)) else some p
    | _ => none
  | .ack i ids =>
    match p.visits i with
    | .delivers d _ => some { (p.goes i (.fetched d)).close d.caller with
        queue := (p.queue.remove d.caller ids).2 }
    | _ => none
  | .leave i =>
    match p.visits i with
    | .polls d => some ((p.goes i (.gone none)).close d.caller)
    | .delivers d _ => some ((p.goes i (.gone none)).close d.caller)
    | _ => none

end PushHost

end Wires
