import Wires.Framework.Run
import Wires.Impl.DirectoryFrame
import Wires.Impl.HeldView

/-!
# A directory

`wires/directory/node.rs`: what a directory holds (`Current`), its word for it
(`signFresh`), and `open`, `beat`, `accept` and `publish` as the steps of its
tasks. `Node` is a directory with its store, which other writers adopt into
too; `Node.step` is one step of one task, or of one writer. A task's clock is
read once, when it is called.
-/

namespace Wires

/-- The largest reason put on the wire. -/
def MAX_REASON : Nat := 512

/-- `transport::truncate_reason`. -/
def truncateReason (s : String) : String :=
  if byteLen s > MAX_REASON then String.ofList (truncateAt MAX_REASON s.toList) else s

namespace Directory

/-- What a directory holding no policy answers every request but a publish. -/
def EMPTY : String :=
  "this directory holds no policy yet: it is waiting for the admin's first publish " ++
    "(`wires policy push`)"

variable [Crypto]

/-- `node::Current`: the newest policy, and this directory's word for it. -/
structure Current (root : NodeId) where
  held : Held root
  fresh : Option Fresh

section

variable {root : NodeId}

/-- `Directory::sign_fresh`. -/
def signFresh (me : NodeIdentity) (held : Held root) (now : Int64) : Option Fresh :=
  match held.checkFresh now with
  | .error _ => none
  | .ok () =>
    let secs := i64OfU32 held.policy.settings.freshSecs
    match Fresh.sign me held.signed.head now (satAdd now secs) with
    | .ok f => some f
    | .error _ => none

/-- What `check_head` makes of a publish's head. -/
inductive HeadCheck where
  | wanted
  | held (version : StateVersion) (head : HeadHash)
  | refused (reason : String)

/-- `Directory::check_head`. -/
def checkHead (root : NodeId) (current : Option (Current root)) (head : SignedPolicyHead)
    (now : Int64) : HeadCheck :=
  match head.verify root with
  | .error e => .refused ("the published head does not verify: " ++ e.display)
  | .ok () =>
    match head.checkFresh now with
    | .error e => .refused ("the published policy has expired: " ++ e.display)
    | .ok () =>
      match current with
      | some c =>
        if head.head.version ≤ c.held.version then .held c.held.version c.held.signed.head.hash
        else .wanted
      | none => .wanted

/-- What `accept` asks of a candidate before it takes the writer lock. -/
def checkCandidate (root : NodeId) (candidate : SignedPolicy) (now : Int64) :
    Except Anyhow (Held root) := do
  let held ← Held.verify candidate root
  context "the published policy has expired" (anyhow (held.checkFresh now))
  return held

/-- The answer to a publish: what the directory then holds, or why it was refused. -/
def published (current : Option (Current root)) : Except Anyhow Bool → Answer
  | .error e => .denied (truncateReason ("the published policy was refused: " ++ oneLine e))
  | .ok _ =>
    match current with
    | some c => .published c.held.version c.held.signed.head.hash
    | none => .denied EMPTY

end

/-! ## Its tasks -/

/-- What a task of the writer lock does. -/
inductive Job where
  | beat
  | accept (candidate : Candidate)
  /-- The second half of a publish. -/
  | publish (candidate : Candidate)

/-- The candidate a job takes. -/
def Job.candidate : Job → Option Candidate
  | .beat => none
  | .accept c | .publish c => some c

/-- Where a job is. -/
inductive JobStage (root : NodeId) where
  /-- The writer lock is not taken. -/
  | waits
  /-- `adopt_if_newer` is called, and the store not read after it. -/
  | adopts
  /-- The word is signed; what it is for is not announced. -/
  | announces (held : Held root) (fresh : Option Fresh)
  | returned (result : Except Anyhow Bool)

/-- A call on the directory. -/
inductive Call (root : NodeId) where
  /-- A publish whose head checked out, and whose items are awaited. -/
  | wants (head : SignedPolicyHead)
  | job (job : Job) (now : Int64) (stage : JobStage root)
  | answered (answer : Answer)

/-- A directory: the store and the calls adopting into it, the watched value, the task with the
writer lock, and the calls made. -/
structure Node (root : NodeId) (ι : Type) where
  store : Adopt ι
  current : Option (Current root)
  writer : Option ι
  calls : ι → Option (Call root)

/-- A step of the store, of a restart, or of one of the directory's calls. -/
inductive NodeEvent (ι : Type) where
  | store (e : AdoptEvent ι)
  /-- `open`, up to its first beat; the calls of a directory that ran before are gone. -/
  | opens
  | beat (i : ι) (now : Int64)
  | accept (i : ι) (candidate : Candidate) (now : Int64)
  /-- `check_head` of a publish's head. -/
  | publish (i : ι) (head : SignedPolicyHead) (now : Int64)
  /-- `publish`, once the items are read. -/
  | items (i : ι) (items : List Item) (parsed : ∀ j ∈ items, j.Parsed) (now : Int64)
  /-- Take the writer lock, and do what is done at once under it. -/
  | lock (i : ι)
  /-- Read the store after `adopt_if_newer`, and sign. -/
  | read (i : ι)
  | announce (i : ι)
  /-- Read what is held, for a publish's answer. -/
  | answer (i : ι)
  /-- The lock is poisoned, or reading the store fails. -/
  | fails (i : ι) (why : Anyhow)

namespace Node

variable {root : NodeId} {ι : Type} [DecidableEq ι]

/-- `Directory::version`: the version it holds (0: none). -/
def version (n : Node root ι) : StateVersion := (n.current.map fun c => c.held.version).getD 0

/-- Call `i` comes to be. -/
def goes (n : Node root ι) (i : ι) (c : Call root) : Node root ι :=
  { n with calls := Function.update n.calls i (some c) }

/-- Job `i` returns and lets the writer lock go. -/
def returns (n : Node root ι) (i : ι) (job : Job) (now : Int64) (r : Except Anyhow Bool) :
    Node root ι :=
  { n.goes i (.job job now (.returned r)) with writer := none }

/-- A job is called: `accept` first looks at its candidate. -/
def enters (n : Node root ι) (i : ι) (job : Job) (now : Int64) : Node root ι :=
  match job.candidate with
  | none => n.goes i (.job job now .waits)
  | some c =>
    match checkCandidate root c.policy now with
    | .ok _ => n.goes i (.job job now .waits)
    | .error e => n.goes i (.job job now (.returned (.error e)))

/-- Under the writer lock, a job that has just taken it: a beat signs for what is held, an
`accept` of something newer calls `adopt_if_newer`. -/
def locked (path : String) (me : NodeIdentity) (n : Node root ι) (i : ι) (job : Job) (now : Int64) :
    Option (Node root ι) :=
  match job.candidate with
  | none =>
    match n.current with
    | none => some (n.returns i job now (.ok false))
    | some c => some { n.goes i (.job job now (.announces c.held (signFresh me c.held now))) with
        writer := some i }
  | some c =>
    if c.policy.version ≤ n.version then some (n.returns i job now (.ok false))
    else do
      let store ← n.store.step path root (.call i c now)
      return { n.goes i (.job job now .adopts) with store, writer := some i }

/-- Under the writer lock, after `adopt_if_newer`. -/
def adopted (path : String) (me : NodeIdentity) (n : Node root ι) (i : ι) (job : Job) (now : Int64) :
    Except Anyhow Bool → Node root ι
  | .error e => n.returns i job now (.error e)
  | .ok _ =>
    match Wires.read path root n.store.file with
    | .error e => n.returns i job now (.error e)
    | .ok none => n.returns i job now (.ok false)
    | .ok (some held) =>
      if held.version > n.version then
        n.goes i (.job job now (.announces held (signFresh me held now)))
      else n.returns i job now (.ok false)

/-- What `adopt_if_newer` returned to call `i`. -/
def adoptResult (n : Node root ι) (i : ι) : Option (Except Anyhow Bool) :=
  match n.store.calls i with
  | some ⟨_, _, .returned r⟩ => some r
  | _ => none

/-- One step of a directory, or of another writer of its store. -/
def step (path : String) (me : NodeIdentity) (n : Node root ι) : NodeEvent ι → Option (Node root ι)
  | .store e => (n.store.step path root e).map fun store => { n with store }
  | .opens =>
    match Wires.read path root n.store.file with
    | .error _ => none
    | .ok held => some ⟨n.store, held.map (⟨·, none⟩), none, fun _ => none⟩
  | .beat i now =>
    match n.calls i with
    | none => some (n.enters i .beat now)
    | some _ => none
  | .accept i candidate now =>
    match n.calls i with
    | none => some (n.enters i (.accept candidate) now)
    | some _ => none
  | .publish i head now =>
    match n.calls i with
    | none => some (n.goes i (match checkHead root n.current head now with
      | .wanted => .wants head
      | .held version hash => .answered (.published version hash)
      | .refused reason => .answered (.denied (truncateReason reason))))
    | some _ => none
  | .items i items parsed now =>
    match n.calls i with
    | some (.wants head) => some (n.enters i (.publish ⟨⟨head, items⟩, parsed⟩) now)
    | _ => none
  | .lock i =>
    match n.calls i, n.writer with
    | some (.job job now .waits), none => n.locked path me i job now
    | _, _ => none
  | .read i =>
    match n.calls i, n.adoptResult i with
    | some (.job job now .adopts), some r => some (n.adopted path me i job now r)
    | _, _ => none
  | .announce i =>
    match n.calls i with
    | some (.job job now (.announces held fresh)) =>
      some { n.returns i job now (.ok true) with current := some ⟨held, fresh⟩ }
    | _ => none
  | .answer i =>
    match n.calls i with
    | some (.job (.publish _) _ (.returned r)) => some (n.goes i (.answered (published n.current r)))
    | _ => none
  | .fails i why =>
    match n.calls i, n.adoptResult i with
    | some (.job job now .waits), _ => some (n.goes i (.job job now (.returned (.error why))))
    | some (.job job now .adopts), some _ => some (n.returns i job now (.error why))
    | _, _ => none

/-- A directory opened on a file, with nothing called yet. -/
def start (file : PolicyFile) (held : Option (Held root)) : Node root ι :=
  ⟨Adopt.start file, held.map (⟨·, none⟩), none, fun _ => none⟩

end Node

end Directory

end Wires
