import Wires.Impl.Directory

/-!
# Following the policy

`wires/host/freshness.rs`, the words a host shows for the head it decides
under, and `Follower::take` of `wires/host/follow.rs`, what its subscription
does with a frame. A take verifies the frame, reads the held version, adopts
the policy it brings (through this host's own directory, when it runs one) and
offers its word for the head it then reads: each a step of its own, and between
any two of them other tasks adopt, announce and offer. `Following.step` is one
step of the take, of a call of `adopt_if_newer`, or of another task.
-/

namespace Wires

variable [Crypto]

/-! ## The host's freshness -/

/-- `Freshness`: the newest word of each directory, in memory and in `fresh.json`. -/
structure Freshness where
  held : FreshSet
  file : List Fresh

namespace Freshness

/-- `Freshness::load`, from the words in `fresh.json` (none: it is missing or unreadable). -/
def load (words : List Fresh) (head : Option SignedPolicyHead) : Freshness :=
  ⟨(head.map (FreshSet.fromUnverified words)).getD FreshSet.empty, words⟩

/-- `Freshness::offer`: its answer, and the words after it; `written` is what became of writing
`fresh.json`. -/
def offer (f : Freshness) (fresh : Fresh) (head : SignedPolicyHead) (now : Int64)
    (written : Except Anyhow Unit) : Except Anyhow Bool × Freshness :=
  match fresh.toVerified head with
  | .error e => (.error ["the freshness doesn't vouch for the held head", e.display], f)
  | .ok v =>
    match f.held.insert v now with
    | (_, false) => (.ok false, f)
    | (held, true) =>
      match written with
      | .ok () => (.ok true, ⟨held, held.iter⟩)
      | .error e => (.error e, { f with held })

/-- The text of `fresh.json`. -/
def text (words : List Fresh) : List Char := jsonText words ++ ['\n']

/-- The words in `fresh.json` with this text. -/
def words (cs : List Char) : List Fresh := (readText (trim cs)).getD []

end Freshness

namespace Directory

/-! ## A frame -/

/-- A frame of the subscription to `dir`, and the clock when it is taken. A policy in it is decoded
from a message, so its email patterns are results of parsing. -/
structure Incoming where
  dir : NodeId
  frame : SubFrame
  now : Int64
  parsed : ∀ policy fresh, frame = .policy policy fresh → policy.Parsed

/-- The policy a frame brings. -/
def Incoming.candidate (x : Incoming) : Option Candidate :=
  match h : x.frame with
  | .policy policy fresh => some ⟨policy, x.parsed policy fresh h⟩
  | _ => none

/-- Why a frame is not taken. -/
inductive TakeError where
  /-- `Behind`: it is for an older head than the one held. -/
  | behind (theirs ours : StateVersion)
  | failed (why : Anyhow)

/-- What `take` asks of a frame before it concludes anything from it, and the frame's word. -/
def checkFrame (root dir : NodeId) : SubFrame → Except Anyhow Fresh
  | .denied reason => .error ["refused: " ++ reason]
  | .policy policy fresh => do
    context "the policy's head doesn't verify" (anyhow (policy.head.verify root))
    context "the freshness doesn't vouch for the policy's head" (anyhow (fresh.verify policy.head))
    return fresh
  | .fresh fresh => do
    context "the beat's signature doesn't verify" (anyhow fresh.verifySignature)
    ensure (¬(fresh.directory ≠ dir ∨ fresh.fabric ≠ root))
      ["a beat that isn't the followed directory's own"]
    return fresh

/-- `Follower::held_version` (0: none, or none that can be read). -/
def heldVersionOf {root : NodeId} : Except Anyhow (Option (Held root)) → StateVersion
  | .ok (some held) => held.version
  | _ => 0

/-! ## Taking it -/

/-- Where the follower's task is. -/
inductive TakeStage (root : NodeId) (ι : Type) where
  | idle
  /-- The frame is verified; the held version is not read. -/
  | reads (x : Incoming) (fresh : Fresh)
  /-- The policy it brings is to be adopted. -/
  | adopts (x : Incoming) (fresh : Fresh) (candidate : Candidate)
  /-- `adopt_if_newer` is called, as call `i`. -/
  | awaits (x : Incoming) (fresh : Fresh) (candidate : Candidate) (i : ι)
  /-- What is held is to be read again, and the word kept if it is for that. -/
  | vouches (x : Incoming) (fresh : Fresh)
  /-- It is, and is to be offered. -/
  | offers (x : Incoming) (fresh : Fresh) (held : Held root)
  | took (x : Incoming) (result : Except TakeError Unit)

/-- A host: its store and the calls adopting into it, what its own directory announces, when it
runs one, its freshness, and its follower. -/
structure Following (root : NodeId) (ι : Type) where
  store : Adopt ι
  current : Option (Current root)
  freshness : Freshness
  stage : TakeStage root ι

/-- A step of a call on the store, of another task, or of the follower. -/
inductive FollowEvent (root : NodeId) (ι : Type) where
  | store (e : AdoptEvent ι)
  /-- Another task of this host's directory announces. -/
  | announces (current : Current root)
  /-- Another task offers a word. -/
  | offers (fresh : Fresh) (head : SignedPolicyHead) (now : Int64) (written : Except Anyhow Unit)
  | take (x : Incoming)
  /-- `held_version` reads the store, or fails to. -/
  | version (readable : Bool)
  /-- Call `adopt_if_newer`: as it is, or through this host's directory, under its writer lock. -/
  | adopt (i : ι)
  /-- The writer lock is poisoned. -/
  | poisoned (why : Anyhow)
  /-- `adopt_if_newer` has returned; `accept` reads the store after it, unless that fails. -/
  | adopted (fault : Option Anyhow)
  /-- `vouch` reads the store, unless that fails. -/
  | vouch (fault : Option Anyhow)
  /-- `vouch` offers the word; `written` is what became of writing `fresh.json`. -/
  | offer (written : Except Anyhow Unit)

namespace Following

variable {root : NodeId} {ι : Type} [DecidableEq ι]

/-- The version this host's directory announces (0: none). -/
def version (s : Following root ι) : StateVersion := (s.current.map fun c => c.held.version).getD 0

/-- The take ends in an error. -/
def fails (s : Following root ι) (x : Incoming) (why : Anyhow) : Following root ι :=
  { s with stage := .took x (.error (.failed why)) }

/-- `adopt_if_newer` is called. -/
def calls (path : String) (s : Following root ι) (x : Incoming) (fresh : Fresh) (c : Candidate)
    (i : ι) : Option (Following root ι) := do
  let store ← s.store.step path root (.call i c x.now)
  return { s with store, stage := .awaits x fresh c i }

/-- `Directory::accept`, once `adopt_if_newer` has left the store as it is: what is read there is
announced if it is newer. -/
def accepted (s : Following root ι) (path : String) (me : NodeIdentity) (x : Incoming)
    (fresh : Fresh) : Following root ι :=
  match read path root s.store.file with
  | .error e => s.fails x e
  | .ok none => { s with stage := .vouches x fresh }
  | .ok (some held) =>
    if held.version > s.version then
      { s with current := some ⟨held, signFresh me held x.now⟩, stage := .vouches x fresh }
    else { s with stage := .vouches x fresh }

/-- One step of the host; `own` is the key of the directory it runs, if it runs one. -/
def step (path : String) (own : Option NodeIdentity) (s : Following root ι) :
    FollowEvent root ι → Option (Following root ι)
  | .store e => (s.store.step path root e).map fun store => { s with store }
  | .announces current =>
    -- the follower has the writer lock while its call is out
    match own, s.stage with
    | none, _ => none
    | some _, .awaits .. => none
    | some _, _ => some { s with current := some current }
  | .offers fresh head now written =>
    some { s with freshness := (s.freshness.offer fresh head now written).2 }
  | .take x =>
    let begins : Following root ι := match checkFrame root x.dir x.frame with
      | .error e => s.fails x e
      | .ok fresh => { s with stage := .reads x fresh }
    match s.stage with
    | .idle | .took .. => some begins
    | _ => none
  | .version readable =>
    match s.stage with
    | .reads x fresh =>
      let held := if readable then heldVersionOf (read path root s.store.file) else 0
      if fresh.version < held then
        some { s with stage := .took x (.error (.behind fresh.version held)) }
      else match x.candidate with
        | some c => some { s with stage := .adopts x fresh c }
        | none => some { s with stage := .vouches x fresh }
    | _ => none
  | .adopt i =>
    match s.stage, own with
    | .adopts x fresh c, none => s.calls path x fresh c i
    | .adopts x fresh c, some _ =>
      match checkCandidate root c.policy x.now with
      | .error e => some (s.fails x e)
      | .ok _ =>
        if c.policy.version ≤ s.version then some { s with stage := .vouches x fresh }
        else s.calls path x fresh c i
    | _, _ => none
  | .poisoned why =>
    match s.stage, own with
    | .adopts x _ _, some _ => some (s.fails x why)
    | _, _ => none
  | .adopted fault =>
    match s.stage with
    | .awaits x fresh _ i =>
      match s.store.calls i with
      | some ⟨_, _, .returned (.error e)⟩ => some (s.fails x e)
      | some ⟨_, _, .returned (.ok _)⟩ =>
        match own, fault with
        | none, _ => some { s with stage := .vouches x fresh }
        | some _, some why => some (s.fails x why)
        | some me, none => some (s.accepted path me x fresh)
      | _ => none
    | _ => none
  | .vouch fault =>
    match s.stage with
    | .vouches x fresh =>
      match fault, read path root s.store.file with
      | some why, _ => some (s.fails x why)
      | none, .error e => some (s.fails x e)
      | none, .ok none => some { s with stage := .took x (.ok ()) }
      | none, .ok (some held) =>
        if fresh.version ≠ held.version then some { s with stage := .took x (.ok ()) }
        else some { s with stage := .offers x fresh held }
    | _ => none
  | .offer written =>
    match s.stage with
    | .offers x fresh held =>
      match s.freshness.offer fresh held.signed.head x.now written with
      | (.ok _, freshness) => some { s with freshness, stage := .took x (.ok ()) }
      | (.error e, freshness) => some { s.fails x e with freshness }
    | _ => none

/-- A host started on a file: its directory has read what is stored, and its freshness what is in
`fresh.json`. -/
def start (file : PolicyFile) (current : Option (Current root)) (freshness : Freshness) :
    Following root ι :=
  ⟨Adopt.start file, current, freshness, .idle⟩

end Following

end Directory

end Wires
