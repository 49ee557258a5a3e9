import Wires.Impl.Directory
import Wires.Impl.Session

/-!
# A network on one clock

The directories of a network and its callers, each going on by its own steps
(`Directory.Node.step`, `ServiceCall.step`, `InboxFetch.step`), on one clock:
who reads it reads what it shows. The words each directory has signed are kept,
newest first, so that a word in anybody's hands can be held against them. How
words and heads travel is left open: what a caller starts with, is refreshed to
and is shown is the environment's.
-/

namespace Wires

variable [Crypto]

/-! ## Readings of the clock -/

/-- The clock a call on a directory reads, when it is made. -/
def Directory.NodeEvent.reading {ι : Type} : NodeEvent ι → Option Int64
  | .beat _ now => some now
  | .accept _ _ now => some now
  | .publish _ _ now => some now
  | .items _ _ _ now => some now
  | _ => none

/-- The word a directory's step signed, from where the step left it. -/
def Directory.Node.signs {root : NodeId} {ι : Type} (n : Node root ι) : NodeEvent ι → Option Fresh
  | .lock i | .read i =>
    match n.calls i with
    | some (.job _ _ (.announces _ fresh)) => fresh
    | _ => none
  | _ => none

/-- The clock while a stream is opened: as the caller reads it, or when it writes. -/
def SpeakEvent.reading {root : NodeId} : SpeakEvent root → Int64
  | .clock now => now
  | .wrote at_ _ => at_
  | .first _ now _ => now

/-! ## Callers -/

/-- What a caller is in touch with hosts for: a call of a service, or a fetch of its inbox. -/
inductive Contact (root : NodeId) where
  | call (service : ServiceName) (argv : List String) (c : ServiceCall root)
  | fetch (f : InboxFetch root)

/-- What happens to a contact. -/
inductive ContactEvent (root : NodeId) where
  | call (e : CallEvent root)
  | fetch (e : FetchEvent root)

/-- The clock the event reads. -/
def ContactEvent.reading {root : NodeId} : ContactEvent root → Option Int64
  | .call (.speak e) => some e.reading
  | .fetch (.speak e) => some e.reading
  | _ => none

namespace Contact

variable {root : NodeId}

def talk : Contact root → Talk root
  | .call _ _ c => c.talk
  | .fetch f => f.talk

/-- One step of `call_service_on`, or of `fetch_from`. -/
def step (idToken : IdToken) : Contact root → ContactEvent root → Option (Contact root)
  | .call service argv c, .call e => (c.step service argv idToken e).map fun c => .call service argv c
  | .fetch f, .fetch e => (f.step idToken e).map fun f => .fetch f
  | _, _ => none

/-- Nothing is dialed yet. -/
inductive Starts : Contact root → Prop
  | call (service : ServiceName) (argv : List String) (vouch : Vouching root)
    (targets : List NodeId) : Starts (.call service argv (.start vouch targets))
  | fetch (vouch : Vouching root) (waitMs : Nat) : Starts (.fetch (.start vouch waitMs))

end Contact

/-! ## The network -/

/-- The clock; each directory, and the words it has signed; and the callers' contacts. -/
structure Network (root : NodeId) (δ κ ι : Type) where
  clock : Int64
  nodes : δ → Directory.Node root ι
  signed : δ → List Fresh
  contacts : κ → Contact root

/-- The clock goes on, or somebody takes a step. -/
inductive NetworkEvent (root : NodeId) (δ κ ι : Type) where
  | tick (now : Int64)
  | node (d : δ) (e : Directory.NodeEvent ι)
  | contact (k : κ) (e : ContactEvent root)

namespace Network

variable {root : NodeId} {δ κ ι : Type} [DecidableEq δ] [DecidableEq κ] [DecidableEq ι]

/-- One step: the clock is never put back, and shows what is read of it. -/
def step (path : δ → String) (me : δ → NodeIdentity) (idToken : κ → IdToken) (n : Network root δ κ ι) :
    NetworkEvent root δ κ ι → Option (Network root δ κ ι)
  | .tick now => if n.clock ≤ now then some { n with clock := now } else none
  | .node d e =>
    if e.reading.all (· = n.clock) then
      ((n.nodes d).step (path d) (me d) e).map fun m => { n with
        nodes := Function.update n.nodes d m
        signed := Function.update n.signed d ((m.signs e).toList ++ n.signed d) }
    else none
  | .contact k e =>
    if e.reading.all (· = n.clock) then
      ((n.contacts k).step (idToken k) e).map fun c => { n with
        contacts := Function.update n.contacts k c }
    else none

end Network

end Wires
