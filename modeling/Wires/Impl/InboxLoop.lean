import Wires.Impl.Mailbox

/-!
# A catch-up from a host

`fetch_from` of `wires/caller/inbox.rs`, against `PushHost::serve_fetch` of
`wires/host/push.rs`: the caller fetches batch after batch, as long as they are
full, and acknowledges what it stored of each. The host goes by its clock, the
caller by its own. A refusal or a fault, which ends the loop, is left out.
-/

namespace Wires

/-- One round, by the clocks of the two: when the host looks what is queued and when the caller has
read it, and when the host's queue is swept before that look and after it. -/
structure FetchRound where
  sweeps : List Int64
  lookMs : Int64
  sweepsAfter : List Int64
  readMs : Int64

/-- The host's queue, the caller's mailbox, and how many messages were new to it. -/
structure CatchUp where
  queue : Queue
  box : Mailbox
  total : Nat

namespace CatchUp

/-- `sweep`, at each of these times. -/
def sweeps (q : Queue) (times : List Int64) : Queue := times.foldl (fun q t => (q.expire t).2) q

/-- What the host hands over in a round. -/
def batch (s : CatchUp) (me : NodeId) (r : FetchRound) : List PushMessage :=
  (sweeps s.queue r.sweeps).pending me r.lookMs MAX_BATCH

/-- What a round leaves: the host forgets what the caller acknowledged. -/
def round (s : CatchUp) (host me : NodeId) (r : FetchRound) : CatchUp :=
  let (box, out) := s.box.store (acceptable (s.batch me r) host me r.readMs)
  let queue := sweeps (sweeps s.queue r.sweeps) r.sweepsAfter
  ⟨(queue.remove me out.ids).2, box, s.total + out.fresh⟩

/-- `fetch_from`, for as many rounds as are given: `none` if it still goes on after them. -/
def fetchFrom (s : CatchUp) (host me : NodeId) : List FetchRound → Option CatchUp
  | [] => none
  | r :: rs =>
    if (s.batch me r).length ≥ MAX_BATCH then (s.round host me r).fetchFrom host me rs
    else some (s.round host me r)

end CatchUp

end Wires
