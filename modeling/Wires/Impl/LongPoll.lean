import Wires.Impl.Queue

/-!
# The long poll

The loop of `wires/host/push.rs`'s `serve_fetch`, for a fetch that is admitted,
beside `send`, which queues a message and then notifies: every task takes its
steps one by one. A loop arms itself, looks into the queue under its lock, reads
its clock once the lock is dropped, and sleeps until it is woken or its wait is
over. What is taken out of the queue is what acknowledged deliveries and fetches,
`drop_queue` and the sweep take.
-/

namespace Wires

/-- The longest a fetch is held open, in milliseconds. -/
def FETCH_WAIT_MAX : Nat := 25 * 1000

/-! ## Notifications -/

/-- tokio's `Notify`: of each waiter that is armed, whether it was woken since. -/
abbrev Notify (ι : Type) := ι → Option Bool

namespace Notify

variable {ι : Type} [DecidableEq ι]

/-- `Notified::enable`. -/
def enable (n : Notify ι) (i : ι) : Notify ι := Function.update n i (some false)

/-- A waiter that is dropped. -/
def drop (n : Notify ι) (i : ι) : Notify ι := Function.update n i none

omit [DecidableEq ι] in
/-- `notify_waiters`: all that are armed are woken. -/
def notifyWaiters (n : Notify ι) : Notify ι := fun i => (n i).map fun _ => true

end Notify

/-! ## Tasks -/

/-- Where the send of a message to one recipient is. -/
inductive SendStage where
  | idle
  /-- It is queued, and the waiters are not notified yet. -/
  | queued (entry : Entry)
  | notified (entry : Entry)

/-- Where a fetch is. -/
inductive PollStage where
  | idle
  | arms (node : NodeId) (until_ : Nat)
  | looks (node : NodeId) (until_ : Nat)
  /-- It found `batch` when the clock read `lookedMs`; whether its wait is over, it has not read yet. -/
  | looked (node : NodeId) (until_ : Nat) (batch : List PushMessage) (lookedMs : Int64)
  /-- It found nothing when the clock read `lookedMs`. -/
  | sleeps (node : NodeId) (until_ : Nat) (lookedMs : Int64)
  | delivers (node : NodeId) (batch : List PushMessage)
  | done

/-- The queue, the two clocks (the wall's, and the one that waits go by), and the tasks. -/
structure LongPoll (ι : Type) where
  queue : Queue
  nowMs : Int64
  instant : Nat
  arrived : Notify ι
  sends : ι → SendStage
  fetches : ι → PollStage

/-- A step of one of the tasks, or of the clocks. -/
inductive PollEvent (ι : Type) where
  /-- The wall's clock is set to anything. -/
  | tick (nowMs : Int64) (instant : Nat)
  | enqueue (i : ι) (entry : Entry)
  | notify (i : ι)
  /-- A direct delivery is acknowledged. -/
  | delivered (node : NodeId) (ids : List PushId)
  | dropQueue (node : NodeId)
  | sweep
  | fetch (i : ι) (node : NodeId) (waitMs : UInt64)
  | arm (i : ι)
  | look (i : ι)
  /-- Whether its wait is over. -/
  | settle (i : ι)
  | wake (i : ι)
  | timeout (i : ι)
  | ack (i : ι) (ids : List PushId)
  /-- The stream fails. -/
  | leave (i : ι)

namespace LongPoll

variable {ι : Type} [DecidableEq ι]

omit [DecidableEq ι] in
/-- A host that starts with what its queue's file holds. -/
def start (queue : Queue) (nowMs : Int64) (instant : Nat) : LongPoll ι :=
  ⟨queue, nowMs, instant, fun _ => none, fun _ => .idle, fun _ => .idle⟩

/-- Fetch `i` comes to a stage. -/
def goes (s : LongPoll ι) (i : ι) (stage : PollStage) : LongPoll ι :=
  { s with fetches := Function.update s.fetches i stage }

/-- Fetch `i` comes to a stage in which it waits for nothing. -/
def leaves (s : LongPoll ι) (i : ι) (stage : PollStage) : LongPoll ι :=
  { s.goes i stage with arrived := s.arrived.drop i }

/-- One step of one task, or of the clocks. -/
def step (s : LongPoll ι) : PollEvent ι → Option (LongPoll ι)
  | .tick nowMs instant => if s.instant ≤ instant then some { s with nowMs, instant } else none
  | .enqueue i entry =>
    match s.sends i with
    | .idle => some { s with
        queue := (s.queue.insert entry QUEUE_PER_RECIPIENT).2
        sends := Function.update s.sends i (.queued entry) }
    | _ => none
  | .notify i =>
    match s.sends i with
    | .queued entry => some { s with
        arrived := s.arrived.notifyWaiters
        sends := Function.update s.sends i (.notified entry) }
    | _ => none
  | .delivered node ids => some { s with queue := (s.queue.remove node ids).2 }
  | .dropQueue node => some { s with queue := (s.queue.purge node).2 }
  | .sweep => some { s with queue := (s.queue.expire s.nowMs).2 }
  | .fetch i node waitMs =>
    match s.fetches i with
    | .idle => some (s.goes i (.arms node (s.instant + min waitMs.toNat FETCH_WAIT_MAX)))
    | _ => none
  | .arm i =>
    match s.fetches i with
    | .arms node until_ => some { s.goes i (.looks node until_) with arrived := s.arrived.enable i }
    | _ => none
  | .look i =>
    match s.fetches i with
    | .looks node until_ =>
      some (s.goes i (.looked node until_ (s.queue.pending node s.nowMs MAX_BATCH) s.nowMs))
    | _ => none
  | .settle i =>
    match s.fetches i with
    | .looked node until_ batch lookedMs =>
      if batch ≠ [] ∨ s.instant ≥ until_ then some (s.leaves i (.delivers node batch))
      else some (s.goes i (.sleeps node until_ lookedMs))
    | _ => none
  | .wake i =>
    match s.fetches i with
    | .sleeps node until_ _ =>
      if s.arrived i = some true then some (s.leaves i (.arms node until_)) else none
    | _ => none
  | .timeout i =>
    match s.fetches i with
    | .sleeps node until_ _ =>
      if s.instant ≥ until_ then some (s.leaves i (.arms node until_)) else none
    | _ => none
  | .ack i ids =>
    match s.fetches i with
    | .delivers node _ => some { s.goes i .done with queue := (s.queue.remove node ids).2 }
    | _ => none
  | .leave i => some (s.leaves i .done)

end LongPoll

end Wires
