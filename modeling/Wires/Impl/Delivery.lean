import Wires.Framework.Run
import Wires.Impl.Queue

/-!
# Deliveries

What `PushHost` of `wires/host/push.rs` does with its queue: `send` and the
direct delivery that follows (`deliver_direct`), the end of a fetch
(`serve_fetch`), `drop_queue` and `sweep`. Any number of them run at once, and
share the queue and the file it is kept in; each change is one step, under the
queue's lock (`with_queue`). Who may be pushed to is decided elsewhere: here it
is the environment's.
-/

namespace Wires

/-- What became of a message. -/
inductive PushOutcome where
  | queued
  | delivered
  | fetched
  | expired
  | dropped
  | denied
deriving DecidableEq

/-- Where a send, with its direct delivery, or a fetch is. -/
inductive DeliveryTask where
  | idle
  /-- A message to a recipient that may be pushed to, about to be queued. -/
  | sends (entry : Entry)
  /-- `deliver_direct` asks again whether the recipient may be pushed to. -/
  | delivers (node : NodeId)
  /-- It may: about to look what is queued. -/
  | looks (node : NodeId)
  /-- An authorized fetch waits for something to be queued. -/
  | polls (node : NodeId)
  /-- The batch was handed over on a connection of `node`'s, and its ack is to come. -/
  | awaits (node : NodeId) (batch : List PushMessage) (how : PushOutcome)
  | done

/-- The queue, the file it was last saved to (none so far), and the tasks. -/
structure Pushing (ι : Type) where
  queue : Queue
  saved : Option Queue
  tasks : ι → DeliveryTask

/-- A step of one task, or of the sweep. -/
inductive DeliveryEvent (ι : Type) where
  | send (i : ι) (entry : Entry)
  | enqueue (i : ι)
  /-- `authorize`'s answer before a direct delivery: `some banned` is a refusal. -/
  | authorize (i : ι) (refusal : Option Bool)
  | look (i : ι) (nowMs : Int64)
  /-- A fetch is authorized. -/
  | fetch (i : ι) (node : NodeId)
  /-- It looks into the queue; the flag says whether its wait is over. -/
  | poll (i : ι) (nowMs : Int64) (timedOut : Bool)
  /-- A fetch is refused for a ban. -/
  | refuse (i : ι) (node : NodeId)
  | ack (i : ι) (ids : List PushId)
  /-- It times out, or its stream fails. -/
  | leave (i : ι)
  | sweep (nowMs : Int64)

namespace Pushing

variable {ι : Type} [DecidableEq ι]

/-- A host that starts with the queue it finds in its file, if there is one. -/
def start (saved : Option Queue) : Pushing ι := ⟨saved.getD ⟨∅⟩, saved, fun _ => .idle⟩

/-- Task `i` comes to a stage. -/
def goes (s : Pushing ι) (i : ι) (task : DeliveryTask) : Pushing ι :=
  { s with tasks := Function.update s.tasks i task }

/-- `with_queue`: the queue is changed, and saved. -/
def withQueue (s : Pushing ι) (q : Queue) : Pushing ι := { s with queue := q, saved := some q }

/-- `drop_queue`. -/
def dropQueue (s : Pushing ι) (node : NodeId) : List (Entry × PushOutcome) × Pushing ι :=
  let (gone, q) := s.queue.purge node
  (gone.map fun e => (e, .denied), s.withQueue q)

/-- One step: what it traces as gone from the queue, and what it leaves. -/
def act (s : Pushing ι) : DeliveryEvent ι → Option (List (Entry × PushOutcome) × Pushing ι)
  | .send i entry =>
    match s.tasks i with
    | .idle => some ([], s.goes i (.sends entry))
    | _ => none
  | .enqueue i =>
    match s.tasks i with
    | .sends entry =>
      let (gone, q) := s.queue.insert entry QUEUE_PER_RECIPIENT
      some (gone.toList.map fun e => (e, .dropped),
        (s.goes i (.delivers entry.message.recipient)).withQueue q)
    | _ => none
  | .authorize i refusal =>
    match s.tasks i with
    | .delivers node =>
      match refusal with
      | none => some ([], s.goes i (.looks node))
      | some true => some ((s.goes i .done).dropQueue node)
      | some false => some ([], s.goes i .done)
    | _ => none
  | .look i nowMs =>
    match s.tasks i with
    | .looks node =>
      let batch := s.queue.pending node nowMs MAX_BATCH
      some ([], s.goes i (if batch = [] then .done else .awaits node batch .delivered))
    | _ => none
  | .fetch i node =>
    match s.tasks i with
    | .idle => some ([], s.goes i (.polls node))
    | _ => none
  | .poll i nowMs timedOut =>
    match s.tasks i with
    | .polls node =>
      let batch := s.queue.pending node nowMs MAX_BATCH
      some ([], if batch ≠ [] ∨ timedOut = true then s.goes i (.awaits node batch .fetched) else s)
    | _ => none
  | .refuse i node =>
    match s.tasks i with
    | .idle => some ((s.goes i .done).dropQueue node)
    | _ => none
  | .ack i ids =>
    match s.tasks i with
    | .awaits node _ how =>
      let (gone, q) := s.queue.remove node ids
      some (gone.map fun e => (e, how), (s.goes i .done).withQueue q)
    | _ => none
  | .leave i => some ([], s.goes i .done)
  | .sweep nowMs =>
    let (gone, q) := s.queue.expire nowMs
    some (gone.map fun e => (e, .expired), if gone = [] then { s with queue := q } else s.withQueue q)

/-- What a step leaves. -/
def step (s : Pushing ι) (e : DeliveryEvent ι) : Option (Pushing ι) := (s.act e).map Prod.snd

end Pushing

end Wires
