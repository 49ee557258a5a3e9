import Wires.Impl.InboxFrame

/-!
# The push queue

`Queue` of `wires/host/push.rs`: what a host has to push, first in first out
for each recipient. An operation answers with what it took out.
-/

namespace Wires

def QUEUE_PER_RECIPIENT : Nat := 64

/-- `PushMessage::is_expired`. -/
def PushMessage.isExpired (m : PushMessage) (nowMs : Int64) : Bool := nowMs ≥ m.expiresMs

/-- A queued message, with who it was admitted as. -/
structure Entry where
  message : PushMessage
  principal : Option Principal
  role : Option String
deriving DecidableEq

/-- `Queue`: a recipient's entries are oldest first. -/
structure Queue where
  byRecipient : SortedMap NodeId (List Entry)
deriving DecidableEq

namespace Queue

/-- What is queued for a recipient. -/
def of (q : Queue) (node : NodeId) : List Entry := (q.byRecipient.get? node).getD []

/-- `Queue::insert`: the oldest entry is dropped to stay within `cap`. -/
def insert (q : Queue) (entry : Entry) (cap : Nat) : Option Entry × Queue :=
  let node := entry.message.recipient
  let es := q.of node ++ [entry]
  if es.length > cap then (es.head?, ⟨q.byRecipient.insert node es.tail⟩)
  else (none, ⟨q.byRecipient.insert node es⟩)

/-- `Queue::pending`. -/
def pending (q : Queue) (node : NodeId) (nowMs : Int64) (max : Nat) : List PushMessage :=
  (((q.of node).filter fun e => !e.message.isExpired nowMs).take max).map (·.message)

/-- `Queue::remove`. -/
def remove (q : Queue) (node : NodeId) (ids : List PushId) : List Entry × Queue :=
  match q.byRecipient.get? node with
  | none => ([], q)
  | some es =>
    let (gone, kept) := es.partition fun e => ids.contains e.message.id
    (gone, ⟨if kept = [] then q.byRecipient.erase node else q.byRecipient.insert node kept⟩)

/-- `Queue::expire`. -/
def expire (q : Queue) (nowMs : Int64) : List Entry × Queue :=
  (q.byRecipient.values.flatMap fun es => es.filter fun e => e.message.isExpired nowMs,
    ⟨q.byRecipient.filterMap fun _ es =>
      let kept := es.filter fun e => !e.message.isExpired nowMs
      if kept = [] then none else some kept⟩)

/-- `Queue::purge`. -/
def purge (q : Queue) (node : NodeId) : List Entry × Queue := (q.of node, ⟨q.byRecipient.erase node⟩)

end Queue

end Wires
