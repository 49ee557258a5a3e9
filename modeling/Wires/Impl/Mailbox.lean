import Mathlib.Data.List.Sort
import Mathlib.Logic.Function.Basic
import Wires.Framework.Run
import Wires.Impl.Queue

/-!
# The mailbox

`Mailbox` of `wires/caller/inbox.rs`: the messages hosts pushed to this caller,
one file each, named by their id, in `new/` until a reader takes them and in
`read/` after. Any number of processes and tasks store and take at once, with
nothing locked: between any two file operations of one, the others go on.
`Mailbox.store` is a store that runs alone.
-/

namespace Wires

def MAX_UNREAD : Nat := 256

def MAX_READ : Nat := 1024

/-- `acceptable`: what a peer may hand this node. -/
def acceptable (messages : List PushMessage) (peer me : NodeId) (nowMs : Int64) :
    List PushMessage :=
  messages.filter fun m => m.sender = peer && m.recipient = me && !m.isExpired nowMs

/-- What the mailbox's files are sorted by. -/
def PushMessage.age (m : PushMessage) : Int64 × PushId := (m.atMs, m.id)

/-- The order of `(at_ms, id)`. -/
def notNewer (a b : Int64 × PushId) : Prop := a.1 < b.1 ∨ a.1 = b.1 ∧ a.2 ≤ b.2

instance : DecidableRel notNewer := fun _ _ => inferInstanceAs (Decidable (_ ∨ _ ∧ _))

/-- `evictions`. -/
def evictions (unread : List (Int64 × PushId)) (cap : Nat) : List PushId :=
  ((unread.insertionSort notNewer).take (unread.length - cap)).map Prod.snd

/-- What is in the mailbox's directories. A note is the number of evictions it tells of. -/
structure Mailbox where
  /-- `new/`. -/
  unread : SortedMap PushId PushMessage
  read : SortedMap PushId PushMessage
  /-- Newest first. -/
  notes : List Nat
deriving DecidableEq

/-- What a store did with its batch. -/
structure Stored where
  ids : List PushId
  fresh : Nat
  evicted : Nat
deriving DecidableEq

/-- `Stored::default`. -/
def Stored.none : Stored := ⟨[], 0, 0⟩

namespace Mailbox

/-- `Mailbox::holds`. -/
def holds (b : Mailbox) (id : PushId) : Bool := b.unread.containsKey id || b.read.containsKey id

/-- A message's file is written into `new/`, by a rename. -/
def put (b : Mailbox) (m : PushMessage) : Mailbox := { b with unread := b.unread.insert m.id m }

/-- A file is renamed from `new/` into `read/`, if it is there. -/
def markRead (b : Mailbox) (id : PushId) : Option Mailbox :=
  (b.unread.get? id).map fun m =>
    { b with unread := b.unread.erase id, read := b.read.insert id m }

/-- A file of `read/` is removed. -/
def forget (b : Mailbox) (id : PushId) : Mailbox := { b with read := b.read.erase id }

/-- A note is left for the reader. -/
def leaveNote (b : Mailbox) (evicted : Nat) : Mailbox := { b with notes := evicted :: b.notes }

/-- The order `load_dir` gives the messages it read. -/
def sortByAge (messages : List PushMessage) : List PushMessage :=
  messages.insertionSort fun a b => notNewer a.age b.age

/-- The evictions that `new/`, as it was read, calls for. -/
def toEvict (loaded : List PushMessage) : List PushId :=
  evictions ((sortByAge loaded).map (·.age)) MAX_UNREAD

/-- What a reader removes from `read/`, as it was read. -/
def toPrune (loaded : List PushMessage) : List PushMessage :=
  (sortByAge loaded).take (loaded.length - MAX_READ)

/-! ## A store that runs alone -/

/-- One message of a batch. -/
def storeOne (s : Mailbox × Stored) (m : PushMessage) : Mailbox × Stored :=
  let out := { s.2 with ids := s.2.ids ++ [m.id] }
  if s.1.holds m.id then (s.1, out) else (s.1.put m, { out with fresh := out.fresh + 1 })

/-- One eviction. -/
def evictOne (s : Mailbox × Stored) (id : PushId) : Mailbox × Stored :=
  match s.1.markRead id with
  | none => s
  | some b => (b, { s.2 with evicted := s.2.evicted + 1 })

/-- The evictions that follow where a message was new. -/
def makeRoom (s : Mailbox × Stored) : Mailbox × Stored :=
  let (b, out) := (toEvict s.1.unread.values).foldl evictOne s
  (if out.evicted > 0 then b.leaveNote out.evicted else b, out)

/-- `Mailbox::store`. -/
def store (b : Mailbox) (messages : List PushMessage) : Mailbox × Stored :=
  let s := messages.foldl storeOne (b, .none)
  if s.2.fresh > 0 then makeRoom s else s

end Mailbox

/-! ## Tasks -/

/-- Where a task is: between two file operations of `store` or of `take_unread`. -/
inductive MailboxTask where
  | idle
  /-- `store`: about to look for the first message left in `new/`. -/
  | checks (todo : List PushMessage) (out : Stored)
  /-- It is not in `new/`: about to look in `read/`. -/
  | checksRead (m : PushMessage) (todo : List PushMessage) (out : Stored)
  /-- It is in neither: about to write it. -/
  | writes (m : PushMessage) (todo : List PushMessage) (out : Stored)
  /-- About to list `new/`, then to read the files listed. -/
  | lists (out : Stored)
  | loads (todo : List PushId) (loaded : List PushMessage) (out : Stored)
  | evicts (todo : List PushId) (out : Stored)
  | leavesNote (out : Stored)
  | stored (out : Stored)
  /-- `take_unread`: about to list `new/`, then to read the files listed. -/
  | listsUnread
  | loadsUnread (todo : List PushId) (loaded : List PushMessage)
  /-- About to rename the first message left: it is the reader's if that works. -/
  | takes (todo taken : List PushMessage)
  /-- About to list `read/`, then to read the files listed. -/
  | listsRead (taken : List PushMessage)
  | loadsRead (todo : List PushId) (loaded taken : List PushMessage)
  | prunes (todo taken : List PushMessage)
  | took (taken : List PushMessage)
deriving DecidableEq

/-- What happened to a message: a reader was handed it, it was removed from `read/`, or task `i`
evicted it; or task `i` left a note. -/
inductive MailFact (ι : Type) where
  | handed (id : PushId)
  | pruned (id : PushId)
  | evicted (i : ι) (id : PushId)
  | noted (i : ι) (evicted : Nat)
deriving DecidableEq

/-- The mailbox, the tasks that use it, and what happened so far, newest first. -/
structure Mailing (ι : Type) where
  box : Mailbox
  tasks : ι → MailboxTask
  log : List (MailFact ι)

/-- A task begins, or goes on with its next operation. -/
inductive MailboxEvent (ι : Type) where
  | store (i : ι) (messages : List PushMessage)
  | take (i : ι)
  | goes (i : ι)

namespace Mailing

variable {ι : Type} [DecidableEq ι]

/-- The tasks begin with the mailbox as it is. -/
def start (box : Mailbox) : Mailing ι := ⟨box, fun _ => .idle, []⟩

/-- Task `i` comes to a stage, having changed no file. -/
def comes (s : Mailing ι) (i : ι) (task : MailboxTask) : Mailing ι :=
  { s with tasks := Function.update s.tasks i task }

/-- Task `i` comes to a stage, having changed the files, with what that did to a message. -/
def does (s : Mailing ι) (i : ι) (box : Mailbox) (facts : List (MailFact ι)) (task : MailboxTask) :
    Mailing ι :=
  ⟨box, Function.update s.tasks i task, facts ++ s.log⟩

/-- Task `i`'s next operation. -/
def goOn (s : Mailing ι) (i : ι) : Option (Mailing ι) :=
  match s.tasks i with
  | .idle => none
  | .checks [] out => some (s.comes i (if out.fresh > 0 then .lists out else .stored out))
  | .checks (m :: todo) out =>
    let out := { out with ids := out.ids ++ [m.id] }
    some (s.comes i
      (if s.box.unread.containsKey m.id then .checks todo out else .checksRead m todo out))
  | .checksRead m todo out =>
    some (s.comes i (if s.box.read.containsKey m.id then .checks todo out else .writes m todo out))
  | .writes m todo out =>
    some (s.does i (s.box.put m) [] (.checks todo { out with fresh := out.fresh + 1 }))
  | .lists out => some (s.comes i (.loads s.box.unread.keys [] out))
  | .loads [] loaded out => some (s.comes i (.evicts (Mailbox.toEvict loaded) out))
  | .loads (id :: todo) loaded out =>
    some (s.comes i (.loads todo (loaded ++ (s.box.unread.get? id).toList) out))
  | .evicts [] out => some (s.comes i (if out.evicted > 0 then .leavesNote out else .stored out))
  | .evicts (id :: todo) out =>
    match s.box.markRead id with
    | none => some (s.comes i (.evicts todo out))
    | some box =>
      some (s.does i box [.evicted i id] (.evicts todo { out with evicted := out.evicted + 1 }))
  | .leavesNote out =>
    some (s.does i (s.box.leaveNote out.evicted) [.noted i out.evicted] (.stored out))
  | .stored _ => none
  | .listsUnread => some (s.comes i (.loadsUnread s.box.unread.keys []))
  | .loadsUnread [] loaded => some (s.comes i (.takes (Mailbox.sortByAge loaded) []))
  | .loadsUnread (id :: todo) loaded =>
    some (s.comes i (.loadsUnread todo (loaded ++ (s.box.unread.get? id).toList)))
  | .takes [] taken => some (s.comes i (.listsRead taken))
  | .takes (m :: todo) taken =>
    match s.box.markRead m.id with
    | none => some (s.comes i (.takes todo taken))
    | some box => some (s.does i box [.handed m.id] (.takes todo (taken ++ [m])))
  | .listsRead taken => some (s.comes i (.loadsRead s.box.read.keys [] taken))
  | .loadsRead [] loaded taken => some (s.comes i (.prunes (Mailbox.toPrune loaded) taken))
  | .loadsRead (id :: todo) loaded taken =>
    some (s.comes i (.loadsRead todo (loaded ++ (s.box.read.get? id).toList) taken))
  | .prunes [] taken => some (s.comes i (.took taken))
  | .prunes (m :: todo) taken =>
    some (if s.box.read.containsKey m.id then
        s.does i (s.box.forget m.id) [.pruned m.id] (.prunes todo taken)
      else s.comes i (.prunes todo taken))
  | .took _ => none

/-- One step of one task. -/
def step (s : Mailing ι) : MailboxEvent ι → Option (Mailing ι)
  | .store i messages =>
    match s.tasks i with
    | .idle => some (s.comes i (.checks messages .none))
    | _ => none
  | .take i =>
    match s.tasks i with
    | .idle => some (s.comes i .listsUnread)
    | _ => none
  | .goes i => s.goOn i

end Mailing

end Wires
