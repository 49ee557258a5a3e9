import Wires.Framework.Serial
import Wires.Impl.Vouch

/-!
# Who writes the stored view

The readers and writers of `view.json` in `wires/caller/view.rs`: `note_seen`,
`note_fresh`, `note_refused`, `refresh` (as a step at a time: `HeldView` has it
as one function), `resolve`, and a round of `poll`. Each is a `Chore` on the
file: its reads and its write are steps of their own, so that another process
can write between them. `Caller` is one keystore with the polls and the
`Vouching`s that keep a view in memory, doing one thing at a time. What the
disk, the directories and the clock do is the environment's (`Disk`,
`Outside`).
-/

namespace Wires

variable [Crypto]

/-- What becomes of an operation's reads of `view.json`, and of its write. -/
structure Disk where
  faults : Nat → Option String
  written : Except Anyhow Unit

/-- What an operation meets besides `view.json`: the stored policy, the network string's
directories, the caller's verified identity, the clock, what the directories send, and the disk. -/
structure Outside where
  policy : PolicyFile
  joined : List NodeId
  principal : Option Principal
  now : Int64
  turns : List Turn
  last : Int64
  disk : Disk

/-- What a read finds: what stands there, unless reading fails. -/
def ViewFile.opened (file : ViewFile) (fault : Option String) : ViewFile :=
  match fault with
  | none => file
  | some why => .unreadable why

section

variable {root : NodeId}

/-- What `view::write` stores. -/
def HeldView.stored (h : HeldView root) : StoredView := ⟨h.view, h.fresh.iter, h.checked, h.seen⟩

/-- `view::write`, as the last step. -/
def writing {R : Type} (h : HeldView root) (written : Except Anyhow Unit)
    (result : Except Anyhow Unit → R) : Chore ViewFile R :=
  match written with
  | .ok () => .writes (.stored h.stored) (result (.ok ()))
  | .error e => .done (result (.error e))

end

section

variable (path : String) (root : NodeId)

/-! ## Notes -/

/-- A note: the view is read, changed by `note` if it says so, and written. Best effort. -/
def noting (note : HeldView root → Option (HeldView root)) (disk : Disk) : Chore ViewFile Unit :=
  .reads fun file =>
    match readView path root (file.opened (disk.faults 0)) with
    | .ok (some held) =>
      match note held with
      | some noted => writing noted disk.written fun _ => ()
      | none => .done ()
    | _ => .done ()

/-- `note_seen`. -/
def noteSeen (version : StateVersion) (disk : Disk) : Chore ViewFile Unit :=
  noting path root (fun held =>
    if version > held.seen ∧ version > held.version then some { held with seen := version }
    else none) disk

/-- `note_fresh`. -/
def noteFresh (fresh : Fresh) (now : Int64) (disk : Disk) : Chore ViewFile Unit :=
  noting path root (fun held =>
    match fresh.toVerified held.view.head with
    | .error _ => none
    | .ok v =>
      let (set, inserted) := held.fresh.insert v now
      if inserted then some { held with fresh := set } else none) disk

/-- `note_refused`. -/
def noteRefused (disk : Disk) : Chore ViewFile Unit :=
  noting path root (fun held => some { held with checked := 0 }) disk

/-! ## Fetches -/

/-- What `refresh` does once it has the view it holds: it asks the directories, and stores what one
gives. -/
def refreshingFrom (held : Option (HeldView root)) (me : NodeId) (o : Outside) :
    Chore ViewFile (Except Anyhow (HeldView root)) :=
  .reads fun file =>
    let home : Home := ⟨o.policy, file.opened (o.disk.faults 1), o.joined⟩
    if home.directories path root me = [] then
      .done (orError held ["this node knows no directory to ask for its view: ask your admin for " ++
        "the network string (`wires network`) and `wires login <network>` with it"])
    else
      match fetch o.joined held o.now o.turns o.last with
      | .error e => .done (.error e)
      | .ok fetched => writing fetched o.disk.written fun w => w.map fun _ => fetched

/-- `refresh`. -/
def refreshing (forget : Bool) (policyPath : String) (me : NodeId) (o : Outside) :
    Chore ViewFile (Except Anyhow (HeldView root)) :=
  match read policyPath root o.policy with
  | .error e => .done (.error e)
  | .ok (some whole) =>
    let view := whole.signed.viewFor me o.principal none
    match hv : view.verify root with
    | .error e => .done (.error ["refusing to store a view that does not verify", e.display])
    | .ok () =>
      let held := HeldView.fetched view hv none o.now
      writing held o.disk.written fun w => w.map fun _ => held
  | .ok none =>
    if forget then refreshingFrom path root none me o
    else .reads fun file =>
      match readView path root (file.opened (o.disk.faults 0)) with
      | .error e => .done (.error e)
      | .ok held => refreshingFrom path root held me o

/-- What `resolve` takes: a view of one service, under the head proved, with a word for it. -/
def takeEntry (service : ServiceName) (proved : SignedPolicyHead) (answer : DirectoryAnswer) :
    Except Anyhow ({ view : View // view.verify root = .ok () } × Fresh) :=
  match answer with
  | .view view fresh => do
    ensure (view.head = proved) ["a view under another head than the one it proved"]
    match hv : view.verify root with
    | .error e => .error ["the directory's view does not verify", e.display]
    | .ok () => do
      context "the directory's freshness doesn't vouch for its view"
        (anyhow (fresh.verify view.head))
      ensure ((view.entries.any fun e => e.name ≠ service) = false)
        ["the directory resolved " ++ service.name ++ " to another service"]
      return (⟨view, hv⟩, fresh)
  | .denied reason => .error ["an unexpected answer to `resolve`: " ++ reason]
  | .other debug => .error ["an unexpected answer to `resolve`: " ++ debug]

/-- `resolve`. -/
def resolving (me : NodeId) (service : ServiceName) (o : Outside) :
    Chore ViewFile (Except Anyhow (Option (HeldView root))) :=
  .reads fun file =>
    let home : Home := ⟨o.policy, file.opened (o.disk.faults 1), o.joined⟩
    if home.directories path root me = [] then .done (.ok none)
    else .reads fun file =>
      let held := match readView path root (file.opened (o.disk.faults 2)) with
        | .ok held => held
        | .error _ => none
      match askProven o.joined held (fun proved answer _ => takeEntry root service proved answer)
          o.turns o.last with
      | .error out => .done (.error ["no directory resolved " ++ service.name ++ " (" ++
          String.intercalate "; " out.failures ++ ")"])
      | .ok (view, fresh) =>
        (noteSeen path root view.1.head.head.version o.disk).map fun _ => .ok
          (if view.1.entries = [] then none
          else some (HeldView.fetched view.1 view.2 (some fresh) o.now))

variable {root} in
/-- A round of `poll`, which keeps `held`: the view it fetches, which it keeps from then on. -/
def polling (held : Option (HeldView root)) (persist : Bool) (o : Outside) :
    Chore ViewFile (Option (HeldView root)) :=
  match fetch o.joined held o.now o.turns o.last with
  | .error _ => .done none
  | .ok next =>
    let next := { next with seen := (held.map (·.seen)).getD 0 }
    if persist then writing next o.disk.written fun _ => some next else .done (some next)

end

/-- What a process on the keystore does to its view. -/
inductive ViewOp (root : NodeId) where
  | refresh (forget : Bool) (me : NodeId) (o : Outside)
  /-- A round of a poll that keeps `held`, and keeps the file in step. -/
  | round (held : Option (HeldView root)) (o : Outside)
  | noteSeen (version : StateVersion) (disk : Disk)
  | noteFresh (fresh : Fresh) (now : Int64) (disk : Disk)
  | noteRefused (disk : Disk)

/-- A keystore's view, the view each poll keeps, and the `Vouching`s of calls under way. -/
structure Caller (root : NodeId) (κ : Type) where
  file : ViewFile
  polled : κ → Option (HeldView root)
  vouching : κ → Option (Vouching root)

/-- What is done on a keystore, one at a time. -/
inductive CallerOp (root : NodeId) (κ : Type) where
  /-- The view is not forgotten. -/
  | refresh (o : Outside)
  | resolve (service : ServiceName) (o : Outside)
  | noteSeen (version : StateVersion) (disk : Disk)
  | noteFresh (fresh : Fresh) (now : Int64) (disk : Disk)
  | noteRefused (disk : Disk)
  /-- A poll begins, with the view it is given. -/
  | polls (k : κ) (initial : Option (HeldView root))
  | round (k : κ) (persist : Bool) (o : Outside)
  /-- A `Vouching` is made. -/
  | vouches (k : κ) (v : Vouching root)
  /-- What `refresh_to` does once it has noted the newer version (`noteSeen`): it asks the
  refresher, and takes what it brings. -/
  | refreshTo (k : κ) (wanted : StateVersion) (timedOut : Bool) (o : Outside)

namespace Caller

variable {κ : Type} [DecidableEq κ] {root : NodeId} (policyPath path : String) (me : NodeId)

/-- One operation, and the view it accepts. -/
def does (s : Caller root κ) : CallerOp root κ → Caller root κ × Option (HeldView root)
  | .refresh o =>
    let (file, result) := (refreshing path root false policyPath me o).alone s.file
    ({ s with file }, result.toOption)
  | .resolve service o => ({ s with file := ((resolving path root me service o).alone s.file).1 }, none)
  | .noteSeen version disk => ({ s with file := ((noteSeen path root version disk).alone s.file).1 }, none)
  | .noteFresh fresh now disk =>
    ({ s with file := ((noteFresh path root fresh now disk).alone s.file).1 }, none)
  | .noteRefused disk => ({ s with file := ((noteRefused path root disk).alone s.file).1 }, none)
  | .polls k initial => ({ s with polled := Function.update s.polled k initial }, none)
  | .round k persist o =>
    let (file, next) := (polling (s.polled k) persist o).alone s.file
    ({ s with file, polled := Function.update s.polled k (next <|> s.polled k) }, next)
  | .vouches k v => ({ s with vouching := Function.update s.vouching k (some v) }, none)
  | .refreshTo k wanted timedOut o =>
    match s.vouching k with
    | none => (s, none)
    | some v =>
      let asks := v.refresher && !timedOut
      let (file, refreshed) :=
        if asks then
          let (file, result) := (refreshing path root false policyPath me o).alone s.file
          (file, Refreshed.answered result)
        else (s.file, .timedOut)
      match v.refreshTo wanted refreshed with
      | .error _ => ({ s with file }, none)
      | .ok v => ({ s with file, vouching := Function.update s.vouching k (some v) }, some v.held)

/-- Operations, one after the other. -/
def doesAll (s : Caller root κ) (ops : List (CallerOp root κ)) : Caller root κ :=
  ops.foldl (fun s op => (s.does policyPath path me op).1) s

end Caller

end Wires
