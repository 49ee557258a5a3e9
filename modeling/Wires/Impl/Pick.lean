import Wires.Framework.Capped
import Wires.Framework.Run
import Wires.Impl.Identity
import Mathlib.Data.List.Perm.Basic

/-!
# Which host a call tries first

`wires/caller/pick.rs`: a call tries its service's hosts in a random order, but
for those that did not answer within the last minute, which go last
(`candidates`); what is remembered of them is `unanswered.json` (`Unanswered`),
which every process of the user reads and writes with nothing locked. `Picking`
is that file with any number of calls, step by step. The order that was drawn
(`shuffled`), who answers, and whether the file can be read or written are the
environment's. A call that ends in an error records nothing.
-/

namespace Wires

namespace Pick

/-- How long a host that failed to answer goes last, in seconds. -/
def DEMOTE_SECS : Int64 := 60

/-- Whether a failure at `at_` still counts. -/
def recent (now at_ : Int64) : Bool := satSub now at_ < DEMOTE_SECS

/-- `Unanswered`: when each host last failed to answer. -/
abbrev Unanswered := SortedMap NodeId Int64

/-- `Unanswered::failed_recently`. -/
def Unanswered.failedRecently (u : Unanswered) (host : NodeId) (now : Int64) : Option Int64 :=
  (u.get? host).filter (recent now)

/-- `sort_by_key`'s order: `None` is before every `Some`. -/
def earlier : Option Int64 → Option Int64 → Bool
  | none, _ => true
  | some _, none => false
  | some a, some b => a ≤ b

/-- `candidates`, once the hosts are shuffled: `sort_by_key` is stable. -/
def candidates (u : Unanswered) (now : Int64) (shuffled : List NodeId) : List NodeId :=
  shuffled.mergeSort fun g h => earlier (u.failedRecently g now) (u.failedRecently h now)

/-- A call that was answered: whom it was to try, in order, who answered, and when it began. -/
structure Answered where
  tried : List NodeId
  host : NodeId
  now : Int64

/-- The hosts it moved past. -/
def Answered.passed (a : Answered) : List NodeId := a.tried.takeWhile fun h => h ≠ a.host

/-- `Unanswered::note`. -/
def Unanswered.note (u : Unanswered) (a : Answered) : Unanswered :=
  ((a.passed.foldl (fun u h => u.insert h a.now) u).erase a.host).retain (recent a.now)

/-! ## Calls at once -/

/-- Where a call is: it dials, or `record` has loaded the file. -/
inductive PickStage where
  | dials (tried : List NodeId) (now : Int64)
  | records (a : Answered) (before : Unanswered)

/-- The file, its calls, and those that were answered, the newest first. -/
structure Picking (ι : Type) where
  file : Unanswered
  calls : ι → Option PickStage
  log : List Answered

inductive PickEvent (ι : Type) where
  /-- A call of a service with these hosts begins, and reads the file if it can. -/
  | begins (i : ι) (hosts shuffled : List NodeId) (now : Int64) (readable : Bool)
  /-- `host` answers, and `record` loads the file if it can. -/
  | answers (i : ι) (host : NodeId) (readable : Bool)
  /-- `record` saves what changed, if it can. -/
  | saves (i : ι) (written : Bool)
  /-- The call ends in an error: nobody answered, or a host refused. -/
  | fails (i : ι)

namespace Picking

variable {ι : Type}

def start (file : Unanswered) : Picking ι := ⟨file, fun _ => none, []⟩

/-- `Unanswered::load`. -/
def load (s : Picking ι) (readable : Bool) : Unanswered := if readable then s.file else ∅

variable [DecidableEq ι]

def goes (s : Picking ι) (i : ι) (stage : Option PickStage) : Picking ι :=
  { s with calls := Function.update s.calls i stage }

/-- One step of one call. -/
def step (s : Picking ι) : PickEvent ι → Option (Picking ι)
  | .begins i hosts shuffled now readable =>
    match s.calls i with
    | none =>
      if shuffled.Perm hosts ∧ hosts ≠ [] then
        some (s.goes i (some (.dials (candidates (s.load readable) now shuffled) now)))
      else none
    | some _ => none
  | .answers i host readable =>
    match s.calls i with
    | some (.dials tried now) =>
      if tried.contains host then
        some { s.goes i (some (.records ⟨tried, host, now⟩ (s.load readable))) with
          log := ⟨tried, host, now⟩ :: s.log }
      else none
    | _ => none
  | .saves i written =>
    match s.calls i with
    | some (.records a before) =>
      let me := before.note a
      if written = true ∧ me ≠ before then some { s.goes i none with file := me }
      else some (s.goes i none)
    | _ => none
  | .fails i =>
    match s.calls i with
    | some (.dials _ _) => some (s.goes i none)
    | _ => none

end Picking

end Pick

end Wires
