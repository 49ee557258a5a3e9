import Mathlib.Data.List.Sort
import Wires.Impl.Serve

/-!
# Publishing

`wires/policy/fetch.rs`: the admin publishes its policy to every directory, and
tries those it could not reach again for a while. A round asks its targets at
once; what each answers, and how long a round takes, is the environment's.
-/

namespace Wires

/-- Milliseconds. -/
def PUBLISH_BUDGET : Nat := 15000

/-- Milliseconds. -/
def RETRY_PAUSE : Nat := 1000

/-- Which directories a publish tries again. -/
inductive Retry where
  | reached
  | every
deriving DecidableEq

/-- Which directories took a published policy, and which did not. -/
structure PublishReport where
  delivered : List NodeId
  missed : List NodeId
  /-- Of `missed`, those that answered with a refusal. -/
  refused : List NodeId
  /-- The targets that the published head does not list. -/
  dropped : List NodeId
  newer : List (NodeId × StateVersion)
deriving DecidableEq

/-- `PublishReport::missed_running`. -/
def PublishReport.missedRunning (report : PublishReport) (reached : SortedSet NodeId) : List NodeId :=
  report.missed.filter fun d => !report.dropped.contains d && reached.containsKey d

/-- What one directory made of a publish. -/
inductive Took where
  | delivered
  | missed
  | refused
  | newer (version : StateVersion)
deriving DecidableEq

namespace Publish

/-- What an answer to a publish says, or that there is none. -/
def took (want : StateVersion) (wantHead : HeadHash) : Option Directory.Answer → Took
  | some (.published version head) =>
    if version > want then .newer version
    else if version = want then if head = wantHead then .delivered else .newer version
    else .refused
  | some (.denied reason) => if reason = Directory.BUSY then .missed else .refused
  | some _ => .refused
  | none => .missed

/-- What became of the targets of a round, each with what it made of the publish. -/
abbrev Tries := List (NodeId × Took)

/-- The order of a report's newer directories. -/
def newerOrder (a b : NodeId × StateVersion) : Prop := a.1 < b.1 ∨ a.1 = b.1 ∧ a.2 ≤ b.2

instance : DecidableRel newerOrder := fun _ _ => inferInstanceAs (Decidable (_ ∨ _ ∧ _))

def delivered? : NodeId × Took → Option NodeId
  | (d, .delivered) => some d
  | _ => none

def missed? : NodeId × Took → Option NodeId
  | (d, .missed) | (d, .refused) => some d
  | _ => none

def refused? : NodeId × Took → Option NodeId
  | (d, .refused) => some d
  | _ => none

def newer? : NodeId × Took → Option (NodeId × StateVersion)
  | (d, .newer v) => some (d, v)
  | _ => none

/-- The report of `publish_all`. -/
def report (tries : Tries) : PublishReport where
  delivered := (tries.filterMap delivered?).insertionSort (· ≤ ·)
  missed := (tries.filterMap missed?).insertionSort (· ≤ ·)
  refused := (tries.filterMap refused?).insertionSort (· ≤ ·)
  dropped := []
  newer := (tries.filterMap newer?).insertionSort newerOrder

/-- The directories' answers in one round, and how long it takes, with what the pause before it takes
too long. -/
structure Round where
  answers : NodeId → Option Directory.Answer
  millis : Nat

/-- What a publish is of, whom it is patient with and for how long. -/
structure Job where
  want : StateVersion
  wantHead : HeadHash
  patient : SortedSet NodeId
  budget : Nat

/-- A publish under way: its report so far, how long it took, and whom it tried, in order. -/
structure State where
  report : PublishReport
  elapsed : Nat
  tries : Tries

/-- `publish_all`, in a round. -/
def Round.tries (r : Round) (job : Job) (targets : List NodeId) : Tries :=
  targets.map fun d => (d, took job.want job.wantHead (r.answers d))

/-- The directories to try again. -/
def State.again (s : State) (job : Job) : List NodeId :=
  s.report.missed.filter fun d => job.patient.containsKey d && !s.report.refused.contains d

/-- One more round, after the pause. -/
def State.retry (s : State) (job : Job) (r : Round) : State :=
  let again := s.again job
  let round := Publish.report (r.tries job again)
  { report :=
      { s.report with
        delivered := (s.report.delivered ++ round.delivered).insertionSort (· ≤ ·)
        missed := ((s.report.missed.filter fun d => !again.contains d) ++ round.missed).insertionSort
          (· ≤ ·)
        refused := (s.report.refused ++ round.refused).insertionSort (· ≤ ·)
        newer := (s.report.newer ++ round.newer).insertionSort newerOrder }
    elapsed := s.elapsed + RETRY_PAUSE + r.millis
    tries := s.tries ++ r.tries job again }

/-- The loop of `publish_retrying`, for as many rounds as are given: `none` if it goes on after them. -/
def State.retryAll (s : State) (job : Job) (rounds : List Round) : Option State :=
  if s.again job = [] ∨ job.budget - s.elapsed ≤ RETRY_PAUSE then some s
  else
    match rounds with
    | [] => none
    | r :: rs => (s.retry job r).retryAll job rs

/-- The first round. -/
def start (job : Job) (targets : List NodeId) (r : Round) : State :=
  ⟨report (r.tries job targets), r.millis, r.tries job targets⟩

/-- `publish_retrying`. -/
def retrying (job : Job) (targets : List NodeId) : List Round → Option State
  | [] => none
  | r :: rs => (start job targets r).retryAll job rs

/-- `publish_targets`: the directories of the policy and of the one before, but for `me`. -/
def targets (directories earlier : List NodeId) (me : NodeId) : List NodeId :=
  (SortedMap.collect (((directories ++ earlier).filter (· ≠ me)).map fun d => (d, ()))).keys

end Publish

end Wires
