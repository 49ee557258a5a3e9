import Wires.Impl.HeldView
import Wires.Impl.Publish

/-!
# Getting an edit to the directories

`wires/admin/propagate.rs`, with `run_edit_with` (`wires/admin/mod.rs`) and
`publish_current` (`wires/policy/fetch.rs`): what a publish came to
(`Propagation.fromPublish`), and any number of admin commands on one keystore
(`Propagate.step`), one step of one command at a time. What an edit leaves
stored, what the directories answer and how long a round takes are the
environment's. What was answered, and what was made of it, is kept beside.
-/

namespace Wires

namespace PublishReport

/-- `PublishReport::default`. -/
def empty : PublishReport := ⟨[], [], [], [], []⟩

/-- `PublishReport::missed_listed`. -/
def missedListed (r : PublishReport) : Bool := r.missed.any fun d => !r.dropped.contains d

/-- `PublishReport::reached_none`. -/
def reachedNone (r : PublishReport) : Bool := r.delivered.isEmpty && r.missedListed

def shown (d : NodeId) : String := d.short ++ "…"

def named (texts : List String) : String := ", ".intercalate texts

/-- A part of the line, if it names any directory. -/
def part (what : String) (texts : List String) : String :=
  if texts = [] then "" else what ++ named texts

/-- `PublishReport::line`. -/
def line (r : PublishReport) (version : StateVersion) : String :=
  let total := r.delivered.length + r.missed.length + r.newer.length
  if total = 0 then
    "policy version " ++ toString version ++ " is stored here: no directory to publish to yet " ++
      "(name one with `wires directory add <label>=<node id>`)"
  else
    let listed := fun d => !r.dropped.contains d
    "policy version " ++ toString version ++ ": published to " ++ toString r.delivered.length ++
      " of " ++ toString total ++ " directory(ies)" ++
    part "; not reached, and dropped by this edit: "
      ((r.missed.filter fun d => r.dropped.contains d).map shown) ++
    (if r.missedListed then
      part "; not reached: "
        ((r.missed.filter fun d => listed d && !r.refused.contains d).map shown) ++
      part "; refused by: " ((r.refused.filter listed).map shown) ++
      if r.delivered ≠ [] then
        "; until it has version " ++ toString version ++ ", hosts that follow it decide under the " ++
          "policy before it, and nothing but a publish brings it: `wires policy push` re-publishes " ++
          "it once it is back"
      else " (`wires policy push` re-publishes it)"
    else "") ++
    part "; holding a newer policy: "
      (r.newer.map fun e => shown e.1 ++ " (version " ++ toString e.2 ++ ")")

end PublishReport

/-- How a publish went, for a command's report. -/
structure Propagation where
  note : String
  failure : Option String
deriving DecidableEq

/-- `Propagation::from_publish`. -/
def Propagation.fromPublish (running : List NodeId) :
    Except Anyhow (StateVersion × PublishReport) → Propagation
  | .ok (version, report) =>
    match report.newer with
    | (dir, theirs) :: _ =>
      let what :=
        if theirs = version then "another policy at version " ++ toString theirs
        else "policy version " ++ toString theirs ++ ", newer than this one"
      ⟨report.line version, some ("directory " ++ PublishReport.shown dir ++ " holds " ++ what ++
        ": this admin's policy.json is stale, so the edit changed nothing there; copy policy.json " ++
        "from any host or directory into this admin's keystore, then make the edit again")⟩
    | [] =>
      if report.reachedNone ∧ running = [] then
        ⟨"policy version " ++ toString version ++ " is stored here; no directory has taken a publish " ++
          "yet. Once one runs (`wires join <network>`, then `wires serve` or `wires directory serve` " ++
          "on its node), run `wires policy push`", none⟩
      else if running = [] then ⟨report.line version, none⟩
      else if report.reachedNone then
        ⟨report.line version, some ("policy version " ++ toString version ++ " is signed and stored " ++
          "here, but reached none of its " ++ toString report.missed.length ++ " directory(ies), so " ++
          "no host or caller can fetch it yet; run `wires policy push` once a directory is up")⟩
      else
        ⟨report.line version, some ("policy version " ++ toString version ++ " is signed, stored here " ++
          "and in force at " ++ toString report.delivered.length ++ " directory(ies), but " ++
          PublishReport.named (running.map PublishReport.shown) ++ " missed it, and nothing else will " ++
          "bring it there; until it does, a host this edit removed still receives callers' tokens " ++
          "through that directory's word for the policy before it: run `wires policy push` once " ++
          (if running.length = 1 then "it is" else "they are") ++ " back")⟩
  | .error e =>
    ⟨"the new policy is stored here but was not published: " ++ oneLine e,
      some "no directory has the new policy yet; run `wires policy push` to re-publish it"⟩

/-- What an admin command prints. -/
structure Report where
  stdout : String
  notes : List String
  hint : Option String
  failure : Option String
deriving DecidableEq

/-- `fold`. -/
def Report.fold (report : Report) (pushed : Propagation) : Report :=
  { report with notes := report.notes ++ [pushed.note], failure := pushed.failure }

/-! ## Commands at once -/

variable [Crypto]

/-- A policy that is published, and how. -/
structure Publishing (root : NodeId) where
  held : Held root
  job : Publish.Job
  targets : List NodeId

namespace Publishing

variable {root : NodeId}

/-- `publish_current_on`, before its first round. -/
def of (held : Held root) (earlier : List NodeId) (me : NodeId) (retry : Retry)
    (reached : SortedSet NodeId) : Publishing root :=
  let listed := held.signed.head.head.directories
  let targets := Publish.targets listed earlier me
  let patient := match retry with
    | .reached => reached
    | .every => SortedMap.collect (targets.map fun d => (d, ()))
  ⟨held, ⟨held.signed.head.head.version, held.signed.head.hash,
    patient.filterMap fun d _ => if listed.contains d then some () else none, PUBLISH_BUDGET⟩, targets⟩

/-- Whom the next round asks. -/
def asked (p : Publishing root) : Option Publish.State → List NodeId
  | none => p.targets
  | some s => s.again p.job

/-- A round is over. -/
def joined (p : Publishing root) (r : Publish.Round) : Option Publish.State → Publish.State
  | none => Publish.start p.job p.targets r
  | some s => s.retry p.job r

/-- The report, once no round follows. -/
def report (p : Publishing root) (s : Publish.State) : PublishReport :=
  { s.report with
    dropped := p.targets.filter fun d => !p.held.signed.head.head.directories.contains d }

end Publishing

/-- Where a command is. -/
inductive PropagateStage (root : NodeId) where
  | idle
  /-- `held_directories` has been read. -/
  | edits (retry : Retry) (earlier : List NodeId)
  /-- The edit is stored. -/
  | stored (retry : Retry) (earlier : List NodeId) (report : Report)
  /-- `publish_current` has read the policy, and its endpoint is bound. -/
  | bound (retry : Retry) (earlier : List NodeId) (report : Report) (version : StateVersion)
  /-- A round is under way. -/
  | asking (report : Report) (version : StateVersion) (p : Publishing root)
    (round : Option Publish.State) (answers : NodeId → Option (Option Directory.Answer))
  | published (report : Report) (result : Except Anyhow (Held root × StateVersion × PublishReport))
  /-- `settle` has read whom earlier publishes reached. -/
  | judged (report : Report) (version : StateVersion) (published : PublishReport)
    (running : List NodeId)
  /-- `note_reached` is to write the file, which it has read. -/
  | noting (report : Report) (version : StateVersion) (published : PublishReport)
    (running : List NodeId) (all : SortedSet NodeId)
  | ended (result : Except Anyhow Report)

/-- What has come of the publishes. -/
inductive PublishDeed (root : NodeId) (ι : Type) where
  | answered (i : ι) (d : NodeId) (held : Held root) (answer : Option Directory.Answer)
  /-- What was made of the publish of a policy, or of an error before there was one. -/
  | judged (i : ι) (held : Option (Held root)) (pushed : Propagation)

/-- A keystore's policy and its `reached.json`, and the commands. -/
structure Propagate (root : NodeId) (ι : Type) where
  policy : Option (Held root)
  reached : SortedSet NodeId
  stage : ι → PropagateStage root
  log : List (PublishDeed root ι)

/-- A step of a command; `why` is why a file cannot be read, or no endpoint bound. -/
inductive PropagateEvent (root : NodeId) (ι : Type) where
  | begins (i : ι) (retry : Retry) (why : Option Anyhow)
  /-- The edit fails, or leaves `policy` stored. -/
  | edits (i : ι) (outcome : Except Anyhow (Report × Option (Held root)))
  | binds (i : ι) (why : Option Anyhow)
  | asks (i : ι) (why : Option Anyhow)
  /-- A directory answers, or it turns out that it does not. -/
  | answers (i : ι) (d : NodeId) (answer : Option Directory.Answer)
  | joins (i : ι) (millis : Nat)
  | judges (i : ι)
  | recalls (i : ι)
  | notes (i : ι)

namespace Propagate

variable {root : NodeId} {ι : Type} [DecidableEq ι]

/-- No command run yet, and no directory reached. -/
def start (policy : Option (Held root)) : Propagate root ι := ⟨policy, ∅, fun _ => .idle, []⟩

def goes (s : Propagate root ι) (i : ι) (stage : PropagateStage root) : Propagate root ι :=
  { s with stage := Function.update s.stage i stage }

def does (s : Propagate root ι) (d : PublishDeed root ι) : Propagate root ι :=
  { s with log := s.log ++ [d] }

def directories : Option (Held root) → List NodeId
  | none => []
  | some held => held.signed.head.head.directories

/-- `stored`. -/
def read (s : Propagate root ι) : Option Anyhow → Except Anyhow (Held root)
  | some why => .error why
  | none => orError s.policy ["no signed policy here"]

def step (me : NodeId) (s : Propagate root ι) : PropagateEvent root ι → Option (Propagate root ι)
  | .begins i retry why =>
    match s.stage i with
    | .idle =>
      match why with
      | some why => some (s.goes i (.ended (.error why)))
      | none => some (s.goes i (.edits retry (directories s.policy)))
    | _ => none
  | .edits i outcome =>
    match s.stage i with
    | .edits retry earlier =>
      match outcome with
      | .error why => some (s.goes i (.ended (.error why)))
      | .ok (report, policy) => some ({ s with policy }.goes i (.stored retry earlier report))
    | _ => none
  | .binds i why =>
    match s.stage i with
    | .stored retry earlier report =>
      match s.read why with
      | .error why => some (s.goes i (.published report (.error why)))
      | .ok held =>
        if Publish.targets held.signed.head.head.directories earlier me = [] then
          some (s.goes i (.published report (.ok (held, held.version, .empty))))
        else some (s.goes i (.bound retry earlier report held.version))
    | _ => none
  | .asks i why =>
    match s.stage i with
    | .bound retry earlier report version =>
      match s.read why with
      | .error why => some (s.goes i (.published report (.error why)))
      | .ok held => some (s.goes i (.asking report version (.of held earlier me retry s.reached) none
          fun _ => none))
    | _ => none
  | .answers i d answer =>
    match s.stage i with
    | .asking report version p round answers =>
      if (p.asked round).contains d = true ∧ answers d = none then
        some ((s.does (.answered i d p.held answer)).goes i
          (.asking report version p round (Function.update answers d (some answer))))
      else none
    | _ => none
  | .joins i millis =>
    match s.stage i with
    | .asking report version p round answers =>
      if ∀ d ∈ p.asked round, (answers d).isSome then
        let state := p.joined ⟨fun d => (answers d).join, millis⟩ round
        if state.again p.job = [] ∨ p.job.budget - state.elapsed ≤ RETRY_PAUSE then
          some (s.goes i (.published report (.ok (p.held, version, p.report state))))
        else some (s.goes i (.asking report version p (some state) fun _ => none))
      else none
    | _ => none
  | .judges i =>
    match s.stage i with
    | .published report (.error why) =>
      let pushed := Propagation.fromPublish [] (.error why)
      some ((s.does (.judged i none pushed)).goes i (.ended (.ok (report.fold pushed))))
    | .published report (.ok (held, version, published)) =>
      let running := published.missedRunning s.reached
      let pushed := Propagation.fromPublish running (.ok (version, published))
      some ((s.does (.judged i (some held) pushed)).goes i
        (.judged report version published running))
    | _ => none
  | .recalls i =>
    match s.stage i with
    | .judged report version published running =>
      if published.delivered.all s.reached.containsKey then
        some (s.goes i (.ended (.ok (report.fold (.fromPublish running (.ok (version, published)))))))
      else some (s.goes i (.noting report version published running s.reached))
    | _ => none
  | .notes i =>
    match s.stage i with
    | .noting report version published running all =>
      some ({ s with reached := all.extend (published.delivered.map fun d => (d, ())) }.goes i
        (.ended (.ok (report.fold (.fromPublish running (.ok (version, published)))))))
    | _ => none

end Propagate

end Wires
