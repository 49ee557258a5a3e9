import Wires.Impl.HeldView
import Mathlib.Logic.Function.Basic

/-!
# The views of the gateway's web users

`Views` and `Keystored::view` of `wires/gateway/mod.rs`: the view a directory
last gave for each ID token, shared by every request and every call under way.
An ask reads what is held, waits for the directories, and then stores the view
it was given, or drops the one held. `Asks` is the table with any number of
asks, each at its own pace; `Asks.step` is one step of one of them. `Instant`s
are nanoseconds. How often a token's view was stored or dropped, and how often
it had been when each ask read it, is kept beside them.
-/

namespace Wires

/-- How long a view is used before it is asked for again: a minute. -/
def POLL : Nat := 60 * 1000000000

variable [Crypto]

/-- One web user's view. -/
structure UserView (root : NodeId) where
  held : HeldView root
  /-- When a directory gave it. -/
  asked : Nat
  /-- The ID token's `exp`. -/
  notAfter : Int64

/-- The web users' views, by ID token, and the directories of the network string. -/
structure Views (root : NodeId) where
  known : List NodeId
  held : IdToken → Option (UserView root)

namespace Views

variable {root : NodeId}

/-- `Views::cached`: expired tokens' views are dropped. -/
def cached (v : Views root) (token : IdToken) (now : Int64) : Views root × Option (UserView root) :=
  let v := { v with held := fun t => (v.held t).filter fun u => u.notAfter ≥ now }
  (v, v.held token)

/-- `NotAdmitted`, as an error's context. -/
def isNotAdmitted (e : Anyhow) : Bool :=
  e.contains "a directory said this node is not admitted to the network"

/-- Whether `ask` stores or drops the view, of what was fetched. -/
def isWritten : Except Anyhow (HeldView root) → Bool
  | .ok _ => true
  | .error e => isNotAdmitted e

/-- What `ask` makes of what was fetched, at `asked`. -/
def answered (v : Views root) (token : IdToken) (notAfter : Int64) (asked : Nat) :
    Except Anyhow (HeldView root) → Views root
  | .ok view => { v with held := Function.update v.held token (some ⟨view, asked, notAfter⟩) }
  | .error e =>
    if isNotAdmitted e then { v with held := Function.update v.held token none } else v

end Views

/-- What an ask is to give back: what it got, for a refresher; `view`'s answer, for a request that
found an old view, or none. -/
inductive AskFor (root : NodeId) where
  | refresher
  | request (cached : Option (UserView root))

/-- `Keystored::view`'s answer, once the view was asked for. -/
def AskFor.answer {root : NodeId} (fetched : Except Anyhow (HeldView root)) :
    AskFor root → Except Anyhow (HeldView root)
  | .refresher => fetched
  | .request cached =>
    match fetched with
    | .ok held => .ok held
    | .error e =>
      if Views.isNotAdmitted e then
        .error ["a directory said this node is not admitted to the network", NOT_ADMITTED]
      else
        match cached with
        | some v => .ok v.held
        | none => .error e

/-- Where an ask is. -/
inductive AskStage (root : NodeId) where
  | idle
  /-- `ask` is called. -/
  | asks (token : IdToken) (notAfter : Int64) (goal : AskFor root)
  /-- It has read the view held, if any, and waits for the directories. -/
  | fetches (token : IdToken) (notAfter : Int64) (goal : AskFor root)
    (base : Option (HeldView root)) (began : Nat)
  | done (result : Except Anyhow (HeldView root))

/-- What the directories send within the wait, if they do, and what the clock says. -/
structure Fetch where
  now : Int64
  turns : List Turn
  last : Int64
  timedOut : Bool

/-- The table of views, how often each was written, and the asks. -/
structure Asks (root : NodeId) (ι : Type) where
  views : Views root
  writes : IdToken → Nat
  stage : ι → AskStage root

/-- A step of an ask. -/
inductive AskEvent (ι : Type) where
  /-- A call's refresher asks. -/
  | refresh (i : ι) (token : IdToken) (notAfter : Int64)
  /-- A request needs the view: `now` and `at_` are the two clocks. -/
  | view (i : ι) (token : IdToken) (notAfter : Int64) (now : Int64) (at_ : Nat)
  /-- `ask` reads the view held. -/
  | read (i : ι) (now : Int64)
  /-- The directories have answered, or the wait is over. -/
  | answer (i : ι) (f : Fetch) (at_ : Nat)

namespace Asks

variable {root : NodeId} {ι : Type} [DecidableEq ι]

/-- The gateway has started. -/
def start (known : List NodeId) : Asks root ι := ⟨⟨known, fun _ => none⟩, fun _ => 0, fun _ => .idle⟩

/-- Ask `i` comes to a stage. -/
def goes (s : Asks root ι) (i : ι) (a : AskStage root) : Asks root ι :=
  { s with stage := Function.update s.stage i a }

/-- What an ask is given: `VIEW_WAIT` bounds it. -/
def fetched (known : List NodeId) (base : Option (HeldView root)) (f : Fetch) :
    Except Anyhow (HeldView root) :=
  if f.timedOut then .error ["no directory gave this user's view within 10s"]
  else fetch known base f.now f.turns f.last

/-- One step. -/
def step (s : Asks root ι) : AskEvent ι → Option (Asks root ι)
  | .refresh i token notAfter =>
    match s.stage i with
    | .idle => some (s.goes i (.asks token notAfter .refresher))
    | _ => none
  | .view i token notAfter now at_ =>
    match s.stage i with
    | .idle =>
      let (views, cached) := s.views.cached token now
      let s := { s with views }
      match cached.filter fun v => at_ - v.asked < POLL with
      | some v => some (s.goes i (.done (.ok v.held)))
      | none => some (s.goes i (.asks token notAfter (.request cached)))
    | _ => none
  | .read i now =>
    match s.stage i with
    | .asks token notAfter goal =>
      let (views, cached) := s.views.cached token now
      let s := { s with views }
      some (s.goes i (.fetches token notAfter goal (cached.map (·.held)) (s.writes token)))
    | _ => none
  | .answer i f at_ =>
    match s.stage i with
    | .fetches token notAfter goal base _ =>
      let result := fetched s.views.known base f
      some { s.goes i (.done (goal.answer result)) with
        views := s.views.answered token notAfter at_ result
        writes := if Views.isWritten result then
          Function.update s.writes token (s.writes token + 1) else s.writes }
    | _ => none

end Asks

end Wires
