import Wires.Impl.Fresh
import Wires.Impl.Host

/-!
# The view a caller holds

`wires/caller/view.rs`: the view verified under the root (`HeldView`), with the
directories' words seen for it, and how it is asked for again: `fetch`, which
tells a directory nothing before its proof checks out (`directoryVouched`) and
takes a view only under the head proved (`takeView`), and `refresh`, which cuts
it from the whole policy on a node that holds one. What the directories send,
in which order, and what the clock says at each reading are the environment's:
a `Turn` is one turn of `ask_proven`'s loop.
-/

namespace Wires

/-- `NodeId::short`. -/
def NodeId.short (n : NodeId) : String := String.ofList (hexEncode (n.toList.take 4))

/-- `{e:#}`: the contexts of an error and its cause, on one line. -/
def oneLine (e : Anyhow) : String := String.intercalate ": " e

variable [Crypto]

namespace FreshSet

/-- `FreshSet::iter`. -/
def iter (set : FreshSet) : List Fresh := set.words.map (·.fresh)

/-- Each of `words` that verifies for `head`, taken in. -/
def learn (set : FreshSet) (words : List Fresh) (head : SignedPolicyHead) (now : Int64) :
    FreshSet :=
  words.foldl (fun set f =>
    match f.toVerified head with
    | .ok v => (set.insert v now).1
    | .error _ => set) set

end FreshSet

/-! ## Held views -/

/-- The view, the newest word each directory signed for it, when a directory last vouched for it,
and the newest head version a host reported. -/
structure HeldView (root : NodeId) where
  view : View
  verified : view.verify root = .ok ()
  fresh : FreshSet
  checked : Int64
  seen : StateVersion

namespace HeldView

variable {root : NodeId}

/-- `HeldView::learn_all`. -/
def learnAll (h : HeldView root) (words : List Fresh) (now : Int64) : HeldView root :=
  { h with fresh := h.fresh.learn words h.view.head now }

/-- `HeldView::fetched`. -/
def fetched (view : View) (verified : view.verify root = .ok ()) (fresh : Option Fresh)
    (now : Int64) : HeldView root where
  view
  verified
  fresh := FreshSet.empty.learn fresh.toList view.head now
  checked := now
  seen := 0

/-- `HeldView::keeping`. -/
def keeping (h : HeldView root) (old : Option (HeldView root)) (now : Int64) : HeldView root :=
  h.learnAll (old.toList.flatMap (·.fresh.iter)) now

/-- `HeldView::version`. -/
def version (h : HeldView root) : StateVersion := h.view.head.head.version

/-- `HeldView::directories`. -/
def directories (h : HeldView root) : List NodeId := h.view.head.head.directories

/-- `HeldView::entry`. -/
def entry (h : HeldView root) (service : ServiceName) : Option SignedEntry := h.view.entry service

@[simp] theorem view_learnAll (h : HeldView root) (words : List Fresh) (now : Int64) :
    (h.learnAll words now).view = h.view := rfl

@[simp] theorem view_keeping (h : HeldView root) (old : Option (HeldView root)) (now : Int64) :
    (h.keeping old now).view = h.view := rfl

/-- What a held view's entries are. -/
theorem verify_of_mem (h : HeldView root) {e : SignedEntry} (he : e ∈ h.view.entries) :
    e.verify root = .ok () ∧ e.version ≤ h.version := by
  obtain ⟨-, -, hes⟩ := View.verify_eq_ok.mp h.verified
  obtain ⟨hc, hv⟩ := hes e he
  exact ⟨hv, (checkEntryVersion_eq_ok.mp hc).2⟩

theorem verify_head (h : HeldView root) : h.view.head.verify root = .ok () :=
  (View.verify_eq_ok.mp h.verified).1

end HeldView

/-! ## The stored view -/

/-- `view.json` as read: its words not yet checked against its head. -/
structure StoredView where
  view : View
  fresh : List Fresh
  checked : Int64
  seen : StateVersion

/-- What stands at `view.json`. -/
inductive ViewFile where
  | absent
  /-- An I/O error other than "not found". -/
  | unreadable (why : String)
  /-- A text that is no `StoredView`. -/
  | unparsed (why : String)
  | stored (s : StoredView)

/-- `view::read`: the stored view, verified; a file that is there but invalid is an error. -/
def readView (path : String) (root : NodeId) : ViewFile → Except Anyhow (Option (HeldView root))
  | .absent => .ok none
  | .unreadable why => .error ["reading " ++ path, why]
  | .unparsed why => .error ["parsing " ++ path, why]
  | .stored s =>
    match hv : s.view.verify root with
    | .error e => .error [path ++ " does not verify under the network root", e.display]
    | .ok () => .ok (some {
        view := s.view
        verified := hv
        fresh := FreshSet.fromUnverified s.fresh s.view.head
        checked := s.checked
        seen := s.seen })

/-! ## Which directories are told anything -/

/-- `directory_vouched`: whether `dir` may be told this caller's token, from its proof. -/
def directoryVouched (proof : HostProof) (pool : FreshSet) (root : NodeId)
    (held : Option SignedPolicyHead) (known : List NodeId) (dir : NodeId) (now : Int64) :
    Except Anyhow Unit := do
  ensure (proof.head.head.directories.contains dir = true)
    ["its policy (version " ++ toString proof.head.head.version ++
      ") doesn't list it as a directory"]
  anyhow (proof.head.verify root)
  let set := pool.learn (proof.fresh.take MAX_FRESH_SET) proof.head now
  let combined : HostProof := { head := proof.head, fresh := set.currentFor proof.head now }
  match held with
  | some head =>
    let _ ← anyhow (combined.check root head dir now)
  | none =>
    anyhow (combined.head.verify root)
    anyhow (combined.head.checkFresh now)
    let _ ← anyhow (combined.vouching dir now)
  let alone := known.all fun d => d = dir
  ensure (combined.fresh.any (fun f =>
      isOk (f.vouches combined.head dir now) && (f.directory ≠ dir || alone)) = true)
    ["it vouched for its own policy, which lists it as the one directory, but the network " ++
      "names others"]

/-- `pool_words`: the words of a proof that may join the pool. -/
def poolWords (proof : HostProof) (root : NodeId) (held : Option SignedPolicyHead) (now : Int64) :
    List VerifiedFresh :=
  if isOk (proof.head.verify root) && isOk (proof.head.checkFresh now) &&
      held.all (fun h => proof.head.head.version ≥ h.head.version) then
    (proof.fresh.take MAX_FRESH_SET).filterMap fun f => (f.toVerified proof.head).toOption
  else []

/-! ## Asking the directories -/

/-- A directory's answer to a request. -/
inductive DirectoryAnswer where
  | view (view : View) (fresh : Fresh)
  | denied (reason : String)
  /-- Any other, by its debug text. -/
  | other (debug : String)

/-- A directory that has shown its proof and been told nothing else, with what it answers once it
is sent the token and the request. -/
structure Opened where
  dir : NodeId
  proof : HostProof
  answer : Except Anyhow DirectoryAnswer

/-- What `join_next` brings. -/
inductive Arrival where
  | opened (o : Opened)
  | failed (dir : NodeId) (why : Anyhow)
  /-- The task that asked did not finish. -/
  | lost

/-- One turn of `ask_proven`'s loop: what arrives, and what the clock says at each reading. -/
structure Turn where
  arrival : Arrival
  clock : Nat → Int64

/-- What the asking came to when no answer was taken. -/
structure Unanswered where
  failures : List String
  notAdmitted : Bool
deriving DecidableEq

/-- A directory failed. -/
def Unanswered.failed (out : Unanswered) (dir : NodeId) (why : String) : Unanswered :=
  { out with failures := out.failures ++ [dir.short ++ ": " ++ why] }

/-- The token and the request are sent to a directory: its answer taken, or why not. -/
def Opened.ask {T : Type} (take : SignedPolicyHead → DirectoryAnswer → Except Anyhow T)
    (o : Opened) (out : Unanswered) : Except Unanswered T :=
  match o.answer with
  | .ok (.denied reason) =>
    let out := { out with notAdmitted := out.notAdmitted || reason = NOT_ADMITTED }
    .error (out.failed o.dir ("refused: " ++ reason))
  | .ok answer =>
    match take o.proof.head answer with
    | .ok t => .ok t
    | .error e => .error (out.failed o.dir (oneLine e))
  | .error e => .error (out.failed o.dir (oneLine e))

/-- The inner loop of `ask_proven`: every waiting directory the pool now vouches for is asked, in
turn, until an answer is taken; else those still waiting. -/
def askWaiting {T : Type} (vouched : Int64 → Opened → Except Anyhow Unit)
    (take : SignedPolicyHead → DirectoryAnswer → Except Anyhow T) (clock : Nat → Int64) :
    Nat → List Opened → Unanswered → Except (List Opened × Unanswered) T
  | _, [], out => .error ([], out)
  | k, o :: os, out =>
    match vouched (clock k) o with
    | .error _ =>
      match askWaiting vouched take clock (k + 1) os out with
      | .ok t => .ok t
      | .error (left, out) => .error (o :: left, out)
    | .ok () =>
      match o.ask take out with
      | .ok t => .ok t
      | .error out => askWaiting vouched take clock (k + 1) os out

section

variable {T : Type} (root : NodeId) (known : List NodeId) (held : Option SignedPolicyHead)
  (take : SignedPolicyHead → DirectoryAnswer → FreshSet → Except Anyhow T)

/-- Why a directory that was never asked was told nothing. -/
def toldNothing (pool : FreshSet) (now : Int64) (o : Opened) : String :=
  let why := match directoryVouched o.proof pool root held known o.dir now with
    | .ok () => "it lapsed"
    | .error e => oneLine e
  "could not show a current policy (" ++ why ++ "); nothing was sent to it"

/-- The pool once a directory's proof has come. -/
def pooled (pool : FreshSet) (proof : HostProof) (now : Int64) : FreshSet :=
  (poolWords proof root held now).foldl (fun set v => (set.insert v now).1) pool

/-- The outer loop of `ask_proven`. -/
def askTurns (last : Int64) : List Turn → FreshSet → List Opened → Unanswered → Except Unanswered T
  | [], pool, waiting, out =>
    .error (waiting.foldl (fun out o =>
      out.failed o.dir (toldNothing root known held pool last o)) out)
  | t :: ts, pool, waiting, out =>
    let round (pool : FreshSet) (waiting : List Opened) (out : Unanswered) :=
      match askWaiting (fun now o => directoryVouched o.proof pool root held known o.dir now)
          (fun head answer => take head answer pool) t.clock 1 waiting out with
      | .ok a => .ok a
      | .error (waiting, out) => askTurns last ts pool waiting out
    match t.arrival with
    | .lost => askTurns last ts pool waiting out
    | .failed dir why => round pool waiting (out.failed dir (oneLine why))
    | .opened o => round (pooled root held pool o.proof (t.clock 0)) (waiting ++ [o]) out

end

/-- `ask_proven`. -/
def askProven {T : Type} {root : NodeId} (known : List NodeId) (held : Option (HeldView root))
    (take : SignedPolicyHead → DirectoryAnswer → FreshSet → Except Anyhow T) (turns : List Turn)
    (last : Int64) : Except Unanswered T :=
  askTurns root known (held.map (·.view.head)) take last turns
    ((held.map (·.fresh)).getD FreshSet.empty) [] ⟨[], false⟩

/-! ## Fetching the view -/

section

variable {root : NodeId} (known : List NodeId) (held : Option (HeldView root)) (now : Int64)

/-- What `fetch` takes: a view that verifies, under the head proved, with a word for it, no older
than the view held. -/
def takeView (proved : SignedPolicyHead) (answer : DirectoryAnswer) (pool : FreshSet) :
    Except Anyhow (HeldView root) :=
  match answer with
  | .view view fresh => do
    ensure (view.head = proved) ["a view under another head than the one it proved"]
    match hv : view.verify root with
    | .error e => .error ["the directory's view does not verify", e.display]
    | .ok () => do
      context "the directory's freshness doesn't vouch for its view"
        (anyhow (fresh.verify view.head))
      ensure (held.all (fun old => ¬view.head.head.version < old.version) = true)
        ["an older view (version " ++ toString view.head.head.version ++ ")"]
      return ((HeldView.fetched view hv (some fresh) now).keeping held now).learnAll pool.iter now
  | .denied reason => .error ["an unexpected answer to `view`: " ++ reason]
  | .other debug => .error ["an unexpected answer to `view`: " ++ debug]

/-- `fetch`. -/
def fetch (turns : List Turn) (last : Int64) : Except Anyhow (HeldView root) :=
  match askProven known held (takeView held now) turns last with
  | .ok fetched => .ok fetched
  | .error out =>
    let failed := "no directory gave this node its view (" ++
      String.intercalate "; " out.failures ++ ")"
    if out.notAdmitted then
      .error ["a directory said this node is not admitted to the network", failed]
    else .error [failed]

end

/-! ## Bringing the view up to date -/

/-- What a refresh reads of the node: its stored policy, its stored view, and the directories its
network string names. -/
structure Home where
  policy : PolicyFile
  view : ViewFile
  joined : List NodeId

/-- `view::directories`: those this node asks, never itself. -/
def Home.directories (home : Home) (path : String) (root me : NodeId) : List NodeId :=
  let dirs := match readView path root home.view with
    | .ok (some held) => held.directories
    | _ => []
  (home.joined.foldl (fun dirs d => if dirs.contains d then dirs else dirs ++ [d]) dirs).filter
    fun d => d ≠ me

/-- `view::refresh`, for a caller that is `principal` by its stored identity. `written` is what
became of writing the file; `turns` are those of asking `directories`. -/
def refresh (policyPath viewPath : String) (root me : NodeId) (home : Home) (forget : Bool)
    (principal : Option Principal) (now : Int64) (turns : List Turn) (last : Int64)
    (written : Except Anyhow Unit) : Except Anyhow (HeldView root) := do
  match ← read policyPath root home.policy with
  | some whole =>
    let view := whole.signed.viewFor me principal none
    match hv : view.verify root with
    | .error e => .error ["refusing to store a view that does not verify", e.display]
    | .ok () =>
      written
      return HeldView.fetched view hv none now
  | none =>
    let held ← if forget then pure none else readView viewPath root home.view
    if home.directories viewPath root me = [] then
      orError held ["this node knows no directory to ask for its view: ask your admin for the " ++
        "network string (`wires network`) and `wires login <network>` with it"]
    else
      let fetched ← fetch home.joined held now turns last
      written
      return fetched

end Wires
