import Wires.Impl.HeldView

/-!
# The caller's check of a host

`wires/caller/vouch.rs`: what a caller checks before it tells a host anything.
`Vouching.ready` is the cached path, taken when a word the caller holds vouches
for its view's head already, and `Vouching.check` the check of the proof the
host shows, before speaking or after. What the refresher answers, when `check`
needs it, is the environment's; its answers are `HeldView`s, as `fetch` and
`refresh` make them. Where learned words and newer versions are kept for later
calls (the sink) is left out: a later call starts from any held view.
-/

namespace Wires

/-- What the caller wants from the host. -/
inductive Scope where
  | service (name : ServiceName)
  | anyService
deriving DecidableEq

/-- A host could not show that its policy is current, so it was sent nothing. -/
structure Unvouched where
  host : String
  why : String
  lapsed : Bool
deriving DecidableEq

/-- Why a host is not spoken to, or not spoken to any more. -/
inductive Stop where
  /-- A dial failure: the next host is tried. -/
  | unvouched (u : Unvouched)
  | failed (why : Anyhow)

/-- How long a refresh spends asking, as its error shows it. -/
def REFRESH_BUDGET : String := "8s"

/-- What a refresher comes to within its budget. -/
inductive Refreshed [Crypto] (root : NodeId) where
  | timedOut
  | answered (result : Except Anyhow (HeldView root))

variable [Crypto]

/-- A caller's view, and what it checks each host's proof against. -/
structure Vouching (root : NodeId) where
  held : HeldView root
  scope : Scope
  /-- Whether there is a refresher. -/
  refresher : Bool
  /-- The directories of the network string. -/
  known : List NodeId

namespace Vouching

variable {root : NodeId} (v : Vouching root) (host : NodeId)

/-- `Vouching::takes`: a word the host signed itself counts only while no other directory is
known. -/
def takes (f : Fresh) : Bool := f.directory ≠ host || v.known.all fun d => d = host

/-- `Vouching::version`. -/
def version : StateVersion := v.held.version

/-- `Vouching::serves`: the view says the host serves what the caller wants. -/
def serves : Bool :=
  match v.scope with
  | .service name => (v.held.entry name).any fun e => e.service.hosts.contains host
  | .anyService => v.held.view.entries.any fun e => e.service.hosts.contains host

/-- `Vouching::ready`: the caller may speak to the host at once. -/
def ready (now : Int64) : Bool :=
  v.serves host && (v.held.fresh.vouching v.held.view.head host now).any fun f => v.takes host f

/-- `learn`, in memory. -/
def learn (f : Fresh) (now : Int64) : Vouching root :=
  { v with held := v.held.learnAll [f] now }

/-- `refresh_to`: the view the refresher brings, whatever its version. -/
def refreshTo (wanted : StateVersion) (refreshed : Refreshed root) :
    Except Anyhow (Vouching root) :=
  if v.refresher then do
    let held ← context ("refreshing your view to the host's policy version " ++ toString wanted)
      (match refreshed with
        | .timedOut => .error ["no directory answered within " ++ REFRESH_BUDGET]
        | .answered result => result)
    return { v with held }
  else .error ["this host holds policy version " ++ toString wanted ++
    ", newer than your view's " ++ toString v.version ++ "; try again shortly"]

end Vouching

/-! ## The check -/

/-- The error of a proof that does not check out. -/
def unvouched (host : NodeId) (e : Error) : Stop :=
  .unvouched { host := host.short, why := e.display
               lapsed := e = .unvouched || e = .freshLapsed || e = .selfVouched }

/-- A dial failure once the refresh was needed. -/
def dialFailure (host : NodeId) (why : String) : Stop :=
  .unvouched { host := host.short, why, lapsed := false }

namespace Vouching

variable {root : NodeId}

/-- A part of a check, which leaves the caller as it is where it fails. -/
def keeping {α : Type} (v : Vouching root) (part : Except Stop α) : Except (Vouching root × Stop) α :=
  mapErr (fun stop => (v, stop)) part

/-- What `check` does once the host's head is known to be newer, before speaking: the view is
brought up to it, and the proof checked again. What fails after that leaves the caller with the view
it was brought up to. -/
def catchUp (v : Vouching root) (host : NodeId) (proof : HostProof) (now : Int64)
    (newer : StateVersion) (refreshed : Refreshed root) : Except (Vouching root × Stop) (Vouching root) :=
  match v.refreshTo newer refreshed with
  | .error e => .error (v, dialFailure host (oneLine e))
  | .ok v => v.keeping do
    ensure (¬v.version < newer) (dialFailure host ("it holds policy version " ++ toString newer ++
      ", and no directory gave a view that new (got " ++ toString v.version ++ ")"))
    match ← mapErr (unvouched host) (proof.check root v.held.view.head host now) with
    | .same => return v
    | .newer _ => .error (dialFailure host "the refreshed view is still older")

/-- The end of `check` before speaking: the word that vouches counts, and the view lists the
host. -/
def mayTell (v : Vouching root) (host : NodeId) (proof : HostProof) (now : Int64) :
    Except Stop Unit := do
  ensure ((proof.vouching host now).toOption.all (v.takes host) = true) (.unvouched {
    host := host.short
    why := "it vouched for its own policy, which lists it as the one directory, but the network " ++
      "names others"
    lapsed := true })
  ensure (v.serves host = true) (dialFailure host ("your view (policy version " ++
    toString v.version ++ ") no longer lists it here"))

/-- The word of a proof that checked out, kept. -/
def learnFrom (v : Vouching root) (host : NodeId) (proof : HostProof) (now : Int64) :
    Vouching root :=
  match proof.vouching host now with
  | .ok f => v.learn f now
  | .error _ => v

/-- `check` before speaking: the caller after it, with why the host is told nothing where it is not. -/
def checkBefore (v : Vouching root) (host : NodeId) (proof : HostProof) (now : Int64)
    (refreshed : Refreshed root) : Except (Vouching root × Stop) (Vouching root) := do
  let v ← match ← v.keeping (mapErr (unvouched host) (proof.check root v.held.view.head host now)) with
    | .same => pure v
    | .newer newer => v.catchUp host proof now newer refreshed
  v.keeping (v.mayTell host proof now)
  return v.learnFrom host proof now

/-- `check` after speaking at once: the words the caller holds count beside the host's own, and a
newer head that the root signed is left to the ack. -/
def checkAfter (v : Vouching root) (host : NodeId) (proof : HostProof) (now : Int64) :
    Except Stop (Vouching root) :=
  if proof.head.head.version > v.version then do
    mapErr (fun e => .failed ["host " ++ host.short ++ "'s newer policy head", e.display])
      (proof.head.verify root)
    return v
  else do
    let combined : HostProof := {
      head := proof.head
      fresh := (proof.fresh ++ v.held.fresh.currentFor proof.head now).take MAX_FRESH_SET }
    let standing ← mapErr (fun e => .failed ["host " ++ host.short ++ " could not show a current " ++
      "policy, so the call was stopped before any input was sent", e.display])
      (combined.check root v.held.view.head host now)
    match standing with
    | .newer _ => return v
    | .same => return v.learnFrom host combined now

/-- `Vouching::check`. -/
def check (v : Vouching root) (host : NodeId) (proof : HostProof) (now : Int64)
    (beforeSpeaking : Bool) (refreshed : Refreshed root) :
    Except (Vouching root × Stop) (Vouching root) :=
  if beforeSpeaking then v.checkBefore host proof now refreshed
  else v.keeping (v.checkAfter host proof now)

end Vouching

end Wires
