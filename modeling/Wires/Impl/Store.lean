import Wires.Framework.Run
import Wires.Impl.Access
import Mathlib.Logic.Function.Basic

/-!
# The policy a node holds

`wires/policy/store.rs`: a policy verified under the root (`Held`), the file it
is kept in (`read`), and `adopt_if_newer` as the steps of a process: it checks
the candidate, takes the lock, reads the file, writes or keeps it, and lets the
lock go. `Adopt.step` is a system of any number of such calls, one step of one
call at a time; a step of the operating system can fail.
-/

namespace Wires

/-- An `anyhow` error: its contexts, outermost first, and its cause. -/
abbrev Anyhow := List String

/-- `Context::context`. -/
def context {α : Type} (why : String) : Except Anyhow α → Except Anyhow α
  | .ok a => .ok a
  | .error e => .error (why :: e)

/-- A library error as an `anyhow` one. -/
def anyhow {α : Type} : Result α → Except Anyhow α
  | .ok a => .ok a
  | .error e => .error [e.display]

@[simp] theorem context_eq_ok {α : Type} {why : String} {x : Except Anyhow α} {a : α} :
    context why x = .ok a ↔ x = .ok a := by
  cases x <;> simp [context]

@[simp] theorem anyhow_eq_ok {α : Type} {x : Result α} {a : α} : anyhow x = .ok a ↔ x = .ok a := by
  cases x <;> simp [anyhow]

/-! ## Held policies -/

section

variable [Crypto]

/-- A signed policy this node verified under its root, and the typed policy its items make. -/
structure Held (root : NodeId) where
  signed : SignedPolicy
  policy : Policy
  verified : signed.verify root = .ok ()
  typed : signed.toPolicy = .ok policy

namespace Held

variable {root : NodeId}

/-- `Held::verify`. -/
def verify (signed : SignedPolicy) (root : NodeId) : Except Anyhow (Held root) :=
  match hv : signed.verify root with
  | .error e => .error ["the policy does not verify under the network root", e.display]
  | .ok () =>
    match ht : signed.toPolicy with
    | .error e => .error [e.display]
    | .ok policy => .ok ⟨signed, policy, hv, ht⟩

/-- `Held::version`. -/
def version (h : Held root) : StateVersion := h.signed.version

/-- `Held::check_fresh`. -/
def checkFresh (h : Held root) (now : Int64) : Result Unit := h.signed.head.checkFresh now

theorem verify_eq_ok {signed : SignedPolicy} {h : Held root} :
    verify signed root = .ok h ↔ h.signed = signed := by
  unfold verify
  constructor
  · split
    · simp
    · split
      · simp
      · rintro ⟨⟩
        rfl
  · rintro rfl
    split
    · rename_i e he
      rw [h.verified] at he
      cases he
    · split
      · rename_i e he
        rw [h.typed] at he
        cases he
      · rename_i p hp
        have : p = h.policy := by
          rw [h.typed] at hp
          exact (Except.ok.inj hp).symm
        subst this
        rfl

end Held

end

/-! ## The file -/

/-- What stands at `policy.json`. -/
inductive PolicyFile where
  | absent
  /-- An I/O error other than "not found", or bytes that are not UTF-8. -/
  | unreadable (why : String)
  | text (cs : List Char)

section

variable [Crypto] (path : String) (root : NodeId)

/-- `store::read`: the stored policy, verified; a file that is there but invalid is an error. -/
def read : PolicyFile → Except Anyhow (Option (Held root))
  | .absent => .ok none
  | .unreadable why => .error ["reading " ++ path, why]
  | .text cs => do
    let signed ← orError (readText (α := SignedPolicy) (trim cs)) ["parsing " ++ path]
    let held ← context path (Held.verify signed root)
    return some held

/-- What `adopt_if_newer` asks of a candidate before it takes the lock. -/
def checkOffered (candidate : SignedPolicy) (now : Int64) : Except Anyhow Unit := do
  context "the offered policy does not verify under the network root"
    (anyhow (candidate.verify root))
  context "the offered policy is not fresh" (anyhow (candidate.head.checkFresh now))

/-- The text `adopt_if_newer` writes. -/
def policyText (candidate : SignedPolicy) : List Char := jsonText candidate ++ ['\n']

end

/-! ## Adopting -/

/-- Where a call of `adopt_if_newer` is. -/
inductive Stage where
  /-- The candidate passed its checks; the lock is not taken. -/
  | waits
  /-- The lock is held, the file not read. -/
  | reads
  /-- The candidate is newer than what the file holds. -/
  | writes
  /-- Only the lock is left to release. -/
  | unlocks (result : Except Anyhow Bool)
  | returned (result : Except Anyhow Bool)

/-- A policy offered to a node. One is decoded from a message or signed from a policy the admin
edits, so its email patterns are results of parsing. -/
structure Candidate where
  policy : SignedPolicy
  parsed : policy.Parsed

/-- A call of `adopt_if_newer`: its arguments, and where it is. -/
structure Call where
  candidate : Candidate
  now : Int64
  stage : Stage

/-- The file, its lock, and the calls made. -/
structure Adopt (ι : Type) where
  file : PolicyFile
  lock : Option ι
  calls : ι → Option Call

/-- A step of one of the calls. -/
inductive AdoptEvent (ι : Type) where
  | call (i : ι) (candidate : Candidate) (now : Int64)
  | lock (i : ι)
  | read (i : ι)
  | write (i : ι)
  | unlock (i : ι)
  /-- Opening or taking the lock, reading the file or writing it fails. -/
  | fails (i : ι) (why : Anyhow)

namespace Adopt

variable {ι : Type} [DecidableEq ι]

/-- No call made yet. -/
def start (file : PolicyFile) : Adopt ι := ⟨file, none, fun _ => none⟩

/-- Call `i` comes to a stage. -/
def goes (σ : Adopt ι) (i : ι) (c : Call) (stage : Stage) : Adopt ι :=
  { σ with calls := Function.update σ.calls i (some { c with stage }) }

variable [Crypto] (path : String) (root : NodeId)

/-- What a call finds when it reads the file: an error, that it has nothing to do, or that it
is to write. -/
def found (file : PolicyFile) (candidate : SignedPolicy) : Stage :=
  match Wires.read path root file with
  | .error e => .unlocks (.error e)
  | .ok none => .writes
  | .ok (some stored) =>
    if candidate.isNewerThan stored.signed then .writes else .unlocks (.ok false)

/-- One step of one call of `adopt_if_newer`. -/
def step (σ : Adopt ι) : AdoptEvent ι → Option (Adopt ι)
  | .call i candidate now =>
    match σ.calls i with
    | some _ => none
    | none => some (σ.goes i ⟨candidate, now, .waits⟩ (match checkOffered root candidate.policy now with
      | .ok () => .waits
      | .error e => .returned (.error e)))
  | .lock i =>
    match σ.calls i, σ.lock with
    | some c@⟨_, _, .waits⟩, none => some { σ.goes i c .reads with lock := some i }
    | _, _ => none
  | .read i =>
    match σ.calls i with
    | some c@⟨_, _, .reads⟩ => some (σ.goes i c (found path root σ.file c.candidate.policy))
    | _ => none
  | .write i =>
    match σ.calls i with
    | some c@⟨_, _, .writes⟩ =>
      if '\n' ∈ jsonText c.candidate.policy then
        some (σ.goes i c (.unlocks (.error ["an encoded policy must be one line"])))
      else some { σ.goes i c (.unlocks (.ok true)) with file := .text (policyText c.candidate.policy) }
    | _ => none
  | .unlock i =>
    match σ.calls i with
    | some c@⟨_, _, .unlocks result⟩ => some { σ.goes i c (.returned result) with lock := none }
    | _ => none
  | .fails i why =>
    match σ.calls i with
    | some c@⟨_, _, .waits⟩ => some (σ.goes i c (.returned (.error why)))
    | some c@⟨_, _, .reads⟩ => some (σ.goes i c (.unlocks (.error why)))
    | some c@⟨_, _, .writes⟩ => some (σ.goes i c (.unlocks (.error why)))
    | _ => none

end Adopt

end Wires
