import Wires.Impl.Head

/-!
# A caller's view

`library/services/view.rs`: the head and the root-signed entries of the
services a caller may use, with the two checks the view shares with the whole
policy (`check_entry_version` and `service_matches` of
`library/services/signed_policy.rs`).
-/

namespace Wires

/-- `check_entry_version`: the entry is of the head's network, and not newer than the head. -/
def checkEntryVersion (entry : SignedEntry) (head : SignedPolicyHead) : Result Unit := do
  ensure (entry.fabric = head.head.fabric) .invalidSignature
  ensure (¬entry.version > head.head.version) (.invalidPolicy
    ("service " ++ entry.name.name ++ " is at version " ++ toString entry.version ++
      ", after its head's " ++ toString head.head.version))

theorem checkEntryVersion_eq_ok {e : SignedEntry} {h : SignedPolicyHead} {u : Unit} :
    checkEntryVersion e h = .ok u ↔ e.fabric = h.head.fabric ∧ e.version ≤ h.head.version := by
  simp [checkEntryVersion]

/-- `service_matches`: the name or the description contains `query`, already lower-case. -/
def serviceMatches (name : ServiceName) (svc : Service) (query : String) : Bool :=
  containsText name.name query || containsText (asciiLower svc.description) query

/-- A caller's part of the policy. -/
structure View where
  head : SignedPolicyHead
  entries : List SignedEntry
deriving DecidableEq

/-- The first of a list that is not above the one before it. -/
def firstUnordered {α : Type} [LinearOrder α] : List α → Option α
  | a :: b :: as => if b ≤ a then some b else firstUnordered (b :: as)
  | _ => none

@[simp] theorem firstUnordered_eq_none {α : Type} [LinearOrder α] {as : List α} :
    firstUnordered as = none ↔ as.Pairwise (· < ·) := by
  rw [← List.isChain_iff_pairwise]
  induction as with
  | nil => simp [firstUnordered]
  | cons a as ih =>
    cases as with
    | nil => simp [firstUnordered]
    | cons b as =>
      rw [firstUnordered, List.isChain_cons_cons]
      by_cases h : b ≤ a
      · simp [h, not_lt.mpr h]
      · simp [h, not_le.mp h, ih]

namespace View

/-- `View::entry`. -/
def entry (v : View) (name : ServiceName) : Option SignedEntry :=
  v.entries.find? (·.name = name)

/-- `View::matching`. -/
def matching (v : View) (query : String) : List SignedEntry :=
  v.entries.filter fun e => serviceMatches e.name e.service (asciiLower query)

theorem entry_mem {v : View} {name : ServiceName} {e : SignedEntry} (h : v.entry name = some e) :
    e ∈ v.entries ∧ e.name = name :=
  ⟨List.mem_of_find?_eq_some h, by simpa using List.find?_some h⟩

variable [Crypto]

/-- `View::verify`: the head, the order of the entries, and each entry on its own at a version
no later than the head's. -/
def verify (v : View) (root : NodeId) : Result Unit := do
  v.head.verify root
  refuse (firstUnordered (v.entries.map (·.name))) fun name =>
    "service " ++ name.name ++ " is out of order or repeated in the view"
  forEach (fun e => do checkEntryVersion e v.head; e.verify root) v.entries

theorem verify_eq_ok {v : View} {root : NodeId} {u : Unit} :
    v.verify root = .ok u ↔ v.head.verify root = .ok () ∧
      (v.entries.map (·.name)).Pairwise (· < ·) ∧
      ∀ e ∈ v.entries, checkEntryVersion e v.head = .ok () ∧ e.verify root = .ok () := by
  simp [verify]

end View

end Wires
