import Wires.Impl.SignedPolicy

/-!
# Freshness and a host's proof

`library/services/fresh.rs`: a directory's signed word that a head is the
newest it holds, and the set of newest words a node keeps; and
`library/calls/proof.rs`: what a host shows before it is told anything.

What a directory signs is `FRESH_CONTEXT` followed by the canonical JSON of
every field but the signature. A word in a `FreshSet` verified against some
head when it was taken in (`VerifiedFresh`); every use checks it again against
the head it is asked about.
-/

namespace Wires

def FRESH_V1 : UInt8 := 1

/-- `FRESH_CONTEXT`: what a `Fresh`'s signed bytes start with. -/
def FRESH_CONTEXT : List Char := "wires/fresh/v1\x00".toList

/-- How far clocks may be apart, seconds. -/
def CLOCK_SKEW_SECS : Int64 := 60

/-- A directory's signed statement that a head is the newest it holds. -/
structure Fresh where
  format : UInt8
  fabric : NodeId
  directory : NodeId
  version : StateVersion
  head : HeadHash
  at_ : Int64
  until_ : Int64
  alg : AlgorithmId
  sig : Signature
deriving DecidableEq

namespace Fresh

/-- `fresh::SignedBody`: every field but the signature. -/
structure SignedBody where
  format : UInt8
  fabric : NodeId
  directory : NodeId
  version : StateVersion
  head : HeadHash
  at_ : Int64
  until_ : Int64
  alg : AlgorithmId

instance : Serde SignedBody where
  toJson b := .obj [("format", toJson b.format), ("fabric", toJson b.fabric),
    ("directory", toJson b.directory), ("version", toJson b.version), ("head", toJson b.head),
    ("at", toJson b.at_), ("until", toJson b.until_), ("alg", toJson b.alg)]
  ofJson j := do
    let f ← j.fields ["format", "fabric", "directory", "version", "head", "at", "until", "alg"]
    return {
      format := ← field f "format"
      fabric := ← field f "fabric"
      directory := ← field f "directory"
      version := ← field f "version"
      head := ← field f "head"
      at_ := ← field f "at"
      until_ := ← field f "until"
      alg := ← field f "alg" }

/-- `SignedBody::signed_bytes`. -/
def SignedBody.signedBytes (b : SignedBody) : List UInt8 := utf8 (FRESH_CONTEXT ++ canonicalText b)

def body (f : Fresh) : SignedBody :=
  ⟨f.format, f.fabric, f.directory, f.version, f.head, f.at_, f.until_, f.alg⟩

/-- `Fresh::signed_bytes`: what the signature covers. -/
def signedBytes (f : Fresh) : List UInt8 := f.body.signedBytes

/-- `Fresh::is_current`. -/
def isCurrent (f : Fresh) (now : Int64) : Bool :=
  now ≥ satSub f.at_ CLOCK_SKEW_SECS && now ≤ f.until_

variable [Crypto]

/-- `Fresh::sign`. -/
def sign (directory : NodeIdentity) (head : SignedPolicyHead) (at_ until_ : Int64) :
    Result Fresh := do
  ensure (head.head.isDirectory (nodeId directory)) .notADirectory
  ensure (¬until_ < at_) (.invalidPolicy "freshness ends before it starts")
  ensure (¬satSub until_ at_ > i64OfU32 head.head.freshSecs) .freshTooLong
  let body : SignedBody := {
    format := FRESH_V1
    fabric := head.head.fabric
    directory := nodeId directory
    version := head.head.version
    head := head.hash
    at_
    until_
    alg := .ed25519 }
  return {
    format := body.format
    fabric := body.fabric
    directory := body.directory
    version := body.version
    head := body.head
    at_
    until_
    alg := body.alg
    sig := Crypto.sign directory body.signedBytes }

/-- `Fresh::verify`: it vouches for exactly `head`, signed by a directory `head` lists, for no
longer than `head` allows. -/
def verify (f : Fresh) (head : SignedPolicyHead) : Result Unit := do
  ensure (f.format = FRESH_V1) .unsupportedVersion
  ensure (f.alg = .ed25519) .unsupportedAlgorithm
  ensure (¬(f.fabric ≠ head.head.fabric ∨ f.version ≠ head.head.version ∨ f.head ≠ head.hash))
    .freshMismatch
  ensure (head.head.isDirectory f.directory) .notADirectory
  ensure (¬f.until_ < f.at_) (.invalidPolicy "freshness ends before it starts")
  ensure (¬satSub f.until_ f.at_ > i64OfU32 head.head.freshSecs) .freshTooLong
  f.directory.verify f.signedBytes f.sig

/-- `Fresh::verify_signature`: the directory it names signed it, for whatever head. -/
def verifySignature (f : Fresh) : Result Unit := do
  ensure (f.format = FRESH_V1) .unsupportedVersion
  ensure (f.alg = .ed25519) .unsupportedAlgorithm
  f.directory.verify f.signedBytes f.sig

/-- `Fresh::vouches`: it lets a caller dialing `host` take `head` as current at `now`. -/
def vouches (f : Fresh) (head : SignedPolicyHead) (host : NodeId) (now : Int64) : Result Unit := do
  f.verify head
  ensure (f.isCurrent now) .freshLapsed
  let onlyTheHost := decide (head.head.directories = [host])
  ensure (¬(f.directory = host ∧ onlyTheHost = false)) .selfVouched

theorem verify_eq_ok {f : Fresh} {head : SignedPolicyHead} {u : Unit} :
    f.verify head = .ok u ↔ f.format = FRESH_V1 ∧ f.alg = .ed25519 ∧
      (f.fabric = head.head.fabric ∧ f.version = head.head.version ∧ f.head = head.hash) ∧
      f.directory ∈ head.head.directories ∧ f.at_ ≤ f.until_ ∧
      satSub f.until_ f.at_ ≤ i64OfU32 head.head.freshSecs ∧
      Crypto.verify f.directory f.signedBytes f.sig = true := by
  simp [verify, NodeId.verify_eq_ok, PolicyHead.isDirectory]

theorem verifySignature_eq_ok {f : Fresh} {u : Unit} :
    f.verifySignature = .ok u ↔ f.format = FRESH_V1 ∧ f.alg = .ed25519 ∧
      Crypto.verify f.directory f.signedBytes f.sig = true := by
  simp [verifySignature, NodeId.verify_eq_ok]

/-- What is signed verifies. -/
theorem of_sign {directory : NodeIdentity} {head : SignedPolicyHead} {at_ until_ : Int64}
    {f : Fresh} (h : sign directory head at_ until_ = .ok f) :
    f.verify head = .ok () ∧ f.directory = nodeId directory ∧ f.at_ = at_ ∧ f.until_ = until_ := by
  simp only [sign, bind_eq_ok, ensure_eq_ok, pure_eq_ok, exists_const, PolicyHead.isDirectory,
    List.contains_eq_mem, decide_eq_true_eq] at h
  obtain ⟨hdir, hle, hsecs, rfl⟩ := h
  refine ⟨verify_eq_ok.mpr ⟨rfl, rfl, ⟨rfl, rfl, rfl⟩, hdir, Int64.not_lt.mp hle,
    Int64.not_lt.mp hsecs, ?_⟩, rfl, rfl, rfl⟩
  exact Crypto.verify_sign _ _

theorem vouches_eq_ok {f : Fresh} {head : SignedPolicyHead} {host : NodeId} {now : Int64}
    {u : Unit} : f.vouches head host now = .ok u ↔ f.verify head = .ok () ∧
      f.isCurrent now = true ∧ (f.directory = host → head.head.directories = [host]) := by
  simp [vouches]

end Fresh

/-! ## The newest words -/

variable [Crypto]

/-- A `Fresh` that verified against a head. -/
structure VerifiedFresh where
  fresh : Fresh
  verified : ∃ head, fresh.verify head = .ok ()

/-- `Fresh::verified`. -/
def Fresh.toVerified (f : Fresh) (head : SignedPolicyHead) : Result VerifiedFresh :=
  match h : f.verify head with
  | .ok () => .ok ⟨f, head, h⟩
  | .error e => .error e

theorem Fresh.toVerified_eq_ok {f : Fresh} {head : SignedPolicyHead} {v : VerifiedFresh} :
    f.toVerified head = .ok v ↔ f.verify head = .ok () ∧ v.fresh = f := by
  unfold Fresh.toVerified
  split
  · rename_i h
    simp only [h, Except.ok.injEq, true_and]
    exact ⟨fun e => e ▸ rfl, fun e => by cases v; simp_all⟩
  · rename_i e h
    simp [h]

/-- The most directories a `FreshSet` keeps a word from. -/
def MAX_FRESH_SET : Nat := 16

/-- The newest word of each directory. -/
structure FreshSet where
  words : List VerifiedFresh

namespace FreshSet

def empty : FreshSet := ⟨[]⟩

/-- How a word ranks at `now`: by version, then whether it is current, then how long it lasts. -/
def rank (now : Int64) (f : Fresh) : UInt64 × Bool × Int64 := (f.version, f.isCurrent now, f.until_)

/-- Whether a rank is no higher than another: the order of tuples. -/
def rankLe (a b : UInt64 × Bool × Int64) : Bool :=
  a.1 < b.1 || (a.1 = b.1 && ((!a.2.1 && b.2.1) || (a.2.1 = b.2.1 && a.2.2 ≤ b.2.2)))

/-- The place of the first word no other ranks below. -/
def worst (now : Int64) : List VerifiedFresh → Nat
  | [] => 0
  | [_] => 0
  | w :: ws =>
    let i := worst now ws
    match ws[i]? with
    | some least => if rankLe (rank now w.fresh) (rank now least.fresh) then 0 else i + 1
    | none => 0

/-- `FreshSet::insert`: the set after it, and whether the word was kept. -/
def insert (set : FreshSet) (fresh : VerifiedFresh) (now : Int64) : FreshSet × Bool :=
  match set.words.findIdx? (·.fresh.directory = fresh.fresh.directory) with
  | some i =>
    match set.words[i]? with
    | some held =>
      if rankLe (rank now fresh.fresh) (rank now held.fresh) then (set, false)
      else (⟨set.words.set i fresh⟩, true)
    | none => (set, false)
  | none =>
    if set.words.length ≥ MAX_FRESH_SET then
      let i := worst now set.words
      match set.words[i]? with
      | some least =>
        if rankLe (rank now fresh.fresh) (rank now least.fresh) then (set, false)
        else (⟨set.words.eraseIdx i ++ [fresh]⟩, true)
      | none => (set, false)
    else (⟨set.words ++ [fresh]⟩, true)

/-- `FreshSet::vouching`: the first word that vouches for `head` to a caller dialing `host`. -/
def vouching (set : FreshSet) (head : SignedPolicyHead) (host : NodeId) (now : Int64) :
    Option Fresh :=
  (set.words.map (·.fresh)).find? fun f => isOk (f.vouches head host now)

/-- `FreshSet::current_for`: the words that verify for `head` and are current. -/
def currentFor (set : FreshSet) (head : SignedPolicyHead) (now : Int64) : List Fresh :=
  ((set.words.map (·.fresh)).filter fun f =>
    isOk (f.verify head) && f.isCurrent now).take MAX_FRESH_SET

/-- `FreshSet::from_unverified`: the words that verify against `head`, each ranked at its own
`at`. -/
def fromUnverified (words : List Fresh) (head : SignedPolicyHead) : FreshSet :=
  words.foldl (fun set f =>
    match f.toVerified head with
    | .ok v => (set.insert v f.at_).1
    | .error _ => set) empty

theorem mem_insert {set : FreshSet} {v w : VerifiedFresh} {now : Int64}
    (h : w ∈ (set.insert v now).1.words) : w ∈ set.words ∨ w = v := by
  unfold insert at h
  split at h
  · split at h
    · split_ifs at h
      · exact .inl h
      · exact List.mem_or_eq_of_mem_set h
    · exact .inl h
  · split_ifs at h
    · dsimp only at h
      split at h
      · split_ifs at h
        · exact .inl h
        · rcases List.mem_append.mp h with h | h
          · exact .inl (List.mem_of_mem_eraseIdx h)
          · exact .inr (List.mem_singleton.mp h)
      · exact .inl h
    · rcases List.mem_append.mp h with h | h
      · exact .inl h
      · exact .inr (List.mem_singleton.mp h)

theorem vouching_eq_some {set : FreshSet} {head : SignedPolicyHead} {host : NodeId} {now : Int64}
    {f : Fresh} (h : set.vouching head host now = some f) : f.vouches head host now = .ok () := by
  have hf := List.find?_some (show List.find? _ _ = some f from h)
  exact isOk_unit_iff.mp hf

end FreshSet

/-! ## A host's proof -/

/-- What a host shows a caller before it is told anything. -/
structure HostProof where
  head : SignedPolicyHead
  fresh : List Fresh

/-- Where a host stands against a caller's view, once its proof checks out. -/
inductive Standing where
  | same
  | newer (version : StateVersion)
deriving DecidableEq

namespace HostProof

/-- The loop of `vouching`, with the reason kept so far. -/
def firstVouching (head : SignedPolicyHead) (host : NodeId) (now : Int64) :
    Error → List Fresh → Result Fresh
  | why, [] => .error why
  | why, f :: fs =>
    match f.vouches head host now with
    | .ok () => .ok f
    | .error e => firstVouching head host now (if why = .unvouched then e else why) fs

/-- `HostProof::vouching`: the word that vouches, else the first candidate's reason. -/
def vouching (p : HostProof) (host : NodeId) (now : Int64) : Result Fresh :=
  firstVouching p.head host now .unvouched p.fresh

/-- `HostProof::check`. -/
def check (p : HostProof) (root : NodeId) (held : SignedPolicyHead) (host : NodeId) (now : Int64) :
    Result Standing := do
  ensure (¬p.fresh.length > MAX_FRESH_SET) .badFrame
  p.head.verify root
  p.head.checkFresh now
  let theirs := p.head.head.version
  let ours := held.head.version
  ensure (¬theirs < ours) (.olderHead theirs ours)
  ensure (¬(theirs = ours ∧ p.head.hash ≠ held.hash)) .freshMismatch
  let _ ← p.vouching host now
  return if theirs > ours then .newer theirs else .same

theorem firstVouching_eq_ok {head : SignedPolicyHead} {host : NodeId} {now : Int64} {why : Error}
    {fs : List Fresh} {f : Fresh} (h : firstVouching head host now why fs = .ok f) :
    f ∈ fs ∧ f.vouches head host now = .ok () := by
  induction fs generalizing why with
  | nil => cases h
  | cons g fs ih =>
    rw [firstVouching] at h
    split at h
    · rename_i hg
      cases h
      exact ⟨List.mem_cons_self, hg⟩
    · exact (ih h).imp (List.mem_cons_of_mem _) id

theorem vouching_eq_ok {p : HostProof} {host : NodeId} {now : Int64} {f : Fresh}
    (h : p.vouching host now = .ok f) : f ∈ p.fresh ∧ f.vouches p.head host now = .ok () :=
  firstVouching_eq_ok h

/-- What a proof that checks out shows. -/
theorem check_eq_ok {p : HostProof} {root : NodeId} {held : SignedPolicyHead} {host : NodeId}
    {now : Int64} {st : Standing} (h : p.check root held host now = .ok st) :
    p.head.verify root = .ok () ∧ now ≤ p.head.head.notAfter ∧
      held.head.version ≤ p.head.head.version ∧
      (p.head.head.version = held.head.version → p.head.hash = held.hash) ∧
      (∃ f, p.vouching host now = .ok f) ∧
      st = if p.head.head.version > held.head.version then .newer p.head.head.version else .same := by
  simp only [check, bind_eq_ok, ensure_eq_ok, SignedPolicyHead.checkFresh_eq_ok, pure_eq_ok,
    exists_const, exists_ok_unit, exists_and_right] at h
  obtain ⟨-, hv, hn, hle, hne, hf, rfl⟩ := h
  refine ⟨hv, hn, UInt64.not_lt.mp hle, fun he => ?_, hf, rfl⟩
  by_contra hc
  exact hne ⟨he, hc⟩

end HostProof

end Wires
