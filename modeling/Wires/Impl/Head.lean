import Wires.Impl.Item

/-!
# The policy head

`library/services/head.rs`: the root-signed summary of a policy, which commits
to its items by their hash. What is signed is `POLICY_HEAD_CONTEXT` followed by
the canonical JSON of the head and its algorithm; what is hashed is
`ITEMS_CONTEXT` followed by the canonical JSON of the items.
-/

namespace Wires

def POLICY_V5 : UInt8 := 5

/-- `POLICY_HEAD_CONTEXT`: what a head's signed bytes start with. -/
def POLICY_HEAD_CONTEXT : List Char := "wires/policy-head/v1\x00".toList

/-- `ITEMS_CONTEXT`: what the bytes an items hash hashes start with. -/
def ITEMS_CONTEXT : List Char := "wires/policy-items/v1\x00".toList

/-- The hash naming one exact signed head. -/
abbrev HeadHash := Bytes 32

/-- The hash of a policy's items. -/
abbrev ItemsHash := Bytes 32

/-- The bytes `ItemsHash::of` hashes. -/
def itemsBytes (items : List Item) : List UInt8 := utf8 (ITEMS_CONTEXT ++ canonicalText items)

/-- `ItemsHash::of`. -/
def ItemsHash.of [Crypto] (items : List Item) : ItemsHash := Crypto.hash (itemsBytes items)

/-- The content of a policy head. -/
structure PolicyHead where
  format : UInt8
  fabric : NodeId
  version : StateVersion
  issued : Int64
  notAfter : Int64
  directories : List NodeId
  freshSecs : UInt32
  itemsHash : ItemsHash
deriving DecidableEq

/-- A policy head with the root's signature over it. -/
structure SignedPolicyHead where
  head : PolicyHead
  alg : AlgorithmId
  sig : Signature
deriving DecidableEq

/-! ## A node listed twice -/

/-- The first node that repeats one before it. -/
def firstRepeat : List NodeId → List NodeId → Option NodeId
  | _, [] => none
  | seen, n :: ns => if n ∈ seen then some n else firstRepeat (n :: seen) ns

theorem firstRepeat_eq_none_iff {seen ns : List NodeId} :
    firstRepeat seen ns = none ↔ ns.Nodup ∧ ∀ n ∈ ns, n ∉ seen := by
  induction ns generalizing seen with
  | nil => simp [firstRepeat]
  | cons n ns ih =>
    by_cases h : n ∈ seen
    · simp [firstRepeat, h]
    · simp only [firstRepeat, h, if_false, ih, List.nodup_cons, List.mem_cons, not_or,
        forall_eq_or_imp, not_false_eq_true, true_and]
      constructor
      · rintro ⟨hn, hs⟩
        exact ⟨⟨fun hm => (hs n hm).1 rfl, hn⟩, fun m hm => (hs m hm).2⟩
      · rintro ⟨⟨hm, hn⟩, hs⟩
        exact ⟨hn, fun m hm' => ⟨fun e => hm (e ▸ hm'), hs m hm'⟩⟩

/-- Nothing was found wrong, else the error `why` says of it. -/
def refuse {α : Type} (found : Option α) (why : α → String) : Result Unit :=
  match found with
  | some a => .error (.invalidPolicy (why a))
  | none => .ok ()

@[simp] theorem refuse_eq_ok {α : Type} {found : Option α} {why : α → String} {u : Unit} :
    refuse found why = .ok u ↔ found = none := by
  cases found <;> simp [refuse]

@[simp] theorem firstRepeat_nil_eq_none {ns : List NodeId} :
    firstRepeat [] ns = none ↔ ns.Nodup := by
  simp [firstRepeat_eq_none_iff]

namespace PolicyHead

/-- `PolicyHead::check_directories`. -/
def checkDirectories (h : PolicyHead) : Result Unit :=
  refuse (firstRepeat [] h.directories) fun d => "directory " ++ d.hex ++ " is listed twice"

/-- `PolicyHead::is_directory`. -/
def isDirectory (h : PolicyHead) (node : NodeId) : Bool := h.directories.contains node

instance : Serde PolicyHead where
  toJson h := .obj [("format", toJson h.format), ("fabric", toJson h.fabric),
    ("version", toJson h.version), ("issued", toJson h.issued), ("not_after", toJson h.notAfter),
    ("directories", toJson h.directories), ("fresh_secs", toJson h.freshSecs),
    ("items_hash", toJson h.itemsHash)]
  ofJson j := do
    let f ← j.fields ["format", "fabric", "version", "issued", "not_after", "directories",
      "fresh_secs", "items_hash"]
    return {
      format := ← field f "format"
      fabric := ← field f "fabric"
      version := ← field f "version"
      issued := ← field f "issued"
      notAfter := ← field f "not_after"
      directories := ← field f "directories"
      freshSecs := ← field f "fresh_secs"
      itemsHash := ← field f "items_hash" }

/-- `head::SignedBody`. -/
structure SignedBody where
  alg : AlgorithmId
  head : PolicyHead

instance : Serde SignedBody where
  toJson b := .obj [("alg", toJson b.alg), ("head", toJson b.head)]
  ofJson j := do
    let f ← j.fields ["alg", "head"]
    return { alg := ← field f "alg", head := ← field f "head" }

/-- `head::signed_bytes`: what the root signs. -/
def signedBytes (h : PolicyHead) (alg : AlgorithmId) : List UInt8 :=
  utf8 (POLICY_HEAD_CONTEXT ++ canonicalText (SignedBody.mk alg h))

variable [Crypto]

/-- `PolicyHead::sign`. -/
def sign (h : PolicyHead) (root : NodeIdentity) : Result SignedPolicyHead := do
  ensure (nodeId root = h.fabric) .fabricMismatch
  h.checkDirectories
  return { head := h, alg := .ed25519, sig := Crypto.sign root (h.signedBytes .ed25519) }

end PolicyHead

namespace SignedPolicyHead

instance : Serde SignedPolicyHead where
  toJson h := .obj [("head", toJson h.head), ("alg", toJson h.alg), ("sig", toJson h.sig)]
  ofJson j := do
    let f ← j.fields ["head", "alg", "sig"]
    return { head := ← field f "head", alg := ← field f "alg", sig := ← field f "sig" }

/-- `SignedPolicyHead::check_fresh`. -/
def checkFresh (h : SignedPolicyHead) (now : Int64) : Result Unit :=
  ensure (¬now > h.head.notAfter) (.expired h.head.notAfter)

/-- `SignedPolicyHead::is_newer_than`. -/
def isNewerThan (h other : SignedPolicyHead) : Bool :=
  h.head.fabric = other.head.fabric && h.head.version > other.head.version

/-- The bytes the signature covers. -/
def signedBytes (h : SignedPolicyHead) : List UInt8 := h.head.signedBytes h.alg

/-- The bytes `SignedPolicyHead::hash` hashes: the canonical JSON, signature included. -/
def hashBytes (h : SignedPolicyHead) : List UInt8 := utf8 (canonicalText h)

variable [Crypto]

/-- `SignedPolicyHead::verify`: algorithm, format, the root's pin, the signature, then that no
directory is listed twice. -/
def verify (h : SignedPolicyHead) (root : NodeId) : Result Unit := do
  ensure (h.alg = .ed25519) .unsupportedAlgorithm
  ensure (h.head.format = POLICY_V5) .unsupportedVersion
  ensure (h.head.fabric = root) .invalidSignature
  root.verify h.signedBytes h.sig
  h.head.checkDirectories

/-- `SignedPolicyHead::hash`. -/
def hash (h : SignedPolicyHead) : HeadHash := Crypto.hash h.hashBytes

theorem verify_eq_ok {h : SignedPolicyHead} {root : NodeId} {u : Unit} :
    h.verify root = .ok u ↔ h.alg = .ed25519 ∧ h.head.format = POLICY_V5 ∧ h.head.fabric = root ∧
      Crypto.verify root h.signedBytes h.sig = true ∧ h.head.directories.Nodup := by
  simp [verify, NodeId.verify_eq_ok, PolicyHead.checkDirectories]

end SignedPolicyHead

theorem PolicyHead.sign_eq_ok [Crypto] {h : PolicyHead} {root : NodeIdentity}
    {s : SignedPolicyHead} : h.sign root = .ok s ↔ nodeId root = h.fabric ∧
      h.directories.Nodup ∧ s = ⟨h, .ed25519, Crypto.sign root (h.signedBytes .ed25519)⟩ := by
  simp only [sign, checkDirectories, bind_eq_ok, ensure_eq_ok, refuse_eq_ok,
    firstRepeat_nil_eq_none, pure_eq_ok, exists_const]
  exact and_congr_right fun _ => and_congr_right fun _ => eq_comm

/-- What is signed verifies. -/
theorem PolicyHead.verify_of_sign [Crypto] {h : PolicyHead} {root : NodeIdentity}
    {s : SignedPolicyHead} (hf : h.format = POLICY_V5) (hs : h.sign root = .ok s) :
    s.verify (nodeId root) = .ok () := by
  obtain ⟨hr, hd, rfl⟩ := PolicyHead.sign_eq_ok.mp hs
  exact SignedPolicyHead.verify_eq_ok.mpr ⟨rfl, hf, hr.symm, Crypto.verify_sign _ _, hd⟩

theorem SignedPolicyHead.checkFresh_eq_ok {h : SignedPolicyHead} {now : Int64} {u : Unit} :
    h.checkFresh now = .ok u ↔ now ≤ h.head.notAfter := by
  simp [checkFresh]

theorem SignedPolicyHead.isNewerThan_iff {h other : SignedPolicyHead} :
    h.isNewerThan other = true ↔
      h.head.fabric = other.head.fabric ∧ other.head.version < h.head.version := by
  simp [isNewerThan]

end Wires
