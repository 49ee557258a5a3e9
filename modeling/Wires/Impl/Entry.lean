import Wires.Impl.Role

/-!
# Services and their signed entries

`library/services/registry.rs` (a service's name and body) and
`library/services/entry.rs` (the entry the root signs on its own). What is
signed is `ENTRY_CONTEXT` followed by the canonical JSON of every field but
the signature.
-/

namespace Wires

/-- A policy version: it only goes up. -/
abbrev StateVersion := UInt64

/-! ## The registry -/

def MAX_SERVICE_NAME : Nat := 64

/-- The rule for a service's name: a lower-case letter, then letters, digits, `_` or `-`. -/
def isServiceName (s : String) : Bool :=
  (match s.toList with
    | [] => false
    | c :: cs =>
      isAsciiLower c && cs.all fun c => isAsciiLower c || isAsciiDigit c || c = '_' || c = '-') &&
    byteLen s ≤ MAX_SERVICE_NAME

structure ServiceName where
  name : String
  valid : isServiceName name = true
deriving DecidableEq

theorem ServiceName.name_injective : Function.Injective ServiceName.name := fun a b h => by
  cases a; cases b; simp_all

instance : LinearOrder ServiceName := LinearOrder.lift' ServiceName.name ServiceName.name_injective

/-- `ServiceName::new`. -/
def ServiceName.new (s : String) : Result ServiceName :=
  if h : isServiceName s = true then .ok ⟨s, h⟩ else .error .invalidServiceName

theorem ServiceName.new_name (n : ServiceName) : ServiceName.new n.name = .ok n := dif_pos n.valid

instance : Serde ServiceName where
  toJson n := toJson n.name
  ofJson := ofJsonText ServiceName.new

/-- A service: who may call it, and which hosts run it. -/
structure Service where
  description : String
  allow : List RoleName
  hosts : List NodeId
deriving DecidableEq

instance : Serde Service where
  toJson s := .obj [("description", toJson s.description), ("allow", toJson s.allow),
    ("hosts", toJson s.hosts)]
  ofJson j := do
    let f ← j.fields ["description", "allow", "hosts"]
    return {
      description := ← field f "description"
      allow := ← field f "allow"
      hosts := ← field f "hosts" }

/-! ## Signed entries -/

def ENTRY_V2 : UInt8 := 2

/-- `ENTRY_CONTEXT`: what a signed entry's bytes start with. -/
def ENTRY_CONTEXT : List Char := "wires/service-entry/v1\x00".toList

/-- A service's entry, signed by the root. -/
structure SignedEntry where
  format : UInt8
  fabric : NodeId
  version : StateVersion
  name : ServiceName
  service : Service
  alg : AlgorithmId
  sig : Signature
deriving DecidableEq

namespace SignedEntry

/-- The members of an entry's object. -/
def members (e : SignedEntry) : List (String × Json) :=
  [("format", toJson e.format), ("fabric", toJson e.fabric), ("version", toJson e.version),
    ("name", toJson e.name), ("service", toJson e.service), ("alg", toJson e.alg),
    ("sig", toJson e.sig)]

instance : Serde SignedEntry where
  toJson e := .obj e.members
  ofJson j := do
    let f ← j.fields ["format", "fabric", "version", "name", "service", "alg", "sig"]
    return {
      format := ← field f "format"
      fabric := ← field f "fabric"
      version := ← field f "version"
      name := ← field f "name"
      service := ← field f "service"
      alg := ← field f "alg"
      sig := ← field f "sig" }

/-- `entry::SignedBody`: every field but the signature. -/
structure SignedBody where
  format : UInt8
  fabric : NodeId
  version : StateVersion
  name : ServiceName
  service : Service
  alg : AlgorithmId

instance : Serde SignedBody where
  toJson b := .obj [("format", toJson b.format), ("fabric", toJson b.fabric),
    ("version", toJson b.version), ("name", toJson b.name), ("service", toJson b.service),
    ("alg", toJson b.alg)]
  ofJson j := do
    let f ← j.fields ["format", "fabric", "version", "name", "service", "alg"]
    return {
      format := ← field f "format"
      fabric := ← field f "fabric"
      version := ← field f "version"
      name := ← field f "name"
      service := ← field f "service"
      alg := ← field f "alg" }

/-- `SignedBody::signed_bytes`. -/
def SignedBody.signedBytes (b : SignedBody) : List UInt8 :=
  utf8 (ENTRY_CONTEXT ++ canonicalText b)

def body (e : SignedEntry) : SignedBody :=
  ⟨e.format, e.fabric, e.version, e.name, e.service, e.alg⟩

/-- `SignedEntry::signed_bytes`: what the signature covers. -/
def signedBytes (e : SignedEntry) : List UInt8 := e.body.signedBytes

/-- `SignedEntry::is_for`: the same entry as `service` under `name` in `fabric`. -/
def isFor (e : SignedEntry) (fabric : NodeId) (name : ServiceName) (service : Service) : Bool :=
  e.fabric = fabric && e.name = name && e.service = service

theorem isFor_iff {e : SignedEntry} {fabric : NodeId} {name : ServiceName} {service : Service} :
    e.isFor fabric name service = true ↔ e.fabric = fabric ∧ e.name = name ∧ e.service = service := by
  simp [isFor, and_assoc]

variable [Crypto]

/-- `SignedEntry::sign`. -/
def sign (root : NodeIdentity) (version : StateVersion) (name : ServiceName) (service : Service) :
    SignedEntry :=
  let body : SignedBody := ⟨ENTRY_V2, nodeId root, version, name, service, .ed25519⟩
  { format := body.format
    fabric := body.fabric
    version
    name
    service
    alg := body.alg
    sig := Crypto.sign root body.signedBytes }

/-- `SignedEntry::verify`: format and algorithm, the root's pin, and its signature. -/
def verify (e : SignedEntry) (root : NodeId) : Result Unit := do
  ensure (e.format = ENTRY_V2) .unsupportedVersion
  ensure (e.alg = .ed25519) .unsupportedAlgorithm
  ensure (e.fabric = root) .invalidSignature
  root.verify e.signedBytes e.sig

theorem verify_eq_ok {e : SignedEntry} {root : NodeId} {u : Unit} :
    e.verify root = .ok u ↔ e.format = ENTRY_V2 ∧ e.alg = .ed25519 ∧ e.fabric = root ∧
      Crypto.verify root e.signedBytes e.sig = true := by
  simp [verify, NodeId.verify_eq_ok]

@[simp] theorem verify_sign (root : NodeIdentity) (version : StateVersion) (name : ServiceName)
    (service : Service) : (sign root version name service).verify (nodeId root) = .ok () :=
  verify_eq_ok.mpr ⟨rfl, rfl, rfl, Crypto.verify_sign _ _⟩

end SignedEntry

end Wires
