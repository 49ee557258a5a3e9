import Wires.Framework.Decode
import Wires.Framework.Outcome
import Wires.Framework.Signing

/-!
# Errors, keys and signatures

`library/error.rs` (the errors the modelled functions return, with what they
carry) and `library/network/identity.rs`. A `NodeId` is a node's Ed25519
public key: the scheme itself is `Crypto`.
-/

namespace Wires

/-- `library::Error`. Of a decoding error, `serde_json`'s own text is left out. -/
inductive Error where
  | decode
  | invalidSignature
  | unsupportedAlgorithm
  | unsupportedVersion
  | expired (notAfter : Int64)
  | banned
  | noVerifiedEmail
  | noRole
  | badFrame
  | fabricMismatch
  | invalidServiceName
  | invalidRoleName
  | invalidEmailPattern
  | invalidArgv
  | invalidPush (why : String)
  | invalidPolicy (why : String)
  | itemsMismatch
  | notADirectory
  | freshMismatch
  | freshLapsed
  | freshTooLong
  | selfVouched
  | olderHead (theirs ours : UInt64)
  | unvouched
deriving DecidableEq

/-- `library::Result`. -/
abbrev Result := Except Error

/-- A node's public key, which is its address. -/
abbrev NodeId := Bytes 32

abbrev Signature := Bytes 64

/-- `NodeId::hex`. -/
def NodeId.hex (n : NodeId) : String := String.ofList (hexEncode n.toList)

/-- The signature schemes there are. -/
inductive AlgorithmId where
  | ed25519
deriving DecidableEq

/-- A unit variant is read from its name, or from an object of that name over `null`. -/
instance : Serde AlgorithmId where
  toJson _ := .str ['e', 'd', '2', '5', '5', '1', '9']
  ofJson
    | .str cs => if cs = ['e', 'd', '2', '5', '5', '1', '9'] then some .ed25519 else none
    | .obj [(k, .null)] => if k = "ed25519" then some .ed25519 else none
    | _ => none

theorem reads_algorithmId (a : AlgorithmId) : Reads a := fun _ _ => by
  cases a
  rfl

/-- `NodeIdentity`: a node's key pair. -/
abbrev NodeIdentity [Crypto] := Crypto.Secret

variable [Crypto]

/-- `NodeIdentity::node_id`. -/
def nodeId (k : NodeIdentity) : NodeId := Crypto.pub k

/-- `NodeId::verify`. -/
def NodeId.verify (n : NodeId) (message : List UInt8) (sig : Signature) : Result Unit :=
  ensure (Crypto.verify n message sig = true) .invalidSignature

theorem NodeId.verify_eq_ok {n : NodeId} {m : List UInt8} {sig : Signature} {u : Unit} :
    n.verify m sig = .ok u ↔ Crypto.verify n m sig = true := ensure_eq_ok

@[simp] theorem NodeId.verify_sign (k : NodeIdentity) (m : List UInt8) :
    (nodeId k).verify m (Crypto.sign k m) = .ok () :=
  NodeId.verify_eq_ok.mpr (Crypto.verify_sign k m)

end Wires
