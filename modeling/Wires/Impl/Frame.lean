import Mathlib.Algebra.GroupWithZero.Nat
import Wires.Framework.Framing
import Wires.Impl.Session

/-!
# Session frames

`library/codec.rs` and `library/calls/session.rs`: what a caller and a host
send each other, and its wire form: a length prefix, a tag byte and the tag's
body. The arguments of a call are `library/calls/invoke.rs`'s. The readers of
these frames off a stream are in `Impl/Reader.lean`.
-/

namespace Wires

/-! ## Invocations -/

def MAX_ARGS : Nat := 256

def MAX_ARGV_BYTES : Nat := 64 * 1024

/-- The limits of an argument list. -/
def isArgv (args : List String) : Bool :=
  args.length ≤ MAX_ARGS && (args.map byteLen).sum ≤ MAX_ARGV_BYTES &&
    args.all fun a => !a.toList.contains '\x00'

/-- A caller's arguments. -/
structure Argv where
  args : List String
  valid : isArgv args = true
deriving DecidableEq

/-- `Argv::new`. -/
def Argv.new (args : List String) : Result Argv :=
  if h : isArgv args = true then .ok ⟨args, h⟩ else .error .invalidArgv

theorem Argv.new_args (a : Argv) : Argv.new a.args = .ok a := dif_pos a.valid

instance : Serde Argv where
  toJson a := toJson a.args
  ofJson j := (ofJson j : Option (List String)).bind fun args => (Argv.new args).toOption

/-- Which service to run, and with what arguments. -/
structure Invocation where
  service : ServiceName
  argv : Argv
deriving DecidableEq

instance : Serde Invocation where
  toJson i := .obj [("service", toJson i.service), ("argv", toJson i.argv)]
  ofJson j := do
    let f ← j.openFields ["service", "argv"]
    return { service := ← field f "service", argv := ← field f "argv" }

/-! ## The opening frames -/

/-- The caller's credential: the version of its view, and its token. -/
structure Hello where
  stateVersion : StateVersion
  idToken : IdToken
deriving DecidableEq

instance : Serde Hello where
  toJson h := .obj [("state_version", toJson h.stateVersion), ("id_token", toJson h.idToken)]
  ofJson j := do
    let f ← j.fields ["state_version", "id_token"]
    return { stateVersion := ← field f "state_version", idToken := ← field f "id_token" }

instance : Serde HelloAck where
  toJson a := .obj (("state_version", toJson a.stateVersion) ::
    (optMember "head" a.head ++ optMember "entry" a.entry))
  ofJson j := do
    let f ← j.fields ["state_version", "head", "entry"]
    return {
      stateVersion := ← field f "state_version"
      head := ← optField f "head"
      entry := ← optField f "entry" }

instance : Serde Fresh where
  toJson f := .obj [("format", toJson f.format), ("fabric", toJson f.fabric),
    ("directory", toJson f.directory), ("version", toJson f.version), ("head", toJson f.head),
    ("at", toJson f.at_), ("until", toJson f.until_), ("alg", toJson f.alg), ("sig", toJson f.sig)]
  ofJson j := do
    let f ← j.fields ["format", "fabric", "directory", "version", "head", "at", "until", "alg",
      "sig"]
    return {
      format := ← field f "format"
      fabric := ← field f "fabric"
      directory := ← field f "directory"
      version := ← field f "version"
      head := ← field f "head"
      at_ := ← field f "at"
      until_ := ← field f "until"
      alg := ← field f "alg"
      sig := ← field f "sig" }

instance : Serde HostProof where
  toJson p := .obj [("head", toJson p.head), ("fresh", toJson p.fresh)]
  ofJson j := do
    let f ← j.fields ["head", "fresh"]
    return { head := ← field f "head", fresh := ← field f "fresh" }

/-! ## Frames -/

def TAG_STDIN : UInt8 := 1
def TAG_STDOUT : UInt8 := 2
def TAG_STDERR : UInt8 := 3
def TAG_EXIT : UInt8 := 4
def TAG_DENIED : UInt8 := 6
def TAG_INVOKE : UInt8 := 7
def TAG_HELLO : UInt8 := 10
def TAG_HELLO_ACK : UInt8 := 11
def TAG_OPEN : UInt8 := 12
def TAG_PROOF : UInt8 := 13

/-- One message on a session. -/
inductive Frame where
  | stdin (chunk : List UInt8)
  | stdout (chunk : List UInt8)
  | stderr (chunk : List UInt8)
  | exit (code : Int32)
  | denied (reason : String)
  | invoke (invocation : Invocation)
  | hello (hello : Hello)
  | helloAck (ack : HelloAck)
  | opens
  | proof (proof : HostProof)

namespace Frame

/-- The tag of a frame's payload. -/
def tag : Frame → UInt8
  | .stdin _ => TAG_STDIN
  | .stdout _ => TAG_STDOUT
  | .stderr _ => TAG_STDERR
  | .exit _ => TAG_EXIT
  | .denied _ => TAG_DENIED
  | .invoke _ => TAG_INVOKE
  | .hello _ => TAG_HELLO
  | .helloAck _ => TAG_HELLO_ACK
  | .opens => TAG_OPEN
  | .proof _ => TAG_PROOF

/-- What follows the tag. -/
def body : Frame → List UInt8
  | .stdin chunk => chunk
  | .stdout chunk => chunk
  | .stderr chunk => chunk
  | .exit code => be32 code.toUInt32.toNat
  | .denied reason => utf8 reason.toList
  | .invoke i => canonicalBytes i
  | .hello h => canonicalBytes h
  | .helloAck a => canonicalBytes a
  | .opens => []
  | .proof p => canonicalBytes p

/-- `Frame::encode`. -/
def encode (f : Frame) : Result (List UInt8) := orError (lengthPrefixed (f.tag :: f.body)) .badFrame

/-- The frame of a tag and the body behind it. -/
def ofBody (tag : UInt8) (body : List UInt8) : Result Frame :=
  if tag = TAG_STDIN then .ok (.stdin body)
  else if tag = TAG_STDOUT then .ok (.stdout body)
  else if tag = TAG_STDERR then .ok (.stderr body)
  else if tag = TAG_EXIT then
    match body with
    | [a, b, c, d] => .ok (.exit (UInt32.ofNat (ofBe32 a b c d)).toInt32)
    | _ => .error .badFrame
  else if tag = TAG_DENIED then do
    return .denied (String.ofList (← orError (utf8Decode body) .badFrame))
  else if tag = TAG_INVOKE then do return .invoke (← orError (fromSlice body) .decode)
  else if tag = TAG_HELLO then do return .hello (← orError (fromSlice body) .decode)
  else if tag = TAG_HELLO_ACK then do return .helloAck (← orError (fromSlice body) .decode)
  else if tag = TAG_OPEN ∧ body = [] then .ok .opens
  else if tag = TAG_PROOF then do return .proof (← orError (fromSlice body) .decode)
  else .error .badFrame

/-- `Frame::decode`: the first frame of a buffer, and how many bytes it takes. -/
def decode (buf : List UInt8) : Result (Option (Frame × Nat)) :=
  match splitFrame buf with
  | none => .ok none
  | some ([], _) => .error .badFrame
  | some (tag :: body, n) => do return some (← ofBody tag body, n)

end Frame

end Wires
