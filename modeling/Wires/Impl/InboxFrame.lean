import Wires.Impl.Frame

/-!
# The inbox's frames

`library/calls/push.rs`: the messages a host pushes, and the frames they are
fetched and delivered in, canonical JSON tagged by `type` behind a length
prefix. A member these types do not name is passed over.
-/

namespace Wires

def MAX_SUBJECT : Nat := 128

def MAX_PUSH_BODY : Nat := 16 * 1024

def MAX_INBOX_FRAME : Nat := 4 * 1024 * 1024

def MAX_INBOX_HELLO : Nat := 64 * 1024

/-- A push message's id. -/
abbrev PushId := Bytes 16

/-! ## Subjects and bodies -/

/-- `char::is_control`. -/
def isControl (c : Char) : Bool := c.toNat < 0x20 || (0x7f ≤ c.toNat && c.toNat < 0xa0)

/-- Why a text is no subject. -/
def subjectFault (s : String) : Option String :=
  if isBlank s then some "the subject is empty"
  else if byteLen s > MAX_SUBJECT then some "the subject is longer than 128 bytes"
  else if s.toList.any isControl then some "the subject holds a control character"
  else none

/-- A push's one-line subject. -/
structure Subject where
  text : String
  valid : subjectFault text = none
deriving DecidableEq

/-- `Subject::new`. -/
def Subject.new (s : String) : Result Subject :=
  match h : subjectFault s with
  | some why => .error (.invalidPush why)
  | none => .ok ⟨s, h⟩

instance : Serde Subject where
  toJson s := toJson s.text
  ofJson := ofJsonText Subject.new

/-- A push's body. -/
structure PushBody where
  text : String
  valid : byteLen text ≤ MAX_PUSH_BODY
deriving DecidableEq

/-- `PushBody::new`. -/
def PushBody.new (s : String) : Result PushBody :=
  if h : byteLen s ≤ MAX_PUSH_BODY then .ok ⟨s, h⟩
  else .error (.invalidPush "the body is larger than 16 KiB")

instance : Serde PushBody where
  toJson b := toJson b.text
  ofJson := ofJsonText PushBody.new

/-! ## Messages -/

/-- One message a host pushes to one caller. -/
structure PushMessage where
  id : PushId
  sender : NodeId
  recipient : NodeId
  subject : Subject
  body : PushBody
  atMs : Int64
  expiresMs : Int64
deriving DecidableEq

instance : Serde PushMessage where
  toJson m := .obj [("id", toJson m.id), ("from", toJson m.sender), ("to", toJson m.recipient),
    ("subject", toJson m.subject), ("body", toJson m.body), ("at_ms", toJson m.atMs),
    ("expires_ms", toJson m.expiresMs)]
  ofJson j := do
    let f ← j.openFields ["id", "from", "to", "subject", "body", "at_ms", "expires_ms"]
    return {
      id := ← field f "id"
      sender := ← field f "from"
      recipient := ← field f "to"
      subject := ← field f "subject"
      body := ← field f "body"
      atMs := ← field f "at_ms"
      expiresMs := ← field f "expires_ms" }

/-! ## Frames -/

/-- One frame of the inbox protocol. -/
inductive InboxFrame where
  | opens
  | proof (proof : HostProof)
  | hello (idToken : Option IdToken)
  | fetch (waitMs : UInt64)
  | deliver (messages : List PushMessage)
  | ack (ids : List PushId)
  | denied (reason : String)

namespace InboxFrame

def typeName : InboxFrame → String
  | .opens => "open"
  | .proof _ => "proof"
  | .hello _ => "hello"
  | .fetch _ => "fetch"
  | .deliver _ => "deliver"
  | .ack _ => "ack"
  | .denied _ => "denied"

def members : InboxFrame → List (String × Json)
  | .opens => []
  | .proof p => [("proof", toJson p)]
  | .hello idToken => optMember "id_token" idToken
  | .fetch waitMs => [("wait_ms", toJson waitMs)]
  | .deliver messages => [("messages", toJson messages)]
  | .ack ids => [("ids", toJson ids)]
  | .denied reason => [("reason", toJson reason)]

def ofType (type : String) (j : Json) : Option InboxFrame :=
  match type with
  | "open" => do
    let _ ← j.openFields []
    return .opens
  | "proof" => do
    let f ← j.openFields ["proof"]
    return .proof (← field f "proof")
  | "hello" => do
    let f ← j.openFields ["id_token"]
    return .hello (← optField f "id_token")
  | "fetch" => do
    let f ← j.openFields ["wait_ms"]
    return .fetch (← field f "wait_ms")
  | "deliver" => do
    let f ← j.openFields ["messages"]
    return .deliver (← field f "messages")
  | "ack" => do
    let f ← j.openFields ["ids"]
    return .ack (← field f "ids")
  | "denied" => do
    let f ← j.openFields ["reason"]
    return .denied (← field f "reason")
  | _ => none

instance : Serde InboxFrame where
  toJson f := .obj (("type", toJson f.typeName) :: f.members)
  ofJson j := (j.tagged "type").bind fun p => ofType (String.ofList p.1) p.2

/-- `InboxFrame::check`. -/
def check : InboxFrame → Result Unit
  | .deliver messages => ensure (¬messages.length > MAX_BATCH)
      (.invalidPush "a deliver frame carries more than 32 messages")
  | .ack ids => ensure (¬ids.length > MAX_BATCH)
      (.invalidPush "an ack frame carries more than 32 ids")
  | _ => .ok ()

/-- `InboxFrame::encode`. -/
def encode (f : InboxFrame) : Result (List UInt8) := do
  f.check
  let body := canonicalBytes f
  ensure (¬body.length > MAX_INBOX_FRAME) (.invalidPush "the frame is larger than 4 MiB")
  orError (lengthPrefixed body) .badFrame

/-- `InboxFrame::length`. -/
def length (buf : List UInt8) : Result (Option Nat) :=
  match prefixLen buf with
  | none => .ok none
  | some len =>
    if len > MAX_INBOX_FRAME then .error (.invalidPush "the frame is larger than 4 MiB")
    else .ok (some len)

/-- `InboxFrame::decode`. -/
def decode (buf : List UInt8) : Result (Option (InboxFrame × Nat)) := do
  let _ ← length buf
  match splitFrame buf with
  | none => return none
  | some (body, n) =>
    let frame : InboxFrame ← orError (fromSlice body) .decode
    frame.check
    return some (frame, n)

end InboxFrame

end Wires
