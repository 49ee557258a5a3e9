import Wires.Impl.Frame

/-!
# A directory's frames

`library/directory/frames.rs`: what is sent on a directory's two protocols,
canonical JSON tagged by `type` behind a length prefix. `Directory.Request` is
`DirectoryRequest`, and so on.
-/

namespace Wires

def MAX_DIRECTORY_FRAME : Nat := 16 * 1024 * 1024

def MAX_SMALL_DIRECTORY_FRAME : Nat := 16 * 1024

instance : Serde View where
  toJson v := .obj [("head", toJson v.head), ("entries", toJson v.entries)]
  ofJson j := do
    let f ← j.fields ["head", "entries"]
    return { head := ← field f "head", entries := ← field f "entries" }

/-- `encode_frame`. -/
def encodeFrame {α : Type} [Serde α] (frame : α) : Result (List UInt8) :=
  let body := canonicalBytes frame
  if body.length > MAX_DIRECTORY_FRAME then .error .badFrame
  else orError (lengthPrefixed body) .badFrame

/-- `decode_frame`: a prefix over `max` is refused before the body is there. -/
def decodeFrame {α : Type} [Serde α] (max : Nat) (buf : List UInt8) : Result (Option (α × Nat)) :=
  if (prefixLen buf).any (max < ·) then .error .badFrame
  else
    match splitFrame buf with
    | none => .ok none
    | some (body, n) => do return some (← orError (fromSlice body) .decode, n)

namespace Directory

/-- A dialer's frame. -/
inductive Request where
  | opens
  | hello (idToken : Option IdToken)
  | publish (head : SignedPolicyHead)
  | items (items : List Item)
  | policy (have_ : StateVersion)
  | view (query : Option String)
  | resolve (service : ServiceName)

/-- The directory's answer. -/
inductive Answer where
  | proof (proof : HostProof)
  | published (version : StateVersion) (head : HeadHash)
  | current (fresh : Fresh)
  | policy (policy : SignedPolicy) (fresh : Fresh)
  | view (view : View) (fresh : Fresh)
  | denied (reason : String)

/-- A subscriber's frame. -/
inductive SubRequest where
  | hello (idToken : Option IdToken)
  | subscribe (have_ : StateVersion)

/-- The directory's frame on a subscription. -/
inductive SubFrame where
  | policy (policy : SignedPolicy) (fresh : Fresh)
  | fresh (fresh : Fresh)
  | denied (reason : String)

/-! ## Their JSON -/

namespace Request

def typeName : Request → String
  | .opens => "open"
  | .hello _ => "hello"
  | .publish _ => "publish"
  | .items _ => "items"
  | .policy _ => "policy"
  | .view _ => "view"
  | .resolve _ => "resolve"

def members : Request → List (String × Json)
  | .opens => []
  | .hello idToken => optMember "id_token" idToken
  | .publish h => [("head", toJson h)]
  | .items is => [("items", toJson is)]
  | .policy have_ => [("have", toJson have_)]
  | .view query => optMember "query" query
  | .resolve service => [("service", toJson service)]

def ofType (type : String) (j : Json) : Option Request :=
  match type with
  | "open" => do
    let _ ← j.fields []
    return .opens
  | "hello" => do
    let f ← j.fields ["id_token"]
    return .hello (← optField f "id_token")
  | "publish" => do
    let f ← j.fields ["head"]
    return .publish (← field f "head")
  | "items" => do
    let f ← j.fields ["items"]
    return .items (← field f "items")
  | "policy" => do
    let f ← j.fields ["have"]
    return .policy (← field f "have")
  | "view" => do
    let f ← j.fields ["query"]
    return .view (← optField f "query")
  | "resolve" => do
    let f ← j.fields ["service"]
    return .resolve (← field f "service")
  | _ => none

instance : Serde Request where
  toJson r := .obj (("type", toJson r.typeName) :: r.members)
  ofJson j := (j.tagged "type").bind fun p => ofType (String.ofList p.1) p.2

/-- `DirectoryRequest::encode`. -/
def encode (r : Request) : Result (List UInt8) := encodeFrame r

/-- `DirectoryRequest::decode`. -/
def decode (buf : List UInt8) : Result (Option (Request × Nat)) := decodeFrame MAX_DIRECTORY_FRAME buf

end Request

namespace Answer

def typeName : Answer → String
  | .proof _ => "proof"
  | .published _ _ => "published"
  | .current _ => "current"
  | .policy _ _ => "policy"
  | .view _ _ => "view"
  | .denied _ => "denied"

def members : Answer → List (String × Json)
  | .proof p => [("proof", toJson p)]
  | .published version head => [("version", toJson version), ("head", toJson head)]
  | .current f => [("fresh", toJson f)]
  | .policy p f => [("policy", toJson p), ("fresh", toJson f)]
  | .view v f => [("view", toJson v), ("fresh", toJson f)]
  | .denied reason => [("reason", toJson reason)]

def ofType (type : String) (j : Json) : Option Answer :=
  match type with
  | "proof" => do
    let f ← j.fields ["proof"]
    return .proof (← field f "proof")
  | "published" => do
    let f ← j.fields ["version", "head"]
    return .published (← field f "version") (← field f "head")
  | "current" => do
    let f ← j.fields ["fresh"]
    return .current (← field f "fresh")
  | "policy" => do
    let f ← j.fields ["policy", "fresh"]
    return .policy (← field f "policy") (← field f "fresh")
  | "view" => do
    let f ← j.fields ["view", "fresh"]
    return .view (← field f "view") (← field f "fresh")
  | "denied" => do
    let f ← j.fields ["reason"]
    return .denied (← field f "reason")
  | _ => none

instance : Serde Answer where
  toJson a := .obj (("type", toJson a.typeName) :: a.members)
  ofJson j := (j.tagged "type").bind fun p => ofType (String.ofList p.1) p.2

/-- `DirectoryAnswer::encode`. -/
def encode (a : Answer) : Result (List UInt8) := encodeFrame a

/-- `DirectoryAnswer::decode`. -/
def decode (buf : List UInt8) : Result (Option (Answer × Nat)) := decodeFrame MAX_DIRECTORY_FRAME buf

end Answer

namespace SubRequest

def typeName : SubRequest → String
  | .hello _ => "hello"
  | .subscribe _ => "subscribe"

def members : SubRequest → List (String × Json)
  | .hello idToken => optMember "id_token" idToken
  | .subscribe have_ => [("have", toJson have_)]

def ofType (type : String) (j : Json) : Option SubRequest :=
  match type with
  | "hello" => do
    let f ← j.fields ["id_token"]
    return .hello (← optField f "id_token")
  | "subscribe" => do
    let f ← j.fields ["have"]
    return .subscribe (← field f "have")
  | _ => none

instance : Serde SubRequest where
  toJson r := .obj (("type", toJson r.typeName) :: r.members)
  ofJson j := (j.tagged "type").bind fun p => ofType (String.ofList p.1) p.2

/-- `SubRequest::encode`. -/
def encode (r : SubRequest) : Result (List UInt8) := encodeFrame r

/-- `SubRequest::decode`. -/
def decode (buf : List UInt8) : Result (Option (SubRequest × Nat)) :=
  decodeFrame MAX_SMALL_DIRECTORY_FRAME buf

end SubRequest

namespace SubFrame

def typeName : SubFrame → String
  | .policy _ _ => "policy"
  | .fresh _ => "fresh"
  | .denied _ => "denied"

def members : SubFrame → List (String × Json)
  | .policy p f => [("policy", toJson p), ("fresh", toJson f)]
  | .fresh f => [("fresh", toJson f)]
  | .denied reason => [("reason", toJson reason)]

def ofType (type : String) (j : Json) : Option SubFrame :=
  match type with
  | "policy" => do
    let f ← j.fields ["policy", "fresh"]
    return .policy (← field f "policy") (← field f "fresh")
  | "fresh" => do
    let f ← j.fields ["fresh"]
    return .fresh (← field f "fresh")
  | "denied" => do
    let f ← j.fields ["reason"]
    return .denied (← field f "reason")
  | _ => none

instance : Serde SubFrame where
  toJson s := .obj (("type", toJson s.typeName) :: s.members)
  ofJson j := (j.tagged "type").bind fun p => ofType (String.ofList p.1) p.2

/-- `SubFrame::encode`. -/
def encode (s : SubFrame) : Result (List UInt8) := encodeFrame s

/-- `SubFrame::decode`. -/
def decode (buf : List UInt8) : Result (Option (SubFrame × Nat)) := decodeFrame MAX_DIRECTORY_FRAME buf

end SubFrame

end Directory

end Wires
