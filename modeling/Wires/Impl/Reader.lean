import Wires.Framework.Stream
import Wires.Impl.DirectoryFrame
import Wires.Impl.InboxFrame

/-!
# Reading frames off a stream

The three readers of length-prefixed frames: `read_frame_within` of
`wires/host/transport.rs`, `read_capped` of `wires/directory/wire.rs` with the
readers built on it, and `read_frame_within` of `wires/caller/inbox.rs`. A
read that is given up at its deadline is one whose stream fails there.
-/

namespace Wires

/-- `u32::from_be_bytes` of a length prefix. -/
def fromBeBytes (lenBuf : List UInt8) : Nat := (prefixLen lenBuf).getD 0

/-- `io::Error`'s text. -/
def ReadError.display : ReadError → String
  | .unexpectedEof => "unexpected end of file"
  | .other why => why

/-! ## Sessions -/

/-- The largest frame read once a session is admitted. -/
def MAX_FRAME : Nat := 16 * 1024 * 1024

/-- The largest `hello` a host reads before it knows who asks, and the largest proof a caller
reads of a host. -/
def MAX_HELLO_FRAME : Nat := 64 * 1024

/-- The largest `invoke` a host reads before it admits the caller. -/
def MAX_INVOKE_FRAME : Nat := 8 * MAX_ARGV_BYTES

/-- `transport::read_frame_within`. -/
def readFrameWithin (r : Stream) (max : Nat) : Except Anyhow (Option Frame) × Stream :=
  match r.readExact 4 with
  | (.error .unexpectedEof, r) => (.ok none, r)
  | (.error (.other why), r) => (.error ["reading frame length", why], r)
  | (.ok lenBuf, r) =>
    let len := fromBeBytes lenBuf
    if len > max then
      (.error ["frame too large: " ++ toString len ++ " bytes (max " ++ toString max ++ ")"], r)
    else
      match r.readToEnd len with
      | (.error e, r) => (.error ["reading frame body", e.display], r)
      | (.ok body, r) =>
        let full := lenBuf ++ body
        if full.length ≠ 4 + len then (.error ["truncated frame"], r)
        else
          match Frame.decode full with
          | .error e => (.error [e.display], r)
          | .ok (some (frame, _)) => (.ok (some frame), r)
          | .ok none => (.error ["truncated frame"], r)

/-- `transport::read_frame`. -/
def readFrame (r : Stream) : Except Anyhow (Option Frame) × Stream := readFrameWithin r MAX_FRAME

/-! ## Directories -/

namespace Directory

/-- `read_prefix`. -/
def readLen (r : Stream) : Except Anyhow (Option (List UInt8)) × Stream :=
  match r.readExact 4 with
  | (.ok lenBuf, r) => (.ok (some lenBuf), r)
  | (.error .unexpectedEof, r) => (.ok none, r)
  | (.error (.other why), r) => (.error ["reading a directory frame", why], r)

/-- `read_rest`: the rest of a frame of `len` body bytes, of which `buf` is there. -/
def readRest (r : Stream) (buf : List UInt8) (len : Nat) : Except Anyhow (List UInt8) × Stream :=
  match r.readToEnd (4 + len - buf.length) with
  | (.error e, r) => (.error ["reading a directory frame body", e.display], r)
  | (.ok body, r) =>
    if (buf ++ body).length ≠ 4 + len then (.error ["truncated directory frame"], r)
    else (.ok (buf ++ body), r)

/-- `read_capped`. -/
def readCapped {F : Type} (r : Stream) (max : Nat) (decode : Decoder F Error) :
    Except Anyhow (Option F) × Stream :=
  match readLen r with
  | (.error e, r) => (.error e, r)
  | (.ok none, r) => (.ok none, r)
  | (.ok (some lenBuf), r) =>
    let len := fromBeBytes lenBuf
    if len > max then
      (.error ["a " ++ toString len ++ "-byte directory frame (at most " ++ toString max ++ ")"], r)
    else
      match readRest r lenBuf len with
      | (.error e, r) => (.error e, r)
      | (.ok buf, r) =>
        match decode buf with
        | .error e => (.error [e.display], r)
        | .ok (some (frame, _)) => (.ok (some frame), r)
        | .ok none => (.error ["truncated directory frame"], r)

/-- A frame that must come: `Option::ok_or_else`. -/
def required {F : Type} (missing : String) (out : Except Anyhow (Option F) × Stream) :
    Except Anyhow F × Stream :=
  (out.1.bind fun o => orError o [missing], out.2)

/-- The largest proof a caller reads from a directory. -/
def MAX_PROOF_FRAME : Nat := 64 * 1024

/-- `read_request`. -/
def readRequest (r : Stream) : Except Anyhow Request × Stream :=
  required "the stream ended before a request"
    (readCapped r MAX_SMALL_DIRECTORY_FRAME Request.decode)

/-- `read_items`. -/
def readItems (r : Stream) : Except Anyhow (List Item) × Stream :=
  match required "the stream ended before the items"
      (readCapped r MAX_DIRECTORY_FRAME Request.decode) with
  | (.ok (.items items), r) => (.ok items, r)
  | (.ok _, r) => (.error ["a publish's head must be followed by its items"], r)
  | (.error e, r) => (.error e, r)

/-- `read_hello`. -/
def readHello (r : Stream) : Except Anyhow Request × Stream :=
  required "the stream ended before a hello"
    (readCapped r MAX_SMALL_DIRECTORY_FRAME Request.decode)

/-- `read_answer`. -/
def readAnswer (r : Stream) : Except Anyhow Answer × Stream :=
  required "the directory closed without an answer"
    (readCapped r MAX_DIRECTORY_FRAME Answer.decode)

/-- What `open` reads: the directory's first answer. -/
def readOpening (r : Stream) : Except Anyhow Answer × Stream :=
  required "the directory closed without its proof" (readCapped r MAX_PROOF_FRAME Answer.decode)

/-- What `open` makes of it: a proof or a refusal. -/
def readProof (r : Stream) : Except Anyhow HostProof × Stream :=
  match readOpening r with
  | (.ok (.proof proof), r) => (.ok proof, r)
  | (.ok (.denied reason), r) => (.error ["refused: " ++ reason], r)
  | (.ok _, r) => (.error ["an answer out of turn"], r)
  | (.error e, r) => (.error e, r)

/-- `read_sub_request`. -/
def readSubRequest (r : Stream) : Except Anyhow SubRequest × Stream :=
  required "the stream ended before a subscription frame"
    (readCapped r MAX_SMALL_DIRECTORY_FRAME SubRequest.decode)

/-- `read_sub_frame`. -/
def readSubFrame (r : Stream) : Except Anyhow (Option SubFrame) × Stream :=
  readCapped r MAX_DIRECTORY_FRAME SubFrame.decode

end Directory

/-! ## The inbox -/

/-- `inbox::read_frame_within`. -/
def readInboxFrameWithin (r : Stream) (max : Nat) : Except Anyhow (Option InboxFrame) × Stream :=
  match r.readExact 4 with
  | (.error .unexpectedEof, r) => (.ok none, r)
  | (.error (.other why), r) => (.error ["reading an inbox frame", why], r)
  | (.ok lenBuf, r) =>
    match InboxFrame.length lenBuf with
    | .error e => (.error [e.display], r)
    | .ok len =>
      let len := len.getD 0
      if len > max then
        (.error ["inbox frame too large: " ++ toString len ++ " bytes (max " ++ toString max ++ ")"], r)
      else
        match r.readToEnd len with
        | (.error e, r) => (.error ["reading an inbox frame body", e.display], r)
        | (.ok body, r) =>
          match InboxFrame.decode (lenBuf ++ body) with
          | .error e => (.error [e.display], r)
          | .ok (some (frame, _)) => (.ok (some frame), r)
          | .ok none => (.error ["truncated inbox frame"], r)

/-- `inbox::read_frame`. -/
def readInboxFrame (r : Stream) : Except Anyhow (Option InboxFrame) × Stream :=
  readInboxFrameWithin r MAX_INBOX_FRAME

end Wires
