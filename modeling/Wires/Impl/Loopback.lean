import Wires.Framework.Search
import Wires.Framework.Stream
import Wires.Framework.Text
import Wires.Impl.OAuth
import Wires.Impl.Reader

/-!
# The loopback listener of a login

`wires/caller/login.rs`: `read_request`, which reads one HTTP request off a
connection, and `accept_callback`, which takes connections until one of them is
the redirect of the login it waits for. `usize` is 64 bits wide, and its additions
wrap, as they do in a release build. What is answered to a connection is left out,
and so is a listener that fails.
-/

namespace Wires

namespace Loopback

/-! ## Requests -/

/-- The largest request read. -/
def MAX_REQUEST : Nat := 64 * 1024

/-- `\r\n\r\n`. -/
def HEAD_END : List UInt8 := [13, 10, 13, 10]

structure HttpRequest where
  method : String
  target : String
  body : List UInt8
deriving DecidableEq

/-- Why a request is not read: an error, or a panic (a `Vec` larger than there can be). -/
inductive Fault where
  | fails (why : String)
  | panics
deriving DecidableEq

/-- `read_request`'s loop over the head: where it ends, what was read, and the rest of the stream. Each
read gets a byte, so there are no more reads than `fuel`. -/
def readHead : Nat → List UInt8 → Stream → Except Fault (Nat × List UInt8 × Stream)
  | 0, _, _ => .error (.fails "request head too large")
  | fuel + 1, buf, s =>
    match findSlice HEAD_END buf with
    | some i => .ok (i, buf, s)
    | none =>
      if buf.length ≥ MAX_REQUEST then .error (.fails "request head too large")
      else
        match s.poll 4096 with
        | (.error e, _) => .error (.fails e.display)
        | (.ok [], _) => .error (.fails "connection closed mid-request")
        | (.ok (b :: bs), s) => readHead fuel (buf ++ b :: bs) s

/-- `split("\r\n")`. -/
def splitCrlf : List Char → List (List Char)
  | [] => [[]]
  | '\r' :: '\n' :: cs => [] :: splitCrlf cs
  | c :: cs =>
    match splitCrlf cs with
    | [] => [[c]]
    | l :: ls => (c :: l) :: ls

/-- `str::parse` to a `usize`. -/
def parseUsize (cs : List Char) : Option Nat :=
  let digits : List Char := match cs with
    | '+' :: ds => ds
    | ds => ds
  let n : Nat := digits.foldl (fun n c => 10 * n + (c.toNat - 48)) 0
  if digits ≠ [] ∧ digits.all isAsciiDigit = true ∧ n < 2 ^ 64 then some n else none

/-- The length the headers give: the last of them. -/
def contentLength : Nat → List (List Char) → Except Fault Nat
  | n, [] => .ok n
  | n, line :: lines =>
    match splitOnce ':' line with
    | some (k, v) =>
      if eqIgnoreCase (String.ofList (trim k)) "content-length" then
        match parseUsize (trim v) with
        | some n => contentLength n lines
        | none => .error (.fails "bad Content-Length")
      else contentLength n lines
    | none => contentLength n lines

/-- The method, the target and the length of a request's head. -/
def parseHead (head : List UInt8) : Except Fault (String × String × Nat) := do
  let text ← orError (utf8Decode head) (.fails "request head is not UTF-8")
  let lines := splitCrlf text
  let (method, rest) ← orError (splitOnce ' ' (lines.headD [])) (.fails "bad request line")
  let length ← contentLength 0 lines.tail
  return (String.ofList method, String.ofList (rest.takeWhile fun c => c ≠ ' '), length)

/-- `read_request`'s loop over the body, of which `body` is there. -/
def readBody (length : Nat) (body : List UInt8) (s : Stream) : Except Fault (List UInt8) :=
  if body.length < length then
    -- `vec![0u8; length - body.len()]`
    if 2 ^ 63 ≤ length - body.length then .error .panics
    else
      match s.readExact (length - body.length) with
      | (.error .unexpectedEof, _) => .error (.fails "connection closed mid-body")
      | (.error e, _) => .error (.fails e.display)
      | (.ok more, _) => .ok (body ++ more)
  else .ok (body.take length)

/-- `read_request`. -/
def readRequest (s : Stream) : Except Fault HttpRequest := do
  let (headEnd, buf, s) ← readHead (MAX_REQUEST + 1) [] s
  let (method, target, length) ← parseHead (buf.take headEnd)
  ensure ((headEnd + 4 + length) % 2 ^ 64 ≤ MAX_REQUEST) (.fails "request body too large")
  let body ← readBody length (buf.drop (headEnd + 4)) s
  return ⟨method, target, body⟩

/-! ## The redirect -/

/-- `query_pairs`. -/
class QueryPairs [Web] where
  queryPairs : Web.Url → List (String × String)

section

variable [Web] [Origin] [QueryPairs]

def param (url : Web.Url) (k : String) : Option String :=
  ((QueryPairs.queryPairs url).find? fun p => p.1 = k).map Prod.snd

/-- What `accept_callback` makes of the redirect. -/
def readRedirect (state : String) (url : Web.Url) : Except Fault String :=
  match param url "error" with
  | some error =>
    .error (.fails ("the IdP returned an error: " ++ error ++
      ((param url "error_description").map fun d => " (" ++ d ++ ")").getD ""))
  | none => do
    ensure (param url "state" = some state)
      (.fails "the redirect's state does not match this login (a forged or stale redirect)")
    orError (param url "code") (.fails "the redirect carried no authorization code")

/-- What it makes of one request: nothing, where that is not the redirect. -/
def answerCallback (state : String) (r : HttpRequest) : Option (Except Fault String) :=
  match Web.parse ("http://127.0.0.1" ++ r.target) with
  -- `http://127.0.0.1/` stands in for it, and its path is another.
  | .error _ => none
  | .ok url =>
    if r.method ≠ "GET" ∨ Origin.path url ≠ "/callback" then none else some (readRedirect state url)

/-- `accept_callback`, of the connections there are, in order: nothing while it waits for another. -/
def acceptCallback (state : String) : List Stream → Option (Except Fault String)
  | [] => none
  | c :: cs =>
    match readRequest c with
    | .error .panics => some (.error .panics)
    | .error (.fails _) => acceptCallback state cs
    | .ok r =>
      match answerCallback state r with
      | some result => some result
      | none => acceptCallback state cs

end

end Loopback

end Wires
