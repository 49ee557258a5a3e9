import Wires.Framework.Lines
import Wires.Framework.Stream
import Wires.Impl.Capability

/-!
# The control sockets

`read_capped_line` and `serve_conn` of `wires/host/control.rs`: one connection,
whose bytes come in chunks, read line by line, each line that is not blank
answered before the next is read. What the push service and the capabilities
say, and whether a reply can be written, is the environment's (`LineEnv`); of
the n-th line that was read it is the n-th.
-/

namespace Wires

def MAX_REQUEST_LINE : Nat := 1024 * 1024

/-- `\n`. -/
def NEWLINE : UInt8 := 0x0a

/-- `u8::is_ascii_whitespace`. -/
def isAsciiWhitespace (b : UInt8) : Bool :=
  b = 0x20 || b = 0x09 || b = 0x0a || b = 0x0c || b = 0x0d

/-! ## Lines -/

/-- Why a line is refused. -/
def lineTooLong (cap : Nat) : Anyhow :=
  ["control request line exceeds " ++ toString cap ++ " bytes; refusing to buffer it"]

/-- `read_capped_line`, with what it has so far: a line, or none at the end, and the chunks left. -/
def readCappedLine (cap : Nat) (ends : Ending) :
    List UInt8 → List (Chunk UInt8) → Except Anyhow (Option (List UInt8)) × List (Chunk UInt8)
  | line, [] =>
    match ends with
    | .eof => (.ok (if line = [] then none else some line), [])
    | .failed why => (.error ["reading a control request", why], [])
  | line, available :: rest =>
    match available.val.idxOf? NEWLINE with
    | some at_ => (.ok (some (line ++ available.val.take at_)), unread (available.val.drop (at_ + 1)) rest)
    | none =>
      let line := line ++ available.val
      if line.length > cap then (.error (lineTooLong cap), rest) else readCappedLine cap ends line rest

/-- A line that is read takes bytes. -/
theorem length_readCappedLine {cap : Nat} {ends : Ending} {line l : List UInt8}
    {cs rest : List (Chunk UInt8)} (h : readCappedLine cap ends line cs = (.ok (some l), rest))
    (hcs : cs ≠ [] ∨ line = []) : (joined rest).length < (joined cs).length := by
  induction cs generalizing line with
  | nil =>
    have hline : line = [] := hcs.resolve_left fun hne => hne rfl
    rw [hline] at h
    cases ends <;> simp [readCappedLine] at h
  | cons available cs ih =>
    have hpos := List.length_pos_of_ne_nil available.property
    rw [readCappedLine] at h
    rw [joined_cons, List.length_append]
    split at h
    · cases h
      rw [joined_unread, List.length_append, List.length_drop]
      omega
    · dsimp only at h
      split at h
      · cases h
      · by_cases hmore : cs = []
        · rw [hmore] at h
          cases ends with
          | eof =>
            obtain ⟨-, rfl⟩ := Prod.mk.inj (readCappedLine.eq_def .. ▸ h)
            simpa [hmore] using hpos
          | failed why => simp [readCappedLine] at h
        · have hless := ih h (.inl hmore)
          omega

/-- The lines that `read_capped_line` yields one after the other, and how it ends. -/
def readLines (cap : Nat) (ends : Ending) (cs : List (Chunk UInt8)) :
    List (List UInt8) × Except Anyhow Unit :=
  match _hread : readCappedLine cap ends [] cs with
  | (.error e, _) => ([], .error e)
  | (.ok none, _) => ([], .ok ())
  | (.ok (some line), rest) =>
    let (lines, result) := readLines cap ends rest
    (line :: lines, result)
termination_by (joined cs).length
decreasing_by exact length_readCappedLine _hread (.inr rfl)

/-! ## Requests -/

/-- Whose socket it is. -/
inductive Authority where
  | operator
  | calls
deriving DecidableEq

/-- One reply; a report is the push service's. -/
inductive ControlResponse (ρ : Type) where
  | pushed (report : ρ)
  | err (reason : String)
deriving DecidableEq

/-- What becomes of a push that is handed to the push service. -/
inductive Dispatched (ρ : Type) where
  | shuttingDown
  | report (report : ρ)
  | refused (reason : String)
  | dropped

/-- What a line meets: `Capabilities::check`, the push service, and the client's end, which may be
gone when the reply is written. -/
structure LineEnv (ρ : Type) where
  check : PushToken → String → Except CapabilityRefusal Grant
  dispatch : PushSpec → Dispatched ρ
  unwritable : Option Anyhow

variable {ρ : Type} [Web]

omit [Web] in
/-- `dispatch_push`. -/
def dispatchPush (env : LineEnv ρ) (spec : PushSpec) : ControlResponse ρ :=
  match env.dispatch spec with
  | .shuttingDown => .err "the host is shutting down"
  | .report report => .pushed report
  | .refused reason => .err (truncateReason reason)
  | .dropped => .err "the host dropped the push without answering"

/-- The reply to a line. -/
def respond (authority : Authority) (env : LineEnv ρ) (line : List UInt8) : ControlResponse ρ :=
  match (utf8Decode line).bind fun cs => (Json.parse cs).bind ControlRequest.ofJson, authority with
  | some (.push spec), .operator => dispatchPush env spec
  | some (.callerPush token push), .calls =>
    let checked := match PushToken.fromHex token with
      | some token => env.check token push.to_
      | none => .error .unknown
    match checked with
    | .ok _ => dispatchPush env push
    | .error refusal => .err (truncateReason refusal.display)
  | some (.push _), .calls =>
    .err "this socket takes only a call's push (`caller_push` with its WIRES_PUSH_TOKEN)"
  | some (.callerPush _ _), .operator =>
    .err "a call's push goes to the child socket (WIRES_PUSH_SOCKET)"
  | none, _ => .err (truncateReason ("malformed request: " ++ Web.serdeError line))

/-- `serve_conn`, from its `n`-th line on: the replies written, and how it ends. -/
def serveConn (authority : Authority) (env : Nat → LineEnv ρ) (ends : Ending) (n : Nat)
    (cs : List (Chunk UInt8)) : List (ControlResponse ρ) × Except Anyhow Unit :=
  match _hread : readCappedLine MAX_REQUEST_LINE ends [] cs with
  | (.error e, _) => ([], .error e)
  | (.ok none, _) => ([], .ok ())
  | (.ok (some line), rest) =>
    if line.all isAsciiWhitespace then serveConn authority env ends (n + 1) rest
    else
      match (env n).unwritable with
      | some e => ([], .error e)
      | none =>
        let (replies, result) := serveConn authority env ends (n + 1) rest
        (respond authority (env n) line :: replies, result)
termination_by (joined cs).length
decreasing_by all_goals exact length_readCappedLine _hread (.inr rfl)

end Wires
