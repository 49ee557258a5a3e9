import Wires.Framework.Utf8
import Wires.Impl.Directory
import Wires.Impl.Mcp

/-!
# Shaping an output

`Shape::apply` of `wires/caller/shape.rs`, `truncate_reason` of
`wires/host/transport.rs`, and `capped` of `wires/caller/mcp.rs`, each with its
own scan back to where a character begins. jq is a parameter: what a program
makes of a call's stdout, and why it stopped. A `none` is a panic.
-/

namespace Wires

/-- `\n`. -/
def LINE_FEED : UInt8 := 10

/-! ## `shape.rs` -/

/-- `shape::head_len`: the length of the first `n` lines. -/
def headLen (bs : List UInt8) (n : Nat) : Nat :=
  if n = 0 then 0
  else
    match (bs.zipIdx.filter fun p => p.1 = LINE_FEED)[n - 1]? with
    | some p => p.2 + 1
    | none => bs.length

/-- The scan of `char_floor`: back over continuation bytes, at most three. -/
def charFloorFrom (bs : List UInt8) (n : Nat) : Nat → Nat
  | 0 => 0
  | cut + 1 =>
    if n - (cut + 1) < 3 ∧ bs[cut + 1]?.any isContinuation = true then charFloorFrom bs n cut
    else cut + 1

/-- `shape::char_floor`: the largest cut that splits no character. What is no UTF-8 is cut at `n`. -/
def charFloor (bs : List UInt8) (n : Nat) : Nat :=
  if n ≥ bs.length then bs.length
  else
    let cut := charFloorFrom bs n n
    if bs[cut]?.any isContinuation then n else cut

/-- What shaping made of a stdout. -/
structure Shaped where
  stdout : List UInt8
  notes : List String
  error : Option String
deriving DecidableEq

namespace Shape

/-- `apply`'s `--head`. -/
def headed (head : Option Nat) (bs : List UInt8) : List UInt8 :=
  match head with
  | some n => bs.take (headLen bs n)
  | none => bs

/-- The note of a cut. -/
def note (cut len n : Nat) : String :=
  "wires: stdout truncated to " ++ toString cut ++ " of " ++ toString len ++
    " bytes (--max-bytes " ++ toString n ++ ")"

/-- `Shape::apply`. -/
def apply [Jaq] (run : JqProgram → List UInt8 → List UInt8 × Option String) (shape : Shape)
    (stdout : List UInt8) : Shaped :=
  let (bytes, error) := match shape.jq with
    | some p => run p stdout
    | none => (stdout, none)
  let bytes := headed shape.head bytes
  match shape.maxBytes with
  | some n =>
    if bytes.length > n then
      let cut := charFloor bytes n
      ⟨bytes.take cut, [note cut bytes.length n], error⟩
    else ⟨bytes, [], error⟩
  | none => ⟨bytes, [], error⟩

end Shape

/-! ## `truncate_reason` -/

namespace Transport

/-- The scan of `truncate_reason`. -/
def reasonEnd (bs : List UInt8) : Nat → Nat
  | 0 => 0
  | n + 1 => if isCharBoundary bs (n + 1) then n + 1 else reasonEnd bs n

/-- `truncate_reason`. -/
def truncateReason (s : String) : Option String :=
  if byteLen s > MAX_REASON then
    (truncate s.toList (reasonEnd (utf8 s.toList) MAX_REASON)).map String.ofList
  else some s

end Transport

/-! ## `mcp.rs` -/

namespace Mcp

/-- Most of a stream that a result has. -/
def MAX_OUTPUT_BYTES : Nat := 64 * 1024

/-- `end_line`: a text ends in a newline, unless there is none. -/
def endLine (cs : List Char) : List Char :=
  if cs ≠ [] ∧ cs.getLast? ≠ some '\n' then cs ++ ['\n'] else cs

/-- The scan of `capped`; `cut -= 1` overflows at 0. -/
def cappedCut (bs : List UInt8) : Nat → Option Nat
  | 0 => if isCharBoundary bs 0 then some 0 else none
  | n + 1 => if isCharBoundary bs (n + 1) then some (n + 1) else cappedCut bs n

/-- `capped`'s note of a cut. -/
def cappedNote (stream : String) (cut len : Nat) : List Char :=
  ("[wires: " ++ stream ++ " truncated to " ++ toString cut ++ " of " ++ toString len ++
    " bytes]").toList

/-- `mcp::capped`. -/
def capped (bytes : List UInt8) (stream : String) : Option (List Char) := do
  let text := fromUtf8Lossy bytes
  if (utf8 text).length > MAX_OUTPUT_BYTES then
    let cut ← cappedCut (utf8 text) MAX_OUTPUT_BYTES
    let text ← truncate text cut
    return endLine text ++ cappedNote stream cut bytes.length
  else return text

end Mcp

end Wires
