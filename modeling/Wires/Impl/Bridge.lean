import Wires.Impl.Reader

/-!
# The stdio of a session

What a call's bytes go through once the host's ack is out: the service's pipes
(`wires/host/service.rs`), the tasks of `bridge` and the two loops of
`converse` (`wires/host/transport.rs`). The host runs two pumps, one writer of
all its frames, one task that feeds the service and the main task; the caller
runs one task for its stdin and reads the host's frames. Each task has its own
step, and a run is any interleaving of them. What a task still had in hand when
it stopped stays in its state.
-/

namespace Wires

/-- How much of a stream is read at once. -/
def PUMP_BUF : Nat := 64 * 1024

/-! ## Pipes -/

/-- Bytes between a writer and a reader: those read so far, those that wait, and whether more can
come. -/
structure Pipe where
  read : List UInt8
  held : List UInt8
  closed : Bool
deriving DecidableEq

namespace Pipe

/-- Nothing is written. -/
def empty : Pipe := ⟨[], [], false⟩

/-- All that was written, in order. -/
def written (p : Pipe) : List UInt8 := p.read ++ p.held

def write (p : Pipe) (bytes : List UInt8) : Option Pipe :=
  if p.closed then none else some { p with held := p.held ++ bytes }

def close (p : Pipe) : Pipe := { p with closed := true }

/-- A read with room for `room` bytes gets at most `n + 1` of those that wait, and none only at
the end. -/
def poll (p : Pipe) (room n : Nat) : Option (List UInt8 × Pipe) :=
  if p.held = [] then
    if p.closed then some ([], p) else none
  else
    let k := min room (n + 1)
    some (p.held.take k, { p with read := p.read ++ p.held.take k, held := p.held.drop k })

end Pipe

/-! ## The two outputs -/

/-- A service's outputs. -/
inductive Outlet where
  | out
  | err
deriving DecidableEq

/-- The frame that carries a chunk of an output. -/
def Outlet.frame : Outlet → List UInt8 → Frame
  | .out, chunk => .stdout chunk
  | .err, chunk => .stderr chunk

/-- The output a frame is for, and its chunk. -/
def Frame.outlet? : Frame → Option (Outlet × List UInt8)
  | .stdout chunk => some (.out, chunk)
  | .stderr chunk => some (.err, chunk)
  | _ => none

/-- One thing for each output. -/
structure Outlets (α : Type) where
  out : α
  err : α
deriving DecidableEq

namespace Outlets

variable {α : Type}

def get (s : Outlets α) : Outlet → α
  | .out => s.out
  | .err => s.err

def set (s : Outlets α) (o : Outlet) (a : α) : Outlets α :=
  match o with
  | .out => { s with out := a }
  | .err => { s with err := a }

theorem get_set (s : Outlets α) (o o' : Outlet) (a : α) :
    (s.set o a).get o' = if o' = o then a else s.get o' := by
  cases o <;> cases o' <;> rfl

@[simp] theorem get_set_same (s : Outlets α) (o : Outlet) (a : α) : (s.set o a).get o = a := by
  cases o <;> rfl

@[simp] theorem set_get (s : Outlets α) (o : Outlet) : s.set o (s.get o) = s := by
  cases o <;> rfl

end Outlets

/-! ## Tasks -/

/-- `pump_reader`, with how many bytes it has sent. -/
inductive Pump where
  | reads (sent : Nat)
  /-- Waits for room for the frame of a chunk. -/
  | sends (sent : Nat) (chunk : List UInt8)
  /-- The output ended. -/
  | done (sent : Nat)
  /-- Nobody takes frames any more. -/
  | gaveUp (sent : Nat) (chunk : List UInt8)
  | failed (sent : Nat)
deriving DecidableEq

/-- The one task that writes to the caller. -/
inductive Writer where
  | takes
  | writes (frame : Frame) (left : List UInt8)
  /-- Every sender is gone and everything is written. -/
  | closed
  | failed (frame : Frame)

/-- The task that feeds the service's stdin: it still has `left` of a chunk to write. -/
inductive Feeder where
  | reads
  | writes (left : List UInt8)
  /-- It ended, failed or was aborted. -/
  | stopped (left : List UInt8)
deriving DecidableEq

/-- Where `bridge` itself is. -/
inductive Bridging where
  /-- For the service to end, or the dialer to vanish. -/
  | waits
  /-- For a service it stopped. -/
  | reaps
  | joinsOut (code : Int32)
  | joinsErr (code : Int32) (outBytes : Nat)
  /-- About to abort the stdin task. -/
  | aborts (code : Int32) (bytes : Nat)
  /-- About to send the exit frame. -/
  | exits (code : Int32)
  /-- For the writer. -/
  | drains
  | ended (ok : Bool)
deriving DecidableEq

/-- The caller's stdin task. -/
inductive Sender where
  | reads
  | writes (chunk left : List UInt8)
  | stopped (chunk : List UInt8)
deriving DecidableEq

/-- The caller's loop over the host's frames. -/
inductive Receiver where
  | reads
  | writes (o : Outlet) (left : List UInt8)
  /-- With the exit code, or an error. -/
  | ended (code : Option Int32)
deriving DecidableEq

/-- A session after its ack: the service's pipes and how it ended (its exit code, if it had one);
the host's tasks, the frames they wait to write, and the call's log line; the bytes on their way;
and the caller's stdin, its tasks and what it wrote to its own outputs. -/
structure Bridge where
  stdin : Pipe
  outs : Outlets Pipe
  status : Option (Option Int32)
  pumps : Outlets Pump
  channel : List Frame
  writer : Writer
  feeder : Feeder
  bridging : Bridging
  logged : Option (Int32 × Nat)
  toCaller : List UInt8
  toHost : List UInt8
  typed : Pipe
  sender : Sender
  receiver : Receiver
  shown : Outlets (List UInt8)

/-! ## Steps -/

/-- What a service does. A process it left behind may hold its pipes after it ended. -/
inductive ServiceEvent where
  | prints (o : Outlet) (bytes : List UInt8)
  | closes (o : Outlet)
  | consumes (n : Nat)
  | exits (status : Option Int32)

inductive PumpEvent where
  | reads (n : Nat)
  | fails
  | sends

/-- A task that writes gets `n + 1` bytes written, at most, or fails. -/
inductive WriterEvent where
  | takes
  | writes (n : Nat)
  | fails

/-- A task that reads frames off a stream: the stream comes to `ending` after the bytes on their
way, and its reads are cut as `sizes` says. -/
inductive FeederEvent where
  | reads (sizes : List Nat) (ending : Ending)
  | writes (n : Nat)
  | fails

inductive BridgingEvent where
  /-- The service ended, or waiting for it failed. -/
  | waited (ok : Bool)
  | dialerGone
  | joined
  | aborts
  | exits
  | drained

inductive SenderEvent where
  | types (bytes : List UInt8)
  | ends
  | reads (n : Nat)
  | writes (n : Nat)
  | fails

inductive ReceiverEvent where
  | reads (sizes : List Nat) (ending : Ending)
  | writes (n : Nat)
  | fails

inductive BridgeEvent where
  | service (e : ServiceEvent)
  | pump (o : Outlet) (e : PumpEvent)
  | writer (e : WriterEvent)
  | feeder (e : FeederEvent)
  | bridging (e : BridgingEvent)
  | sender (e : SenderEvent)
  | receiver (e : ReceiverEvent)

/-- How many frames the host keeps for its writer. -/
def CHANNEL : Nat := 64

namespace Pump

/-- What it comes to, once it ended. -/
def result : Pump → Option (Except Unit Nat)
  | .done sent => some (.ok sent)
  | .gaveUp sent _ => some (.ok sent)
  | .failed _ => some (.error ())
  | _ => none

/-- Whether it may still send. -/
def sending (p : Pump) : Bool := p.result.isNone

end Pump

/-- Whether it still takes frames. -/
def Writer.taking : Writer → Bool
  | .takes => true
  | .writes _ _ => true
  | _ => false

/-- What the task that feeds the service had in hand. -/
def Feeder.left : Feeder → List UInt8
  | .reads => []
  | .writes left => left
  | .stopped left => left

/-- Whether it may still send. -/
def Bridging.sending : Bridging → Bool
  | .drains => false
  | .ended _ => false
  | _ => true

/-- What the caller's stdin task had in hand. -/
def Sender.chunk : Sender → List UInt8
  | .reads => []
  | .writes chunk _ => chunk
  | .stopped chunk => chunk

/-- A write of at most `n + 1` bytes of what is left: those written, and what is then left. -/
def writeSome (left : List UInt8) (n : Nat) : List UInt8 × List UInt8 :=
  (left.take (n + 1), left.drop (n + 1))

namespace Bridge

/-- After the ack. -/
def start : Bridge where
  stdin := .empty
  outs := ⟨.empty, .empty⟩
  status := none
  pumps := ⟨.reads 0, .reads 0⟩
  channel := []
  writer := .takes
  feeder := .reads
  bridging := .waits
  logged := none
  toCaller := []
  toHost := []
  typed := .empty
  sender := .reads
  receiver := .reads
  shown := ⟨[], []⟩

/-- Another frame for the writer: none while there is no room. -/
def push (b : Bridge) (f : Frame) : Option Bridge :=
  if b.channel.length < CHANNEL then some { b with channel := b.channel ++ [f] } else none

def serviceStep (b : Bridge) : ServiceEvent → Option Bridge
  | .prints o bytes =>
    ((b.outs.get o).write bytes).map fun p => { b with outs := b.outs.set o p }
  | .closes o => some { b with outs := b.outs.set o (b.outs.get o).close }
  | .consumes n => (b.stdin.poll (n + 1) n).map fun r => { b with stdin := r.2 }
  | .exits status =>
    match b.status with
    | none => some { b with status := some status }
    | some _ => none

def pumpStep (b : Bridge) (o : Outlet) (e : PumpEvent) : Option Bridge :=
  match b.pumps.get o, e with
  | .reads sent, .reads n =>
    ((b.outs.get o).poll PUMP_BUF n).map fun r =>
      { b with
        outs := b.outs.set o r.2
        pumps := b.pumps.set o (if r.1 = [] then .done sent else .sends sent r.1) }
  | .reads sent, .fails => some { b with pumps := b.pumps.set o (.failed sent) }
  | .sends sent chunk, .sends =>
    if b.writer.taking then
      (b.push (o.frame chunk)).map fun b =>
        { b with pumps := b.pumps.set o (.reads (sent + chunk.length)) }
    else some { b with pumps := b.pumps.set o (.gaveUp sent chunk) }
  | _, _ => none

def writerStep (b : Bridge) (e : WriterEvent) : Option Bridge :=
  match b.writer, e with
  | .takes, .takes =>
    match b.channel with
    | f :: fs =>
      match f.encode with
      | .ok bytes => some { b with channel := fs, writer := .writes f bytes }
      | .error _ => some { b with channel := fs, writer := .failed f }
    | [] =>
      if (b.pumps.get .out).sending || (b.pumps.get .err).sending || b.bridging.sending then none
      else some { b with writer := .closed }
  | .writes f left, .writes n =>
    let (now, left) := writeSome left n
    some { b with
      toCaller := b.toCaller ++ now
      writer := if left = [] then .takes else .writes f left }
  | .writes f _, .fails => some { b with writer := .failed f }
  | _, _ => none

def feederStep (b : Bridge) (e : FeederEvent) : Option Bridge :=
  match b.feeder, e with
  | .reads, .reads sizes ending =>
    match readFrame ⟨b.toHost, sizes, ending⟩ with
    | (.ok (some (.stdin chunk)), rest) =>
      some { b with toHost := rest.bytes, feeder := .writes chunk }
    | (.ok (some _), rest) => some { b with toHost := rest.bytes }
    | (.ok none, rest) =>
      some { b with toHost := rest.bytes, feeder := .stopped [], stdin := b.stdin.close }
    | (.error _, rest) =>
      some { b with toHost := rest.bytes, feeder := .stopped [], stdin := b.stdin.close }
  | .writes left, .writes n =>
    let (now, left) := writeSome left n
    (b.stdin.write now).map fun p =>
      { b with stdin := p, feeder := if left = [] then .reads else .writes left }
  | .writes left, .fails => some { b with feeder := .stopped left, stdin := b.stdin.close }
  | _, _ => none

/-- The next stage of a task whose pump came to `result`. -/
def join (b : Bridge) (p : Pump) (next : Nat → Bridging) : Option Bridge :=
  p.result.map fun result =>
    match result with
    | .ok bytes => { b with bridging := next bytes }
    | .error _ => { b with bridging := .ended false }

def bridgingStep (b : Bridge) (e : BridgingEvent) : Option Bridge :=
  match b.bridging, e with
  | .waits, .dialerGone => some { b with bridging := .reaps }
  | .waits, .waited ok | .reaps, .waited ok =>
    if ok then b.status.map fun status => { b with bridging := .joinsOut (status.getD (-1)) }
    else some { b with bridging := .ended false }
  | .joinsOut code, .joined => b.join (b.pumps.get .out) (.joinsErr code)
  | .joinsErr code outBytes, .joined =>
    b.join (b.pumps.get .err) fun errBytes => .aborts code (outBytes + errBytes)
  | .aborts code bytes, .aborts =>
    some { b with
      feeder := .stopped (b.feeder.left)
      stdin := b.stdin.close
      logged := some (code, bytes)
      bridging := .exits code }
  | .exits code, .exits =>
    -- A writer that is gone takes no exit frame, and nothing waits for it.
    if b.writer.taking then (b.push (.exit code)).map fun b => { b with bridging := .drains }
    else some { b with bridging := .drains }
  | .drains, .drained =>
    match b.writer with
    | .closed => some { b with bridging := .ended true }
    | .failed _ => some { b with bridging := .ended false }
    | _ => none
  | _, _ => none

def senderStep (b : Bridge) (e : SenderEvent) : Option Bridge :=
  match b.sender, e with
  | _, .types bytes => (b.typed.write bytes).map fun p => { b with typed := p }
  | _, .ends => some { b with typed := b.typed.close }
  | .reads, .reads n =>
    (b.typed.poll PUMP_BUF n).map fun r =>
      if r.1 = [] then { b with sender := .stopped [] }
      else
        match (Frame.stdin r.1).encode with
        | .ok bytes => { b with typed := r.2, sender := .writes r.1 bytes }
        | .error _ => { b with typed := r.2, sender := .stopped r.1 }
  | .reads, .fails => some { b with sender := .stopped [] }
  | .writes chunk left, .writes n =>
    let (now, left) := writeSome left n
    some { b with
      toHost := b.toHost ++ now
      sender := if left = [] then .reads else .writes chunk left }
  | .writes chunk _, .fails => some { b with sender := .stopped chunk }
  | _, _ => none

/-- The loop is over: its stdin task is aborted when the stream ended, not when an error did. -/
def finish (b : Bridge) (code : Option Int32) : Bridge :=
  { b with sender := .stopped (b.sender.chunk), receiver := .ended code }

def receiverStep (b : Bridge) (e : ReceiverEvent) : Option Bridge :=
  match b.receiver, e with
  | .reads, .reads sizes ending =>
    match readFrame ⟨b.toCaller, sizes, ending⟩ with
    | (.ok (some (.exit code)), rest) => some ({ b with toCaller := rest.bytes }.finish (some code))
    | (.ok (some f), rest) =>
      match f.outlet? with
      | some (o, chunk) => some { b with toCaller := rest.bytes, receiver := .writes o chunk }
      | none => some { b with toCaller := rest.bytes }
    | (.ok none, rest) => some ({ b with toCaller := rest.bytes }.finish none)
    | (.error _, rest) => some { b with toCaller := rest.bytes, receiver := .ended none }
  | .writes o left, .writes n =>
    let (now, left) := writeSome left n
    some { b with
      shown := b.shown.set o (b.shown.get o ++ now)
      receiver := if left = [] then .reads else .writes o left }
  | .writes _ _, .fails => some { b with receiver := .ended none }
  | _, _ => none

/-- One step of a session. -/
def step (b : Bridge) : BridgeEvent → Option Bridge
  | .service e => b.serviceStep e
  | .pump o e => b.pumpStep o e
  | .writer e => b.writerStep e
  | .feeder e => b.feederStep e
  | .bridging e => b.bridgingStep e
  | .sender e => b.senderStep e
  | .receiver e => b.receiverStep e

end Bridge

end Wires
