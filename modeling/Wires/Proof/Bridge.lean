import Wires.Framework.Wire
import Wires.Impl.Bridge
import Wires.Proof.Frames
import Wires.Proof.Readers

/-!
# The tasks of a session

What a step of any task can do is `Bridge.Goes`, whose cases are all that the
proofs about sessions look at. `Bridge.Keeps` says what no step undoes, and
`Bridge.Stage` what the main task knows of the service and of the pumps when it
comes to send the exit frame.
-/

namespace Wires

/-! ## Frames -/

namespace Frame

theorem codec : Codec encode decode where
  toSplits := splits.toSplits
  whole := decode_encode
  part := decode_of_prefix

/-- What a frame carries of an output. -/
def on (o : Outlet) (f : Frame) : List UInt8 :=
  match f.outlet? with
  | some (o', chunk) => if o' = o then chunk else []
  | none => []

theorem on_frame (o o' : Outlet) (chunk : List UInt8) :
    (o'.frame chunk).on o = if o' = o then chunk else [] := by
  cases o' <;> rfl

@[simp] theorem on_exit (o : Outlet) (code : Int32) : (exit code).on o = [] := rfl

theorem on_of_none {f : Frame} (h : f.outlet? = none) (o : Outlet) : f.on o = [] := by
  rw [on, h]

theorem on_of_some {f : Frame} {o' : Outlet} {chunk : List UInt8} (h : f.outlet? = some (o', chunk))
    (o : Outlet) : f.on o = if o' = o then chunk else [] := by
  rw [on, h]

/-- What a frame carries of the caller's stdin. -/
def input : Frame → List UInt8
  | .stdin chunk => chunk
  | _ => []

end Frame

/-- A frame the host or the caller reads is the first on the wire. -/
theorem readFrame_eq_some {wire : List UInt8} {sizes : List Nat} {ending : Ending} {f : Frame}
    {rest : Stream} (h : readFrame ⟨wire, sizes, ending⟩ = (.ok (some f), rest)) :
    ∃ n, Frame.decode wire = .ok (some (f, n)) ∧ rest.bytes = wire.drop n := by
  have hreads := readFrameWithin_reads ⟨wire, sizes, ending⟩ MAX_FRAME
  have hframe : (readFrameWithin ⟨wire, sizes, ending⟩ MAX_FRAME).1 = .ok (some f) := by
    show (readFrame _).1 = _
    rw [h]
  obtain ⟨n, hd, hrest⟩ := hreads.of_frame Frame.splits hframe
  refine ⟨n, hd, ?_⟩
  rw [← hrest]
  show rest.bytes = (readFrame _).2.bytes
  rw [h]

/-! ## Pipes -/

namespace Pipe

variable {p q : Pipe} {bytes : List UInt8} {room n : Nat}

/-- Nothing waits and nothing comes. -/
structure Spent (p : Pipe) : Prop where
  closed : p.closed = true
  held : p.held = []

theorem Spent.written (h : p.Spent) : p.written = p.read := by
  rw [Pipe.written, h.held, List.append_nil]

theorem write_eq_some : p.write bytes = some q ↔
    p.closed = false ∧ q = { p with held := p.held ++ bytes } := by
  unfold write
  cases p.closed <;> simp [eq_comm]

/-- A read that gets nothing is at the end; another moves what it gets. -/
theorem poll_cases (h : p.poll room n = some (bytes, q)) (hroom : 0 < room) :
    bytes = [] ∧ p.Spent ∧ q = p ∨
      bytes ≠ [] ∧ p.held ≠ [] ∧ q = ⟨p.read ++ bytes, q.held, p.closed⟩ ∧ p.held = bytes ++ q.held := by
  unfold poll at h
  split_ifs at h with hheld hclosed
  · cases h
    exact .inl ⟨rfl, ⟨hclosed, hheld⟩, rfl⟩
  · cases h
    refine .inr ⟨?_, hheld, rfl, (List.take_append_drop _ _).symm⟩
    intro hnil
    rcases List.take_eq_nil_iff.mp hnil with h0 | h0
    · omega
    · exact hheld h0

end Pipe

/-- What is read was written before. -/
theorem Pipe.written_poll {p q : Pipe} {bytes : List UInt8} {room n : Nat}
    (h : p.poll room n = some (bytes, q)) (hroom : 0 < room) : q.written = p.written := by
  obtain ⟨-, -, rfl⟩ | ⟨-, -, hq, hheld⟩ := poll_cases h hroom
  · rfl
  · rw [hq, written, written, hheld, List.append_assoc]

theorem PUMP_BUF_pos : 0 < PUMP_BUF := by decide

/-! ## What the tasks have in hand -/

def Pump.sent : Pump → Nat
  | .reads sent => sent
  | .sends sent _ => sent
  | .done sent => sent
  | .gaveUp sent _ => sent
  | .failed sent => sent

def Pump.hand : Pump → List UInt8
  | .sends _ chunk => chunk
  | .gaveUp _ chunk => chunk
  | _ => []

def Writer.hand : Writer → List Frame
  | .writes f _ => [f]
  | .failed f => [f]
  | _ => []

/-- What there can be on the wire behind the last whole frame. -/
def Writer.Part (part : List UInt8) : Writer → Prop
  | .takes => part = []
  | .writes f left => f.encode = .ok (part ++ left)
  | .closed => part = []
  | .failed _ => True

def Receiver.hand (o : Outlet) : Receiver → List UInt8
  | .writes o' left => if o' = o then left else []
  | _ => []

/-- What there can be on the wire to the host behind the last whole frame. -/
def Sender.Part (part : List UInt8) : Sender → Prop
  | .reads => part = []
  | .writes chunk left => (Frame.stdin chunk).encode = .ok (part ++ left)
  | .stopped _ => True

theorem Pump.sending_eq_false {p : Pump} : p.sending = false ↔ ∃ r, p.result = some r := by
  rw [sending, Option.isNone_eq_false_iff, Option.isSome_iff_exists]

theorem Writer.taking_eq_false {w : Writer} : w.taking = false ↔ w = .closed ∨ ∃ f, w = .failed f := by
  cases w <;> simp [taking]

/-! ## Steps -/

namespace Bridge

variable {b t : Bridge}

/-- Everything a step can do. -/
inductive Goes (b : Bridge) : Bridge → Prop where
  | prints {o : Outlet} {bytes : List UInt8} (h : (b.outs.get o).closed = false) :
      Goes b { b with
        outs := b.outs.set o ⟨(b.outs.get o).read, (b.outs.get o).held ++ bytes, (b.outs.get o).closed⟩ }
  | closes (o : Outlet) : Goes b { b with outs := b.outs.set o (b.outs.get o).close }
  | consumes {n : Nat} {r : List UInt8 × Pipe} (h : b.stdin.poll (n + 1) n = some r) :
      Goes b { b with stdin := r.2 }
  | exits {status : Option Int32} (h : b.status = none) : Goes b { b with status := some status }
  | pumpReads {o : Outlet} {sent : Nat} {bytes held : List UInt8} (h : b.pumps.get o = .reads sent)
      (hheld : (b.outs.get o).held ≠ []) (hp : (b.outs.get o).held = bytes ++ held) :
      Goes b { b with
        outs := b.outs.set o ⟨(b.outs.get o).read ++ bytes, held, (b.outs.get o).closed⟩
        pumps := b.pumps.set o (.sends sent bytes) }
  | pumpEnds {o : Outlet} {sent : Nat} (h : b.pumps.get o = .reads sent)
      (hs : (b.outs.get o).Spent) : Goes b { b with pumps := b.pumps.set o (.done sent) }
  | pumpFails {o : Outlet} {sent : Nat} (h : b.pumps.get o = .reads sent) :
      Goes b { b with pumps := b.pumps.set o (.failed sent) }
  | pumpSends {o : Outlet} {sent : Nat} {chunk : List UInt8} (h : b.pumps.get o = .sends sent chunk)
      (hw : b.writer.taking = true) :
      Goes b { b with
        channel := b.channel ++ [o.frame chunk]
        pumps := b.pumps.set o (.reads (sent + chunk.length)) }
  | pumpGivesUp {o : Outlet} {sent : Nat} {chunk : List UInt8} (h : b.pumps.get o = .sends sent chunk)
      (hw : b.writer.taking = false) : Goes b { b with pumps := b.pumps.set o (.gaveUp sent chunk) }
  | takes {f : Frame} {fs : List Frame} {bytes : List UInt8} (h : b.writer = .takes)
      (hc : b.channel = f :: fs) (he : f.encode = .ok bytes) :
      Goes b { b with channel := fs, writer := .writes f bytes }
  | takesBad {f : Frame} {fs : List Frame} (h : b.writer = .takes) (hc : b.channel = f :: fs) :
      Goes b { b with channel := fs, writer := .failed f }
  | shuts (h : b.writer = .takes) (hc : b.channel = []) (hp : ∀ o, (b.pumps.get o).sending = false)
      (hb : b.bridging.sending = false) : Goes b { b with writer := .closed }
  | writesSome {f : Frame} {left : List UInt8} {n : Nat} (h : b.writer = .writes f left)
      (hn : left.drop n ≠ []) :
      Goes b { b with toCaller := b.toCaller ++ left.take n, writer := .writes f (left.drop n) }
  | writesRest {f : Frame} {left : List UInt8} {n : Nat} (h : b.writer = .writes f left)
      (hn : left.drop n = []) :
      Goes b { b with toCaller := b.toCaller ++ left.take n, writer := .takes }
  | writerFails {f : Frame} {left : List UInt8} (h : b.writer = .writes f left) :
      Goes b { b with writer := .failed f }
  | feederReads {chunk : List UInt8} {n : Nat} (h : b.feeder = .reads)
      (hd : Frame.decode b.toHost = .ok (some (.stdin chunk, n))) :
      Goes b { b with toHost := b.toHost.drop n, feeder := .writes chunk }
  | feederSkips {f : Frame} {n : Nat} (h : b.feeder = .reads)
      (hd : Frame.decode b.toHost = .ok (some (f, n))) (hf : f.input = []) :
      Goes b { b with toHost := b.toHost.drop n }
  | feederEnds (wire : List UInt8) (h : b.feeder = .reads) :
      Goes b { b with toHost := wire, feeder := .stopped [], stdin := b.stdin.close }
  | feeds {left : List UInt8} {n : Nat} (h : b.feeder = .writes left) (hc : b.stdin.closed = false) :
      Goes b { b with
        stdin := { b.stdin with held := b.stdin.held ++ left.take n }
        feeder := if left.drop n = [] then .reads else .writes (left.drop n) }
  | feederFails {left : List UInt8} (h : b.feeder = .writes left) :
      Goes b { b with feeder := .stopped left, stdin := b.stdin.close }
  | reaps (h : b.bridging = .waits) : Goes b { b with bridging := .reaps }
  | waited {status : Option Int32} (h : b.bridging = .waits ∨ b.bridging = .reaps)
      (hs : b.status = some status) :
      Goes b { b with bridging := .joinsOut (status.getD (-1)) }
  | bridgingFails (h : b.bridging.sending = true) : Goes b { b with bridging := .ended false }
  | joinsOut {code : Int32} {n : Nat} (h : b.bridging = .joinsOut code)
      (hr : (b.pumps.get .out).result = some (.ok n)) : Goes b { b with bridging := .joinsErr code n }
  | joinsErr {code : Int32} {n m : Nat} (h : b.bridging = .joinsErr code n)
      (hr : (b.pumps.get .err).result = some (.ok m)) :
      Goes b { b with bridging := .aborts code (n + m) }
  | aborts {code : Int32} {n : Nat} (h : b.bridging = .aborts code n) :
      Goes b { b with
        feeder := .stopped b.feeder.left
        stdin := b.stdin.close
        logged := some (code, n)
        bridging := .exits code }
  | sendsExit {code : Int32} (h : b.bridging = .exits code) (hw : b.writer.taking = true) :
      Goes b { b with channel := b.channel ++ [.exit code], bridging := .drains }
  | skipsExit {code : Int32} (h : b.bridging = .exits code) : Goes b { b with bridging := .drains }
  | drained (ok : Bool) (h : b.bridging = .drains) : Goes b { b with bridging := .ended ok }
  | types {bytes : List UInt8} (h : b.typed.closed = false) :
      Goes b { b with typed := { b.typed with held := b.typed.held ++ bytes } }
  | typesEnd : Goes b { b with typed := b.typed.close }
  | senderReads {bytes held left : List UInt8} (h : b.sender = .reads)
      (hp : b.typed.held = bytes ++ held) (he : (Frame.stdin bytes).encode = .ok left) :
      Goes b { b with
        typed := ⟨b.typed.read ++ bytes, held, b.typed.closed⟩
        sender := .writes bytes left }
  | senderReadsBad {bytes held : List UInt8} (h : b.sender = .reads)
      (hp : b.typed.held = bytes ++ held) :
      Goes b { b with
        typed := ⟨b.typed.read ++ bytes, held, b.typed.closed⟩
        sender := .stopped bytes }
  | senderStops (h : b.sender = .reads) : Goes b { b with sender := .stopped [] }
  | senderWritesSome {chunk left : List UInt8} {n : Nat} (h : b.sender = .writes chunk left)
      (hn : left.drop n ≠ []) :
      Goes b { b with toHost := b.toHost ++ left.take n, sender := .writes chunk (left.drop n) }
  | senderWritesRest {chunk left : List UInt8} {n : Nat} (h : b.sender = .writes chunk left)
      (hn : left.drop n = []) :
      Goes b { b with toHost := b.toHost ++ left.take n, sender := .reads }
  | senderFails {chunk left : List UInt8} (h : b.sender = .writes chunk left) :
      Goes b { b with sender := .stopped chunk }
  | receives {f : Frame} {n : Nat} {o : Outlet} {chunk : List UInt8} (h : b.receiver = .reads)
      (hd : Frame.decode b.toCaller = .ok (some (f, n))) (hf : f.outlet? = some (o, chunk)) :
      Goes b { b with toCaller := b.toCaller.drop n, receiver := .writes o chunk }
  | receivesOther {f : Frame} {n : Nat} (h : b.receiver = .reads)
      (hd : Frame.decode b.toCaller = .ok (some (f, n))) (hf : f.outlet? = none)
      (hx : ∀ code, f ≠ .exit code) : Goes b { b with toCaller := b.toCaller.drop n }
  | receivesExit {code : Int32} {n : Nat} (h : b.receiver = .reads)
      (hd : Frame.decode b.toCaller = .ok (some (.exit code, n))) :
      Goes b ({ b with toCaller := b.toCaller.drop n }.finish (some code))
  | receivesEnd (wire : List UInt8) (h : b.receiver = .reads) :
      Goes b ({ b with toCaller := wire }.finish none)
  | receiverFails (wire : List UInt8) (h : ∀ code, b.receiver ≠ .ended code) :
      Goes b { b with toCaller := wire, receiver := .ended none }
  | shows {o : Outlet} {left : List UInt8} {n : Nat} (h : b.receiver = .writes o left) :
      Goes b { b with
        shown := b.shown.set o (b.shown.get o ++ left.take n)
        receiver := if left.drop n = [] then .reads else .writes o (left.drop n) }

theorem push_eq_some {f : Frame} : b.push f = some t ↔
    b.channel.length < CHANNEL ∧ t = { b with channel := b.channel ++ [f] } := by
  unfold push
  split_ifs with h <;> simp [h, eq_comm]

theorem goes_service {e : ServiceEvent} (h : b.serviceStep e = some t) : Goes b t := by
  cases e with
  | prints o bytes =>
    obtain ⟨p, hp, rfl⟩ := Option.map_eq_some_iff.mp h
    obtain ⟨hc, rfl⟩ := Pipe.write_eq_some.mp hp
    exact .prints hc
  | closes o =>
    cases h
    exact .closes o
  | consumes n =>
    obtain ⟨r, hr, rfl⟩ := Option.map_eq_some_iff.mp h
    exact .consumes hr
  | exits status =>
    simp only [serviceStep] at h
    split at h
    · cases h
      exact .exits ‹_›
    · cases h

theorem goes_pump {o : Outlet} {e : PumpEvent} (h : b.pumpStep o e = some t) : Goes b t := by
  unfold pumpStep at h
  split at h
  · rename_i sent n hpump
    obtain ⟨⟨bytes, p⟩, hp, rfl⟩ := Option.map_eq_some_iff.mp h
    obtain ⟨rfl, hs, rfl⟩ | ⟨hne, hheld, hq, hp⟩ := Pipe.poll_cases hp PUMP_BUF_pos
    · simpa using Goes.pumpEnds hpump hs
    · simp only [if_neg hne]
      rw [hq]
      exact .pumpReads hpump hheld hp
  · cases h
    exact .pumpFails ‹_›
  · rename_i sent chunk hpump
    split_ifs at h with hw
    · obtain ⟨u, hu, rfl⟩ := Option.map_eq_some_iff.mp h
      obtain ⟨-, rfl⟩ := push_eq_some.mp hu
      exact .pumpSends hpump hw
    · cases h
      exact .pumpGivesUp hpump (by simpa using hw)
  · cases h

theorem goes_writer {e : WriterEvent} (h : b.writerStep e = some t) : Goes b t := by
  unfold writerStep at h
  split at h
  · rename_i hw
    split at h
    · rename_i f fs hc
      split at h
      · cases h
        exact .takes hw hc ‹_›
      · cases h
        exact .takesBad hw hc
    · rename_i hc
      split_ifs at h with hs
      cases h
      simp only [Bool.or_eq_true, not_or, Bool.not_eq_true] at hs
      refine .shuts hw hc (fun o => ?_) hs.2
      cases o with
      | out => exact hs.1.1
      | err => exact hs.1.2
  · rename_i f left n hw
    have ht : some { b with
        toCaller := b.toCaller ++ left.take (n + 1)
        writer := if left.drop (n + 1) = [] then .takes else .writes f (left.drop (n + 1)) } =
      some t := h
    by_cases hn : left.drop (n + 1) = []
    · rw [if_pos hn] at ht
      cases ht
      exact .writesRest hw hn
    · rw [if_neg hn] at ht
      cases ht
      exact .writesSome hw hn
  · cases h
    exact .writerFails ‹_›
  · cases h

theorem goes_feeder {e : FeederEvent} (h : b.feederStep e = some t) : Goes b t := by
  unfold feederStep at h
  split at h
  · rename_i sizes ending hfeeder
    split at h
    · rename_i chunk rest hread
      cases h
      obtain ⟨n, hd, hrest⟩ := readFrame_eq_some hread
      rw [hrest]
      exact .feederReads hfeeder hd
    · rename_i f rest hf hread
      cases h
      obtain ⟨n, hd, hrest⟩ := readFrame_eq_some hread
      rw [hrest]
      refine .feederSkips hfeeder hd ?_
      cases f with
      | stdin chunk => exact absurd rfl (hf chunk)
      | _ => rfl
    · cases h
      exact .feederEnds _ hfeeder
    · cases h
      exact .feederEnds _ hfeeder
  · rename_i left n hfeeder
    obtain ⟨p, hp, rfl⟩ := Option.map_eq_some_iff.mp h
    obtain ⟨hc, rfl⟩ := Pipe.write_eq_some.mp hp
    exact .feeds hfeeder hc
  · cases h
    exact .feederFails ‹_›
  · cases h

theorem join_cases {p : Pump} {next : Nat → Bridging} (h : b.join p next = some t) :
    (∃ n, p.result = some (.ok n) ∧ t = { b with bridging := next n }) ∨
      t = { b with bridging := .ended false } := by
  obtain ⟨r, hr, ht⟩ := Option.map_eq_some_iff.mp h
  cases r with
  | ok n => exact .inl ⟨n, hr, ht.symm⟩
  | error e => exact .inr ht.symm

theorem goes_bridging {e : BridgingEvent} (h : b.bridgingStep e = some t) : Goes b t := by
  have hwaited : ∀ ok : Bool, (b.bridging = .waits ∨ b.bridging = .reaps) →
      (if ok then b.status.map fun s : Option Int32 => { b with bridging := .joinsOut (s.getD (-1)) }
        else some { b with bridging := .ended false }) = some t → Goes b t := by
    intro ok hb ht
    split_ifs at ht
    · obtain ⟨status, hs, rfl⟩ := Option.map_eq_some_iff.mp ht
      exact .waited hb hs
    · cases ht
      refine .bridgingFails ?_
      rcases hb with hb | hb <;> rw [hb] <;> rfl
  unfold bridgingStep at h
  split at h
  · cases h
    exact .reaps ‹_›
  · exact hwaited _ (.inl ‹_›) h
  · exact hwaited _ (.inr ‹_›) h
  · rename_i code hb
    obtain ⟨n, hr, rfl⟩ | rfl := join_cases h
    · exact .joinsOut hb hr
    · exact .bridgingFails (by rw [hb]; rfl)
  · rename_i code n hb
    obtain ⟨m, hr, rfl⟩ | rfl := join_cases h
    · exact .joinsErr hb hr
    · exact .bridgingFails (by rw [hb]; rfl)
  · cases h
    exact .aborts ‹_›
  · rename_i code hb
    split_ifs at h with hw
    · obtain ⟨u, hu, rfl⟩ := Option.map_eq_some_iff.mp h
      obtain ⟨-, rfl⟩ := push_eq_some.mp hu
      exact .sendsExit hb hw
    · cases h
      exact .skipsExit hb
  · rename_i hb
    split at h
    · cases h
      exact .drained _ hb
    · cases h
      exact .drained _ hb
    · cases h
  · cases h

theorem goes_sender {e : SenderEvent} (h : b.senderStep e = some t) : Goes b t := by
  unfold senderStep at h
  split at h
  · obtain ⟨p, hp, rfl⟩ := Option.map_eq_some_iff.mp h
    obtain ⟨hc, rfl⟩ := Pipe.write_eq_some.mp hp
    exact .types hc
  · cases h
    exact .typesEnd
  · rename_i n hs
    obtain ⟨⟨bytes, p⟩, hp, ht⟩ := Option.map_eq_some_iff.mp h
    obtain ⟨rfl, -, rfl⟩ | ⟨hne, -, hq, hp⟩ := Pipe.poll_cases hp PUMP_BUF_pos
    · rw [if_pos rfl] at ht
      subst ht
      exact .senderStops hs
    · simp only [if_neg hne] at ht
      split at ht
      · subst ht
        rw [hq]
        exact .senderReads hs hp ‹_›
      · subst ht
        rw [hq]
        exact .senderReadsBad hs hp
  · cases h
    exact .senderStops ‹_›
  · rename_i chunk left n hs
    have ht : some { b with
        toHost := b.toHost ++ left.take (n + 1)
        sender := if left.drop (n + 1) = [] then .reads else .writes chunk (left.drop (n + 1)) } =
      some t := h
    by_cases hn : left.drop (n + 1) = []
    · rw [if_pos hn] at ht
      cases ht
      exact .senderWritesRest hs hn
    · rw [if_neg hn] at ht
      cases ht
      exact .senderWritesSome hs hn
  · cases h
    exact .senderFails ‹_›
  · cases h

theorem goes_receiver {e : ReceiverEvent} (h : b.receiverStep e = some t) : Goes b t := by
  unfold receiverStep at h
  split at h
  · rename_i sizes ending hr
    split at h
    · rename_i code rest hread
      cases h
      obtain ⟨n, hd, hrest⟩ := readFrame_eq_some hread
      rw [hrest]
      exact .receivesExit hr hd
    · rename_i f rest hx hread
      obtain ⟨n, hd, hrest⟩ := readFrame_eq_some hread
      rw [hrest] at h
      split at h
      · cases h
        exact .receives hr hd ‹_›
      · cases h
        exact .receivesOther hr hd ‹_› fun code hcode => hx code (by rw [hcode])
    · cases h
      exact .receivesEnd _ hr
    · cases h
      exact .receiverFails _ (by simp [hr])
  · rename_i o left n hr
    cases h
    exact .shows hr
  · cases h
    exact .receiverFails b.toCaller (by simp [*])
  · cases h

theorem goes_of_step {e : BridgeEvent} (h : b.step e = some t) : Goes b t := by
  cases e with
  | service e => exact goes_service h
  | pump o e => exact goes_pump h
  | writer e => exact goes_writer h
  | feeder e => exact goes_feeder h
  | bridging e => exact goes_bridging h
  | sender e => exact goes_sender h
  | receiver e => exact goes_receiver h

/-! ## What no step undoes -/

/-- A pump that ended, an exit status, an output at its end and a call that is over stay so. -/
structure Keeps (b t : Bridge) : Prop where
  result : ∀ o r, (b.pumps.get o).result = some r → t.pumps.get o = b.pumps.get o
  status : ∀ status, b.status = some status → t.status = some status
  spent : ∀ o, (b.outs.get o).Spent → t.outs.get o = b.outs.get o
  finished : b.bridging.sending = false → t.bridging.sending = false ∧ t.logged = b.logged
  ended : ∀ code, b.receiver = .ended code → t.receiver = .ended code ∧ t.shown = b.shown
  failed : ∀ f, b.writer = .failed f → t.writer = .failed f

theorem keeps_refl (b : Bridge) : Keeps b b :=
  ⟨fun _ _ _ => rfl, fun _ h => h, fun _ _ => rfl, fun h => ⟨h, rfl⟩, fun _ h => ⟨h, rfl⟩,
    fun _ h => h⟩

/-- Setting one output's entry is not seen by what holds of the entries it leaves alone. -/
theorem get_set_of_ne {α : Type} {s : Outlets α} {o o' : Outlet} {a : α} (h : o' ≠ o) :
    (s.set o a).get o' = s.get o' := by
  rw [Outlets.get_set, if_neg h]

/-- A pump that goes on had not ended. -/
theorem result_set {o : Outlet} {p : Pump} (h : (b.pumps.get o).result = none) :
    ∀ o' r, (b.pumps.get o').result = some r → (b.pumps.set o p).get o' = b.pumps.get o' := by
  intro o' r hr
  refine get_set_of_ne fun heq => ?_
  rw [heq, h] at hr
  cases hr

/-- An output that changes was not at its end. -/
theorem spent_set {o : Outlet} {p : Pipe} (h : ¬(b.outs.get o).Spent) :
    ∀ o', (b.outs.get o').Spent → (b.outs.set o p).get o' = b.outs.get o' :=
  fun _ hs => get_set_of_ne fun heq => h (heq ▸ hs)

theorem Goes.keeps (h : Goes b t) : Keeps b t := by
  have hb := keeps_refl b
  cases h with
  | prints h => exact { hb with spent := spent_set fun hs => by rw [hs.closed] at h; cases h }
  | closes o =>
    refine { hb with spent := fun o' hs => ?_ }
    by_cases ho : o' = o
    · subst ho
      show (b.outs.set o' _).get o' = _
      rw [Outlets.get_set_same, Pipe.close, ← hs.closed]
    · exact get_set_of_ne ho
  | consumes => exact { hb with }
  | exits h => exact { hb with status := fun _ hs => by rw [h] at hs; cases hs }
  | pumpReads h hheld =>
    exact { hb with
      result := result_set (by rw [h]; rfl)
      spent := spent_set fun hs => hheld hs.held }
  | pumpEnds h => exact { hb with result := result_set (by rw [h]; rfl) }
  | pumpFails h => exact { hb with result := result_set (by rw [h]; rfl) }
  | pumpSends h => exact { hb with result := result_set (by rw [h]; rfl) }
  | pumpGivesUp h => exact { hb with result := result_set (by rw [h]; rfl) }
  | takes h => exact { hb with failed := fun _ hf => by rw [h] at hf; cases hf }
  | takesBad h => exact { hb with failed := fun _ hf => by rw [h] at hf; cases hf }
  | shuts h => exact { hb with failed := fun _ hf => by rw [h] at hf; cases hf }
  | writesSome h => exact { hb with failed := fun _ hf => by rw [h] at hf; cases hf }
  | writesRest h => exact { hb with failed := fun _ hf => by rw [h] at hf; cases hf }
  | writerFails h => exact { hb with failed := fun _ hf => by rw [h] at hf; cases hf }
  | feederReads => exact { hb with }
  | feederSkips => exact { hb with }
  | feederEnds => exact { hb with }
  | feeds => exact { hb with }
  | feederFails => exact { hb with }
  | reaps h => exact { hb with finished := fun ho => by rw [h] at ho; cases ho }
  | waited h =>
    refine { hb with finished := fun ho => ?_ }
    rcases h with h | h <;> rw [h] at ho <;> cases ho
  | bridgingFails => exact { hb with finished := fun _ => ⟨rfl, rfl⟩ }
  | joinsOut h => exact { hb with finished := fun ho => by rw [h] at ho; cases ho }
  | joinsErr h => exact { hb with finished := fun ho => by rw [h] at ho; cases ho }
  | aborts h => exact { hb with finished := fun ho => by rw [h] at ho; cases ho }
  | sendsExit => exact { hb with finished := fun _ => ⟨rfl, rfl⟩ }
  | skipsExit => exact { hb with finished := fun _ => ⟨rfl, rfl⟩ }
  | drained => exact { hb with finished := fun _ => ⟨rfl, rfl⟩ }
  | types => exact { hb with }
  | typesEnd => exact { hb with }
  | senderReads => exact { hb with }
  | senderReadsBad => exact { hb with }
  | senderStops => exact { hb with }
  | senderWritesSome => exact { hb with }
  | senderWritesRest => exact { hb with }
  | senderFails => exact { hb with }
  | receives h => exact { hb with ended := fun _ he => by rw [h] at he; cases he }
  | receivesOther => exact { hb with }
  | receivesExit h => exact { hb with ended := fun _ he => by rw [h] at he; cases he }
  | receivesEnd _ h => exact { hb with ended := fun _ he => by rw [h] at he; cases he }
  | receiverFails _ h => exact { hb with ended := fun _ he => absurd he (h _) }
  | shows h => exact { hb with ended := fun _ he => by rw [h] at he; cases he }

/-! ## The exit code -/

/-- The service ended, and this is its exit code. -/
def EndedWith (b : Bridge) (code : Int32) : Prop :=
  ∃ status, b.status = some status ∧ code = status.getD (-1)

/-- What `bridge` knows at each stage: how the service ended, and what the pumps came to. -/
def Stage (b : Bridge) : Bridging → Prop
  | .joinsOut code => b.EndedWith code
  | .joinsErr code n => b.EndedWith code ∧ (b.pumps.get .out).result = some (.ok n)
  | .aborts code n => b.EndedWith code ∧ ∃ out err, n = out + err ∧
      (b.pumps.get .out).result = some (.ok out) ∧ (b.pumps.get .err).result = some (.ok err)
  | .exits code => b.EndedWith code ∧ ∃ out err, b.logged = some (code, out + err) ∧
      (b.pumps.get .out).result = some (.ok out) ∧ (b.pumps.get .err).result = some (.ok err)
  | _ => True

/-- An exit frame went out: the pumps saw their outputs end. -/
structure Sealed (b : Bridge) (code : Int32) : Prop where
  pumps : ∀ o, ∃ sent, b.pumps.get o = .done sent
  ended : b.EndedWith code
  finished : b.bridging.sending = false
  logged : b.logged = some (code, (b.pumps.get .out).sent + (b.pumps.get .err).sent)

namespace Keeps

variable {code : Int32}

theorem endedWith (hk : Keeps b t) (h : b.EndedWith code) : t.EndedWith code := by
  obtain ⟨status, hs, hcode⟩ := h
  exact ⟨status, hk.status _ hs, hcode⟩

theorem result_eq (hk : Keeps b t) {o : Outlet} {r : Except Unit Nat}
    (h : (b.pumps.get o).result = some r) : (t.pumps.get o).result = some r := by
  rw [hk.result o r h, h]

theorem done (hk : Keeps b t) {o : Outlet} {sent : Nat} (h : b.pumps.get o = .done sent) :
    t.pumps.get o = .done sent := by
  rw [hk.result o (.ok sent) (by rw [h]; rfl), h]

theorem stage (hk : Keeps b t) {s : Bridging} (hlog : t.logged = b.logged) (h : b.Stage s) :
    t.Stage s := by
  cases s with
  | joinsOut code => exact hk.endedWith h
  | joinsErr code n => exact ⟨hk.endedWith h.1, hk.result_eq h.2⟩
  | aborts code n =>
    obtain ⟨hended, out, err, hn, hout, herr⟩ := h
    exact ⟨hk.endedWith hended, out, err, hn, hk.result_eq hout, hk.result_eq herr⟩
  | exits code =>
    obtain ⟨hended, out, err, hl, hout, herr⟩ := h
    exact ⟨hk.endedWith hended, out, err, hlog.trans hl, hk.result_eq hout, hk.result_eq herr⟩
  | _ => trivial

theorem isSealed (hk : Keeps b t) (h : b.Sealed code) : t.Sealed code := by
  have hpump : ∀ o, t.pumps.get o = b.pumps.get o := fun o => by
    obtain ⟨sent, hs⟩ := h.pumps o
    rw [hk.done hs, hs]
  refine ⟨fun o => ?_, hk.endedWith h.ended, (hk.finished h.finished).1, ?_⟩
  · obtain ⟨sent, hs⟩ := h.pumps o
    exact ⟨sent, hk.done hs⟩
  · rw [(hk.finished h.finished).2, h.logged, hpump, hpump]

end Keeps

theorem Goes.stage (h : Goes b t) (hs : b.Stage b.bridging) : t.Stage t.bridging := by
  have hk := h.keeps
  cases h with
  | reaps => trivial
  | waited h hs => exact ⟨_, hs, rfl⟩
  | bridgingFails => trivial
  | joinsOut h hr =>
    rw [h] at hs
    exact ⟨hs, hr⟩
  | joinsErr h hr =>
    rw [h] at hs
    exact ⟨hs.1, _, _, rfl, hs.2, hr⟩
  | aborts h =>
    rw [h] at hs
    obtain ⟨hended, out, err, rfl, hout, herr⟩ := hs
    exact ⟨hended, out, err, rfl, hout, herr⟩
  | sendsExit => trivial
  | skipsExit => trivial
  | drained => trivial
  | _ => exact hk.stage rfl hs

end Bridge

end Wires
