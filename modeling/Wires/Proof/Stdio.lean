import Wires.Framework.Run
import Wires.Proof.Relays

/-!
# The stdio of a session

The caller's stdin goes the other way: what the service has read begins what the
caller's task has (`Bridge.Fed`). With the outputs' side that gives
`Bridge.stdio_exact`, for every interleaving of the tasks.
-/

namespace Wires

namespace Bridge

variable {b t : Bridge} {fs : List Frame} {part : List UInt8}

/-! ## The input -/

/-- While the host feeds the service, nothing the caller's task read of its stdin is lost or out of
order. -/
structure Feeds (b : Bridge) (fs : List Frame) (part : List UInt8) : Prop where
  wire : Carries Frame.decode b.toHost fs part
  part : b.sender.Part part
  bytes : b.stdin.written ++ (b.feeder.left ++ (fs.flatMap Frame.input ++ b.sender.chunk)) =
    b.typed.read

/-- What holds throughout of what the service gets. -/
structure Fed (b : Bridge) : Prop where
  feeds : (∀ left, b.feeder ≠ .stopped left) → ∃ fs part, b.Feeds fs part
  input : b.stdin.written <+: b.typed.read

theorem fed_start : Fed start where
  feeds _ := ⟨[], [], carries_nil Frame.splits.toSplits, rfl, rfl⟩
  input := List.prefix_refl []

theorem Feeds.input (h : b.Feeds fs part) : b.stdin.written <+: b.typed.read := ⟨_, h.bytes⟩

/-- A step that is not about the input. -/
theorem Fed.other (h : b.Fed) (hstdin : t.stdin.written = b.stdin.written)
    (hfeeder : t.feeder = b.feeder) (hwire : t.toHost = b.toHost) (hsender : t.sender = b.sender)
    (htyped : t.typed.read = b.typed.read) : t.Fed := by
  refine ⟨fun hf => ?_, by rw [hstdin, htyped]; exact h.input⟩
  rw [hfeeder] at hf
  obtain ⟨fs, part, hfeeds⟩ := h.feeds hf
  refine ⟨fs, part, hwire ▸ hfeeds.wire, hsender ▸ hfeeds.part, ?_⟩
  rw [hstdin, hfeeder, hsender, htyped]
  exact hfeeds.bytes

/-- The host feeds the service no more. -/
theorem Fed.stops (h : b.Fed) {left : List UInt8} (hfeeder : t.feeder = .stopped left)
    (hstdin : t.stdin.written = b.stdin.written) (htyped : t.typed.read = b.typed.read) : t.Fed where
  feeds hf := absurd hfeeder (hf left)
  input := by
    rw [hstdin, htyped]
    exact h.input

/-- A step of the caller's task, which sends on or stops. -/
theorem Fed.sends (h : b.Fed) (hstdin : t.stdin = b.stdin) (hfeeder : t.feeder = b.feeder)
    (htyped : b.typed.read <+: t.typed.read)
    (hsent : ∀ fs part, b.Feeds fs part → ∃ gs rest, Carries Frame.decode t.toHost gs rest ∧
      t.sender.Part rest ∧ ∃ more, t.typed.read = b.typed.read ++ more ∧
        gs.flatMap Frame.input ++ t.sender.chunk = fs.flatMap Frame.input ++ b.sender.chunk ++ more) :
    t.Fed := by
  refine ⟨fun hf => ?_, by rw [hstdin]; exact h.input.trans htyped⟩
  rw [hfeeder] at hf
  obtain ⟨fs, part, hfeeds⟩ := h.feeds hf
  obtain ⟨gs, rest, hwire, hpart, more, htyped, hbytes⟩ := hsent fs part hfeeds
  refine ⟨gs, rest, hwire, hpart, ?_⟩
  rw [hstdin, hfeeder, hbytes, htyped, ← hfeeds.bytes]
  simp only [List.append_assoc]

/-- A step of the task that feeds the service. -/
theorem Fed.reads (h : b.Fed) (hfeeder : ∀ left, b.feeder ≠ .stopped left)
    (ht : ∀ fs part, b.Feeds fs part → ∃ gs, t.Feeds gs part) : t.Fed := by
  obtain ⟨fs, part, hfeeds⟩ := h.feeds hfeeder
  obtain ⟨gs, hgs⟩ := ht fs part hfeeds
  exact ⟨fun _ => ⟨gs, part, hgs⟩, hgs.input⟩

theorem Goes.fed (h : Goes b t) (hs : b.Fed) : t.Fed := by
  cases h with
  | consumes h => exact hs.other (Pipe.written_poll h (Nat.succ_pos _)) rfl rfl rfl rfl
  | @feederReads chunk n h hd =>
    refine hs.reads (by simp [h]) fun fs part hfeeds => ?_
    obtain ⟨gs, rfl, hrest⟩ := hfeeds.wire.read Frame.splits.toSplits hd
    refine ⟨gs, hrest, hfeeds.part, ?_⟩
    have hbytes := hfeeds.bytes
    rw [h, List.flatMap_cons, List.append_assoc] at hbytes
    exact hbytes
  | @feederSkips f n h hd hf =>
    refine hs.reads (by simp [h]) fun fs part hfeeds => ?_
    obtain ⟨gs, rfl, hrest⟩ := hfeeds.wire.read Frame.splits.toSplits hd
    refine ⟨gs, hrest, hfeeds.part, ?_⟩
    have hbytes := hfeeds.bytes
    rw [List.flatMap_cons, hf] at hbytes
    exact hbytes
  | feederEnds => exact hs.stops rfl rfl rfl
  | @feeds left n h =>
    refine hs.reads (by simp [h]) fun fs part hfeeds => ⟨fs, hfeeds.wire, hfeeds.part, ?_⟩
    have hbytes := hfeeds.bytes
    have hleft : (if left.drop n = [] then Feeder.reads else .writes (left.drop n)).left =
        left.drop n := by
      split_ifs with hn
      · exact hn.symm
      · rfl
    rw [hleft]
    rw [h] at hbytes
    rw [← hbytes]
    show (b.stdin.read ++ (b.stdin.held ++ left.take n)) ++ (left.drop n ++ _) = _
    have hall : left = left.take n ++ left.drop n := (List.take_append_drop n left).symm
    conv_rhs => rw [Feeder.left, hall, Pipe.written]
    simp only [List.append_assoc]
  | feederFails => exact hs.stops rfl rfl rfl
  | aborts => exact hs.stops rfl rfl rfl
  | senderReads h _ he =>
    refine hs.sends rfl rfl (List.prefix_append _ _) fun fs part hfeeds => ?_
    have hpart := hfeeds.part
    rw [h] at hpart
    obtain rfl := hpart
    exact ⟨fs, [], hfeeds.wire, he, _, rfl, by rw [h]; simp [Sender.chunk]⟩
  | senderReadsBad h =>
    refine hs.sends rfl rfl (List.prefix_append _ _) fun fs part hfeeds => ?_
    exact ⟨fs, part, hfeeds.wire, trivial, _, rfl, by rw [h]; simp [Sender.chunk]⟩
  | senderStops h =>
    refine hs.sends rfl rfl (List.prefix_refl _) fun fs part hfeeds => ?_
    exact ⟨fs, part, hfeeds.wire, trivial, [], by simp, by rw [h]; simp [Sender.chunk]⟩
  | @senderWritesSome chunk left n h hn =>
    refine hs.sends rfl rfl (List.prefix_refl _) fun fs part hfeeds => ?_
    have hpart := hfeeds.part
    rw [h] at hpart
    have henc : (Frame.stdin chunk).encode = .ok ((part ++ left.take n) ++ left.drop n) := by
      rw [List.append_assoc, List.take_append_drop]
      exact hpart
    exact ⟨fs, _, hfeeds.wire.write_some Frame.codec hpart hn, henc, [], by simp,
      by rw [h]; simp [Sender.chunk]⟩
  | @senderWritesRest chunk left n h hn =>
    refine hs.sends rfl rfl (List.prefix_refl _) fun fs part hfeeds => ?_
    have hpart := hfeeds.part
    rw [h] at hpart
    have henc : (Frame.stdin chunk).encode = .ok (part ++ left) := hpart
    exact ⟨fs ++ [.stdin chunk], [], hfeeds.wire.write_rest Frame.codec henc hn, rfl, [], by simp,
      by rw [h]; simp [Sender.chunk, Frame.input]⟩
  | senderFails h =>
    refine hs.sends rfl rfl (List.prefix_refl _) fun fs part hfeeds => ?_
    exact ⟨fs, part, hfeeds.wire, trivial, [], by simp, by rw [h]; simp [Sender.chunk]⟩
  | receivesExit | receivesEnd =>
    refine hs.sends rfl rfl (List.prefix_refl _) fun fs part hfeeds => ?_
    exact ⟨fs, part, hfeeds.wire, trivial, [], (List.append_nil _).symm, (List.append_nil _).symm⟩
  | _ => exact hs.other rfl rfl rfl rfl rfl

/-! ## Whole sessions -/

section

variable {es : List BridgeEvent} {s : Bridge}

theorem sound_of_run (h : run step start es = some s) : s.Sound :=
  run_invariant (fun _ _ _ hs he => hs.step he) sound_start h

theorem fed_of_run (h : run step start es = some s) : s.Fed :=
  run_invariant (fun _ _ _ hs he => (goes_of_step he).fed hs) fed_start h

/-- Whatever the service does, however reads are cut, and in whatever order the tasks go: a call
that ends with an exit code has written to its outputs exactly what the service wrote to its own,
which are then at their ends, and the code is how the service ended; and at any time, what the
service has read is how the caller's stdin begins. -/
theorem stdio_exact (h : run step start es = some s) :
    (∀ code, s.receiver = .ended (some code) →
      (∀ o, s.shown.get o = (s.outs.get o).written ∧ (s.outs.get o).closed = true) ∧
        ∃ status, s.status = some status ∧ code = status.getD (-1)) ∧
      s.stdin.read <+: s.typed.written := by
  refine ⟨fun code hr => ?_, ?_⟩
  · have hc := (sound_of_run h).complete code hr
    refine ⟨fun o => ⟨?_, (hc.spent o).closed⟩, hc.ended⟩
    rw [(hc.spent o).written]
    exact hc.shown o
  · have hread : s.stdin.read <+: s.stdin.written := List.prefix_append _ _
    have htyped : s.typed.read <+: s.typed.written := List.prefix_append _ _
    exact hread.trans ((fed_of_run h).input.trans htyped)

end

/-- A service prints two bytes, in two chunks, and has ended before the second is taken. -/
def printsHi : List BridgeEvent :=
  [.service (.prints .out [104, 105]), .service (.closes .out), .service (.closes .err),
    .service (.exits (some 3)), .bridging (.waited true),
    .pump .out (.reads 0), .pump .out .sends, .writer .takes, .writer (.writes 2),
    .pump .out (.reads 4), .pump .out .sends, .pump .out (.reads 0), .pump .err (.reads 0),
    .bridging .joined, .bridging .joined, .bridging .aborts, .bridging .exits,
    .writer (.writes 9), .receiver (.reads [0, 1] .eof), .receiver (.writes 0),
    .writer .takes, .writer (.writes 9), .receiver (.reads [] .eof), .receiver (.writes 0),
    .writer .takes, .writer (.writes 9), .receiver (.reads [] .eof)]

/-- Of two bytes typed, the service reads one. -/
def readsOne : List BridgeEvent :=
  [.sender (.types [97, 98]), .sender (.reads 0), .sender (.writes 2), .sender (.writes 9),
    .feeder (.reads [] .eof), .feeder (.writes 0), .service (.consumes 0)]

/-- Both in one session. -/
theorem stdio_exact_sample : ∃ s, run step start (readsOne ++ printsHi) = some s ∧
    s.receiver = .ended (some 3) ∧ s.outs.out.written = [104, 105] ∧ s.stdin.read = [97] ∧
    s.shown.out = s.outs.out.written ∧ s.stdin.read <+: s.typed.written := by
  obtain ⟨s, hrun, hended, hout, hin⟩ : ∃ s, run step start (readsOne ++ printsHi) = some s ∧
      s.receiver = .ended (some 3) ∧ s.outs.out.written = [104, 105] ∧ s.stdin.read = [97] :=
    ⟨_, rfl, rfl, rfl, rfl⟩
  have hexact := stdio_exact hrun
  exact ⟨s, hrun, hended, hout, hin, ((hexact.1 3 hended).1 .out).1, hexact.2⟩

end Bridge

end Wires
