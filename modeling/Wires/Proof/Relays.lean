import Wires.Framework.Ledger
import Wires.Proof.Bridge

/-!
# The outputs of a session

While the caller reads, each byte the host's pump took of an output is shown, in
the caller's hand, in a frame on its way, or in the pump's hand, in that order
(`Bridge.Relays`), and behind an exit frame nothing comes: it is sent when both
pumps saw their output end. So when the caller reads it, everything is shown
(`Bridge.Complete`).
-/

namespace Wires

namespace Bridge

variable {b t : Bridge}

/-! ## The outputs -/

/-- The frames on their way to the caller, of which `fs` are on the wire. -/
def onWay (b : Bridge) (fs : List Frame) : List Frame := fs ++ (b.writer.hand ++ b.channel)

/-- While the caller reads, nothing an output's pump took of it is lost or out of order, and an
exit frame is the last of the frames. -/
structure Relays (b : Bridge) (fs : List Frame) (part : List UInt8) : Prop where
  wire : Carries Frame.decode b.toCaller fs part
  part : b.writer.Part part
  bytes : ∀ o, b.shown.get o ++ (b.receiver.hand o ++ ((b.onWay fs).flatMap (Frame.on o) ++
    (b.pumps.get o).hand)) = (b.outs.get o).read
  last : ∀ before code after, b.onWay fs = before ++ .exit code :: after → after = []
  exit : ∀ code, .exit code ∈ b.onWay fs → b.Sealed code

variable {fs : List Frame} {part : List UInt8}

/-- A step of another task. -/
theorem Relays.other (h : b.Relays fs part) (hk : Keeps b t) (hwire : t.toCaller = b.toCaller)
    (hwriter : t.writer = b.writer) (hchannel : t.channel = b.channel)
    (hshown : t.shown = b.shown) (hreceiver : t.receiver = b.receiver)
    (hpumps : ∀ o, (t.pumps.get o).hand = (b.pumps.get o).hand)
    (houts : ∀ o, (t.outs.get o).read = (b.outs.get o).read) : t.Relays fs part := by
  have hway : t.onWay fs = b.onWay fs := by rw [onWay, onWay, hwriter, hchannel]
  refine ⟨hwire ▸ h.wire, hwriter ▸ h.part, fun o => ?_, ?_, ?_⟩
  · rw [hshown, hreceiver, hway, hpumps, houts]
    exact h.bytes o
  · rw [hway]
    exact h.last
  · rw [hway]
    exact fun code hc => hk.isSealed (h.exit code hc)

/-- A step of the writer: it moves frames on. -/
theorem Relays.moved (h : b.Relays fs part) (hk : Keeps b t) {gs : List Frame} {rest : List UInt8}
    (hwire : Carries Frame.decode t.toCaller gs rest) (hpart : t.writer.Part rest)
    (hway : t.onWay gs = b.onWay fs) (hshown : t.shown = b.shown)
    (hreceiver : t.receiver = b.receiver) (hpumps : t.pumps = b.pumps) (houts : t.outs = b.outs) :
    t.Relays gs rest := by
  refine ⟨hwire, hpart, fun o => ?_, ?_, ?_⟩
  · rw [hshown, hreceiver, hway, hpumps, houts]
    exact h.bytes o
  · rw [hway]
    exact h.last
  · rw [hway]
    exact fun code hc => hk.isSealed (h.exit code hc)

/-- No exit frame is on its way while a pump or `bridge` may send. -/
theorem Relays.no_exit (h : b.Relays fs part)
    (hs : (∃ o, (b.pumps.get o).sending = true) ∨ b.bridging.sending = true) (code : Int32) :
    .exit code ∉ b.onWay fs := by
  intro hc
  have hsealed := h.exit code hc
  rcases hs with ⟨o, ho⟩ | hb
  · obtain ⟨sent, hdone⟩ := hsealed.pumps o
    rw [hdone] at ho
    cases ho
  · rw [hsealed.finished] at hb
    cases hb

/-- The frames on their way once another is behind them. -/
theorem onWay_push (fs : List Frame) (f : Frame) (hwriter : t.writer = b.writer)
    (hchannel : t.channel = b.channel ++ [f]) : t.onWay fs = b.onWay fs ++ [f] := by
  rw [onWay, onWay, hwriter, hchannel]
  simp only [List.append_assoc]

/-- The caller takes the first frame. -/
theorem onWay_cons (f : Frame) (gs : List Frame) : b.onWay (f :: gs) = f :: b.onWay gs := rfl

theorem Relays.pumpReads (h : b.Relays fs part) {o : Outlet} {sent : Nat} {bytes held : List UInt8}
    (hpump : b.pumps.get o = .reads sent)
    (hk : Keeps b { b with
      outs := b.outs.set o ⟨(b.outs.get o).read ++ bytes, held, (b.outs.get o).closed⟩
      pumps := b.pumps.set o (.sends sent bytes) }) :
    Relays { b with
      outs := b.outs.set o ⟨(b.outs.get o).read ++ bytes, held, (b.outs.get o).closed⟩
      pumps := b.pumps.set o (.sends sent bytes) } fs part := by
  refine ⟨h.wire, h.part, fun o' => ?_, h.last, fun code hc => hk.isSealed (h.exit code hc)⟩
  have hbytes := h.bytes o'
  by_cases ho : o' = o
  · subst ho
    rw [hpump] at hbytes
    simp only [Outlets.get_set_same, Pump.hand, ← hbytes, List.append_assoc, List.append_nil]
    rfl
  · simp only [get_set_of_ne ho]
    exact hbytes

theorem Relays.pumpSends (h : b.Relays fs part) {o : Outlet} {sent : Nat} {chunk : List UInt8}
    (hpump : b.pumps.get o = .sends sent chunk)
    (hk : Keeps b { b with
      channel := b.channel ++ [o.frame chunk]
      pumps := b.pumps.set o (.reads (sent + chunk.length)) }) :
    Relays { b with
      channel := b.channel ++ [o.frame chunk]
      pumps := b.pumps.set o (.reads (sent + chunk.length)) } fs part := by
  have hno := h.no_exit (.inl ⟨o, by rw [hpump]; rfl⟩)
  have hframe : ∀ code, o.frame chunk ≠ .exit code := by
    intro code hc
    cases o <;> cases hc
  have hway := @onWay_push b { b with
      channel := b.channel ++ [o.frame chunk]
      pumps := b.pumps.set o (.reads (sent + chunk.length)) } fs (o.frame chunk) rfl rfl
  refine ⟨h.wire, h.part, fun o' => ?_, fun before code after heq => ?_, fun code hc => ?_⟩
  · have hbytes := h.bytes o'
    rw [hway, List.flatMap_append, List.flatMap_singleton, Frame.on_frame]
    by_cases ho : o' = o
    · subst ho
      rw [hpump] at hbytes
      simp only [if_true, Outlets.get_set_same, Pump.hand, List.append_nil]
      exact hbytes
    · simp only [if_neg (Ne.symm ho), get_set_of_ne ho, List.append_nil]
      exact hbytes
  · rw [hway] at heq
    rcases split_concat heq with ⟨-, hx, -⟩ | ⟨rest, -, hrest⟩
    · exact absurd hx.symm (hframe code)
    · exact absurd (hrest ▸ List.mem_append_right before List.mem_cons_self) (hno code)
  · rw [hway, List.mem_append, List.mem_singleton] at hc
    rcases hc with hc | hc
    · exact absurd hc (hno code)
    · exact absurd hc.symm (hframe code)

/-- `bridge` sends the exit frame when it knows how the service ended and that the pumps came to
the ends of their outputs: they only give up on a writer that is gone. -/
theorem Relays.sendsExit (h : b.Relays fs part) {code : Int32} (hb : b.bridging = .exits code)
    (hstage : b.Stage b.bridging) (hdone : ∀ o n, (b.pumps.get o).result = some (.ok n) →
      b.pumps.get o = .done n)
    (hk : Keeps b { b with channel := b.channel ++ [.exit code], bridging := .drains }) :
    Relays { b with channel := b.channel ++ [.exit code], bridging := .drains } fs part := by
  have hno := h.no_exit (.inr (by rw [hb]; rfl))
  have hway := @onWay_push b { b with channel := b.channel ++ [.exit code], bridging := .drains } fs
    (.exit code) rfl rfl
  refine ⟨h.wire, h.part, fun o => ?_, fun before code' after heq => ?_, fun code' hc => ?_⟩
  · rw [hway, List.flatMap_append, List.flatMap_singleton, Frame.on_exit, List.append_nil]
    exact h.bytes o
  · rw [hway] at heq
    rcases split_concat heq with ⟨-, -, hafter⟩ | ⟨rest, -, hrest⟩
    · exact hafter
    · exact absurd (hrest ▸ List.mem_append_right before List.mem_cons_self) (hno code')
  · rw [hway, List.mem_append, List.mem_singleton] at hc
    rcases hc with hc | hc
    · exact absurd hc (hno code')
    · cases hc
      rw [hb] at hstage
      obtain ⟨hended, out, err, hlog, hout, herr⟩ := hstage
      have hout := hdone .out out hout
      have herr := hdone .err err herr
      refine ⟨fun o => ?_, hk.endedWith hended, rfl, ?_⟩
      · cases o with
        | out => exact ⟨out, hout⟩
        | err => exact ⟨err, herr⟩
      · show b.logged = some (code, (b.pumps.get .out).sent + (b.pumps.get .err).sent)
        rw [hlog, hout, herr]
        rfl

/-- The caller takes a frame off the wire, with `hand` of it to show. -/
theorem Relays.takes (h : b.Relays fs part) {f : Frame} {n : Nat} (hr : b.receiver = .reads)
    (hd : Frame.decode b.toCaller = .ok (some (f, n))) (r : Receiver)
    (hhand : ∀ o, r.hand o = f.on o)
    (hk : Keeps b { b with toCaller := b.toCaller.drop n, receiver := r }) :
    ∃ gs, fs = f :: gs ∧
      Relays { b with toCaller := b.toCaller.drop n, receiver := r } gs part := by
  obtain ⟨gs, rfl, hrest⟩ := h.wire.read Frame.splits.toSplits hd
  refine ⟨gs, rfl, hrest, h.part, fun o => ?_, fun before code after heq => ?_, fun code hc => ?_⟩
  · have hbytes := h.bytes o
    rw [onWay_cons, List.flatMap_cons, hr, List.append_assoc] at hbytes
    show b.shown.get o ++ (r.hand o ++ _) = _
    rw [hhand]
    exact hbytes
  · exact h.last (f :: before) code after (by rw [onWay_cons, List.cons_append, ← heq]; rfl)
  · exact hk.isSealed (h.exit code (by rw [onWay_cons]; exact List.mem_cons_of_mem f hc))

theorem Relays.shows (h : b.Relays fs part) {o : Outlet} {left : List UInt8} {n : Nat}
    (hr : b.receiver = .writes o left)
    (hk : Keeps b { b with
      shown := b.shown.set o (b.shown.get o ++ left.take n)
      receiver := if left.drop n = [] then .reads else .writes o (left.drop n) }) :
    Relays { b with
      shown := b.shown.set o (b.shown.get o ++ left.take n)
      receiver := if left.drop n = [] then .reads else .writes o (left.drop n) } fs part := by
  refine ⟨h.wire, h.part, fun o' => ?_, h.last, fun code hc => hk.isSealed (h.exit code hc)⟩
  have hbytes := h.bytes o'
  rw [hr] at hbytes
  have hhand : ∀ o', (if left.drop n = [] then Receiver.reads else .writes o (left.drop n)).hand o' =
      if o = o' then left.drop n else [] := by
    intro o'
    split_ifs with hn <;> simp_all [Receiver.hand]
  show (b.shown.set o _).get o' ++ (Receiver.hand o' _ ++ _) = _
  rw [hhand]
  by_cases ho : o' = o
  · subst ho
    simp only [Receiver.hand, if_true] at hbytes
    rw [Outlets.get_set_same, if_pos rfl, List.append_assoc, ← List.append_assoc (left.take n),
      List.take_append_drop]
    exact hbytes
  · simp only [Receiver.hand, if_neg (Ne.symm ho)] at hbytes
    rw [get_set_of_ne ho, if_neg (Ne.symm ho)]
    exact hbytes

/-- A call that ended with an exit code has shown everything. -/
structure Complete (b : Bridge) (code : Int32) : Prop where
  shown : ∀ o, b.shown.get o = (b.outs.get o).read
  spent : ∀ o, (b.outs.get o).Spent
  ended : b.EndedWith code
  finished : b.bridging.sending = false
  logged : b.logged = some (code, (b.shown.get .out).length + (b.shown.get .err).length)

/-- What holds throughout a session. -/
structure Sound (b : Bridge) : Prop where
  relays : (∀ code, b.receiver ≠ .ended code) → ∃ fs part, b.Relays fs part
  done : ∀ o sent, b.pumps.get o = .done sent → (b.outs.get o).Spent
  /-- A pump gives up on a writer that failed. -/
  gaveUp : ∀ o sent chunk, b.pumps.get o = .gaveUp sent chunk → ∃ f, b.writer = .failed f
  closed : b.writer = .closed → ∀ o, (b.pumps.get o).sending = false
  sent : ∀ o, (b.pumps.get o).sent + (b.pumps.get o).hand.length = (b.outs.get o).read.length
  stage : b.Stage b.bridging
  complete : ∀ code, b.receiver = .ended (some code) → b.Complete code

theorem sound_start : Sound start where
  relays _ := by
    refine ⟨[], [], carries_nil Frame.splits.toSplits, rfl, fun o => ?_, ?_, ?_⟩
    · cases o <;> rfl
    · intro before code after h
      exact absurd h.symm (List.append_ne_nil_of_right_ne_nil _ (List.cons_ne_nil _ _))
    · intro code h
      cases h
  done o sent h := by cases o <;> cases h
  gaveUp o sent chunk h := by cases o <;> cases h
  closed h := by cases h
  sent o := by cases o <;> rfl
  stage := trivial
  complete code h := by cases h

/-- While the writer takes frames, a pump that came to a number saw its output end. -/
theorem Sound.done_of_taking (h : b.Sound) (hw : b.writer.taking = true) (o : Outlet) (n : Nat)
    (hr : (b.pumps.get o).result = some (.ok n)) : b.pumps.get o = .done n := by
  cases hp : b.pumps.get o with
  | done sent =>
    rw [hp] at hr
    cases hr
    rfl
  | gaveUp sent chunk =>
    obtain ⟨f, hf⟩ := h.gaveUp o sent chunk hp
    rw [hf] at hw
    cases hw
  | reads sent => rw [hp] at hr; cases hr
  | sends sent chunk => rw [hp] at hr; cases hr
  | failed sent => rw [hp] at hr; cases hr

theorem Goes.relays (h : Goes b t) (hs : b.Sound) (hr : ∀ code, t.receiver ≠ .ended code) :
    ∃ fs part, t.Relays fs part := by
  have hk := h.keeps
  obtain ⟨fs, part, hrel⟩ := hs.relays fun code hc => hr code (hk.ended code hc).1
  have hpart := hrel.part
  cases h with
  | prints =>
    refine ⟨fs, part, hrel.other hk rfl rfl rfl rfl rfl (fun _ => rfl) fun o' => ?_⟩
    rw [Outlets.get_set]
    split_ifs with ho <;> simp [ho]
  | closes o =>
    refine ⟨fs, part, hrel.other hk rfl rfl rfl rfl rfl (fun _ => rfl) fun o' => ?_⟩
    rw [Outlets.get_set]
    split_ifs with ho <;> simp [ho, Pipe.close]
  | pumpReads h => exact ⟨fs, part, hrel.pumpReads h hk⟩
  | pumpEnds h | pumpFails h | pumpGivesUp h =>
    refine ⟨fs, part, hrel.other hk rfl rfl rfl rfl rfl (fun o' => ?_) fun _ => rfl⟩
    rw [Outlets.get_set]
    split_ifs with ho <;> simp [ho, h, Pump.hand]
  | pumpSends h => exact ⟨fs, part, hrel.pumpSends h hk⟩
  | takes h hc he =>
    rw [h] at hpart
    obtain rfl := hpart
    exact ⟨fs, [], hrel.moved hk hrel.wire he (by rw [onWay, onWay, h, hc]; rfl) rfl rfl rfl rfl⟩
  | takesBad h hc =>
    exact ⟨fs, part, hrel.moved hk hrel.wire trivial (by rw [onWay, onWay, h, hc]; rfl) rfl rfl rfl rfl⟩
  | shuts h =>
    rw [h] at hpart
    exact ⟨fs, part, hrel.moved hk hrel.wire hpart (by rw [onWay, onWay, h]; rfl) rfl rfl rfl rfl⟩
  | @writesSome f left n h hn =>
    rw [h] at hpart
    have henc : f.encode = .ok ((part ++ left.take n) ++ left.drop n) := by
      rw [List.append_assoc, List.take_append_drop]
      exact hpart
    exact ⟨fs, _, hrel.moved hk (hrel.wire.write_some Frame.codec hpart hn) henc
      (by rw [onWay, onWay, h]; rfl) rfl rfl rfl rfl⟩
  | @writesRest f left n h hn =>
    rw [h] at hpart
    refine ⟨fs ++ [f], [], hrel.moved hk (hrel.wire.write_rest Frame.codec hpart hn) rfl ?_
      rfl rfl rfl rfl⟩
    rw [onWay, onWay, h, List.append_assoc]
    rfl
  | writerFails h =>
    exact ⟨fs, part, hrel.moved hk hrel.wire trivial (by rw [onWay, onWay, h]; rfl) rfl rfl rfl rfl⟩
  | sendsExit h hw =>
    exact ⟨fs, part, hrel.sendsExit h hs.stage (hs.done_of_taking hw) hk⟩
  | receives h hd hf =>
    obtain ⟨gs, -, hgs⟩ := hrel.takes h hd (.writes _ _) (fun o => (Frame.on_of_some hf o).symm) hk
    exact ⟨gs, part, hgs⟩
  | @receivesOther f n h hd hf =>
    have heq : { b with toCaller := b.toCaller.drop n } =
        { b with toCaller := b.toCaller.drop n, receiver := .reads } := by rw [← h]
    rw [heq] at hk ⊢
    obtain ⟨gs, -, hgs⟩ := hrel.takes h hd .reads (fun o => (Frame.on_of_none hf o).symm) hk
    exact ⟨gs, part, hgs⟩
  | receivesExit => exact absurd rfl (hr _)
  | receivesEnd => exact absurd rfl (hr _)
  | receiverFails => exact absurd rfl (hr _)
  | shows h => exact ⟨fs, part, hrel.shows h hk⟩
  | _ => exact ⟨fs, part, hrel.other hk rfl rfl rfl rfl rfl (fun _ => rfl) fun _ => rfl⟩

/-- The exit frame is read when nothing else is on its way. -/
theorem Sound.complete_exit (hs : b.Sound) {code : Int32} {n : Nat} (hr : b.receiver = .reads)
    (hd : Frame.decode b.toCaller = .ok (some (.exit code, n))) : b.Complete code := by
  obtain ⟨fs, part, hrel⟩ := hs.relays fun code hc => by rw [hr] at hc; cases hc
  obtain ⟨gs, rfl, -⟩ := hrel.wire.read Frame.splits.toSplits hd
  have hrest : b.onWay gs = [] := hrel.last [] code _ (onWay_cons _ gs)
  have hsealed := hrel.exit code (by rw [onWay_cons]; exact List.mem_cons_self)
  have hshown : ∀ o, b.shown.get o = (b.outs.get o).read := fun o => by
    obtain ⟨sent, hdone⟩ := hsealed.pumps o
    have hbytes := hrel.bytes o
    rw [onWay_cons, hrest, hr, hdone] at hbytes
    simpa [Receiver.hand, Pump.hand] using hbytes
  have hsent : ∀ o, (b.pumps.get o).sent = (b.shown.get o).length := fun o => by
    obtain ⟨sent, hdone⟩ := hsealed.pumps o
    have := hs.sent o
    rw [hdone] at this ⊢
    rw [hshown, ← this]
    rfl
  refine ⟨hshown, fun o => ?_, hsealed.ended, hsealed.finished, ?_⟩
  · obtain ⟨sent, hdone⟩ := hsealed.pumps o
    exact hs.done o sent hdone
  · rw [hsealed.logged, hsent, hsent]

/-- What is over stays as it is. -/
theorem Complete.keeps {code : Int32} (h : b.Complete code) (hk : Keeps b t)
    (hr : b.receiver = .ended (some code)) : t.Complete code := by
  have hshown := (hk.ended _ hr).2
  have houts := fun o => hk.spent o (h.spent o)
  obtain ⟨hover, hlog⟩ := hk.finished h.finished
  refine ⟨fun o => ?_, fun o => ?_, hk.endedWith h.ended, hover, ?_⟩
  · rw [hshown, houts, h.shown]
  · rw [houts]
    exact h.spent o
  · rw [hlog, hshown, h.logged]

/-- The end of an output is seen by its pump. -/
theorem Goes.done (h : Goes b t) (hs : b.Sound) (o : Outlet) (sent : Nat)
    (hd : t.pumps.get o = .done sent) : (t.outs.get o).Spent := by
  have hk := h.keeps
  have hold : b.pumps.get o = .done sent → (t.outs.get o).Spent := fun hb => by
    rw [hk.spent o (hs.done o sent hb)]
    exact hs.done o sent hb
  cases h with
  | pumpEnds h hspent =>
    rw [Outlets.get_set] at hd
    split_ifs at hd with ho
    · subst ho
      exact hspent
    · exact hold hd
  | pumpReads | pumpFails | pumpSends | pumpGivesUp =>
    rw [Outlets.get_set] at hd
    split_ifs at hd
    exact hold hd
  | _ => exact hold hd

theorem Goes.gaveUp (h : Goes b t) (hs : b.Sound) (o : Outlet) (sent : Nat) (chunk : List UInt8)
    (hg : t.pumps.get o = .gaveUp sent chunk) : ∃ f, t.writer = .failed f := by
  have hold : b.pumps.get o = .gaveUp sent chunk → ∃ f, t.writer = .failed f := fun hb => by
    obtain ⟨f, hf⟩ := hs.gaveUp o sent chunk hb
    exact ⟨f, h.keeps.failed f hf⟩
  cases h with
  | @pumpGivesUp o' sent' chunk' h hw =>
    rcases Writer.taking_eq_false.mp hw with hc | hf
    · have hsend := hs.closed hc o'
      rw [h] at hsend
      cases hsend
    · exact hf
  | pumpEnds | pumpReads | pumpFails | pumpSends =>
    rw [Outlets.get_set] at hg
    split_ifs at hg
    exact hold hg
  | _ => exact hold hg

/-- The writer ends when no pump can send, and none can again. -/
theorem Goes.closed (h : Goes b t) (hs : b.Sound) (hc : t.writer = .closed) (o : Outlet) :
    (t.pumps.get o).sending = false := by
  have hk := h.keeps
  have hold : (b.pumps.get o).sending = false → (t.pumps.get o).sending = false := fun hb => by
    obtain ⟨r, hr⟩ := Pump.sending_eq_false.mp hb
    rw [hk.result o r hr]
    exact hb
  cases h with
  | shuts _ _ hp => exact hp o
  | takes | takesBad | writesSome | writesRest | writerFails => cases hc
  | _ => exact hold (hs.closed hc o)

theorem Goes.sent (h : Goes b t) (hs : b.Sound) (o : Outlet) :
    (t.pumps.get o).sent + (t.pumps.get o).hand.length = (t.outs.get o).read.length := by
  have hold := hs.sent o
  cases h with
  | prints | closes =>
    rw [Outlets.get_set]
    split_ifs with ho
    · subst ho
      exact hold
    · exact hold
  | pumpReads h =>
    simp only [Outlets.get_set]
    split_ifs with ho
    · subst ho
      rw [h] at hold
      simp only [Pump.sent, Pump.hand, List.length_append, List.length_nil] at hold ⊢
      omega
    · exact hold
  | pumpEnds h | pumpFails h | pumpGivesUp h =>
    rw [Outlets.get_set]
    split_ifs with ho
    · subst ho
      rw [h] at hold
      exact hold
    · exact hold
  | pumpSends h =>
    rw [Outlets.get_set]
    split_ifs with ho
    · subst ho
      rw [h] at hold
      exact hold
    · exact hold
  | _ => exact hold

theorem Goes.complete (h : Goes b t) (hs : b.Sound) (code : Int32)
    (hr : t.receiver = .ended (some code)) : t.Complete code := by
  have hk := h.keeps
  have hold : b.receiver = .ended (some code) → t.Complete code := fun hb =>
    (hs.complete code hb).keeps hk hb
  cases h with
  | receivesExit h hd =>
    cases hr
    have hc := hs.complete_exit h hd
    exact ⟨hc.shown, hc.spent, hc.ended, hc.finished, hc.logged⟩
  | receives | receivesEnd | receiverFails => cases hr
  | shows =>
    dsimp only at hr
    split_ifs at hr
  | _ => exact hold hr

theorem Sound.step (hs : b.Sound) {e : BridgeEvent} (h : b.step e = some t) : t.Sound :=
  have hg := goes_of_step h
  ⟨hg.relays hs, hg.done hs, hg.gaveUp hs, hg.closed hs, hg.sent hs, hg.stage hs.stage,
    hg.complete hs⟩

end Bridge

end Wires
