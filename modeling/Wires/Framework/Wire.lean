import Wires.Framework.Framing

/-!
# Frames on a wire

Bytes between a task that writes frames, a piece at a time, and one that reads
them. `Carries` says which whole frames the bytes hold and what there is of the
next. A written piece adds to that (`Carries.write_some`) or makes it a frame
(`Carries.write_rest`), and a read takes the first frame (`Carries.read`), so
the frames come out in the order they went in.
-/

namespace Wires

variable {F ε : Type} {encode : F → Except ε (List UInt8)} {decode : Decoder F ε}
  {wire part left : List UInt8} {fs : List F} {f : F} {n : Nat}

/-- A frame is read from its encoding, and nothing from a part of that. -/
structure Codec (encode : F → Except ε (List UInt8)) (decode : Decoder F ε) : Prop
    extends Splits decode where
  whole : ∀ {f bs}, encode f = .ok bs → decode bs = .ok (some (f, bs.length))
  part : ∀ {f bs p}, encode f = .ok bs → p <+: bs → p ≠ bs → decode p = .ok none

/-- Bytes that hold the frames `fs` and `part` of another. -/
def Carries (decode : Decoder F ε) (wire : List UInt8) (fs : List F) (part : List UInt8) : Prop :=
  drain decode wire = (fs, .ok part)

theorem carries_nil (h : Splits decode) : Carries decode [] [] [] := drain_of_none h h.nil

/-- A piece of a frame that does not end it. -/
theorem Carries.write_some (hc : Carries decode wire fs part) (h : Codec encode decode)
    (he : encode f = .ok (part ++ left)) (hn : left.drop n ≠ []) :
    Carries decode (wire ++ left.take n) fs (part ++ left.take n) := by
  have hnone : decode (part ++ left.take n) = .ok none := by
    refine h.part he ((List.prefix_append_right_inj part).mpr (List.take_prefix n left)) fun heq => ?_
    have hall : left.take n = left := List.append_cancel_left heq
    have hlen := congrArg List.length hall
    rw [List.length_take] at hlen
    exact hn (List.drop_eq_nil_of_le (by omega))
  show drain decode (wire ++ left.take n) = _
  rw [drain_append h.toSplits, hc]
  show (drain decode (part ++ left.take n)).after fs = _
  rw [drain_of_none h.toSplits hnone]
  show (fs ++ [], _) = _
  rw [List.append_nil]

/-- The last piece of a frame. -/
theorem Carries.write_rest (hc : Carries decode wire fs part) (h : Codec encode decode)
    (he : encode f = .ok (part ++ left)) (hn : left.drop n = []) :
    Carries decode (wire ++ left.take n) (fs ++ [f]) [] := by
  have hall : left.take n = left := by
    have := List.take_append_drop n left
    rwa [hn, List.append_nil] at this
  show drain decode (wire ++ left.take n) = _
  rw [drain_append h.toSplits, hc, hall]
  show (drain decode (part ++ left)).after fs = _
  rw [drain_of_frame h.toSplits (h.whole he), List.drop_length, drain_of_none h.toSplits h.nil]
  rfl

/-- The first frame is the one read. -/
theorem Carries.read (hc : Carries decode wire fs part) (h : Splits decode)
    (hd : decode wire = .ok (some (f, n))) :
    ∃ gs, fs = f :: gs ∧ Carries decode (wire.drop n) gs part := by
  have hdrain := drain_of_frame h hd
  rw [show drain decode wire = (fs, .ok part) from hc] at hdrain
  cases hrest : drain decode (wire.drop n) with
  | mk gs rest =>
    rw [hrest] at hdrain
    cases hdrain
    exact ⟨gs, rfl, hrest⟩

end Wires
