import Wires.Framework.Machine

/-!
# Reading a byte stream

A `Stream` is the bytes a peer is still to send, how many of them each read
gets, and how they end. `fill` reads until there is no more room or nothing
more comes; `readExact` and `readToEnd` are the two ways it is used. What they
come to depends on the bytes alone, not on how they are cut (`readExact_eq`,
`readToEnd_eq`).
-/

namespace Wires

/-- How a stream ends: cleanly, or with an error. -/
inductive Ending where
  | eof
  | failed (why : String)
deriving DecidableEq

/-- Bytes to come. Each read gets at least one while there are any: `sizes` says how many more the
next ones get at most, as far as it goes. -/
structure Stream where
  bytes : List UInt8
  sizes : List Nat
  ends : Ending
deriving DecidableEq

/-- Why a read failed. -/
inductive ReadError where
  | unexpectedEof
  | other (why : String)
deriving DecidableEq

/-- The error of a read that wanted more than there was. -/
def Ending.short : Ending → ReadError
  | .eof => .unexpectedEof
  | .failed why => .other why

namespace Stream

/-- One read with room for `room` bytes: no bytes at the end. -/
def poll (s : Stream) (room : Nat) : Except ReadError (List UInt8) × Stream :=
  if s.bytes = [] then
    match s.ends with
    | .eof => (.ok [], s)
    | .failed why => (.error (.other why), s)
  else
    let n := match s.sizes with
      | [] => room
      | k :: _ => min room (k + 1)
    (.ok (s.bytes.take n), { s with bytes := s.bytes.drop n, sizes := s.sizes.tail })

/-- Read until `room` bytes came or nothing more does, in at most `fuel` reads. -/
def fillIn : Nat → Nat → Stream → Except ReadError (List UInt8) × Stream
  | 0, _, s => (.ok [], s)
  | fuel + 1, room, s =>
    if room = 0 then (.ok [], s)
    else
      match s.poll room with
      | (.error e, s) => (.error e, s)
      | (.ok [], s) => (.ok [], s)
      | (.ok (b :: bs), s) =>
        let (more, s) := fillIn fuel (room - (bs.length + 1)) s
        (more.map fun more => b :: bs ++ more, s)

/-- Each read gets a byte, so there are no more reads than bytes. -/
def fill (s : Stream) (room : Nat) : Except ReadError (List UInt8) × Stream := fillIn room room s

/-- `read_exact`. -/
def readExact (s : Stream) (n : Nat) : Except ReadError (List UInt8) × Stream :=
  match s.fill n with
  | (.error e, s) => (.error e, s)
  | (.ok bs, s) => if bs.length < n then (.error .unexpectedEof, s) else (.ok bs, s)

/-- `take(n).read_to_end`. -/
def readToEnd (s : Stream) (n : Nat) : Except ReadError (List UInt8) × Stream := s.fill n

/-- What is read with room for `room` bytes. -/
def filled (s : Stream) (room : Nat) : Except ReadError (List UInt8) :=
  if room ≤ s.bytes.length then .ok (s.bytes.take room)
  else
    match s.ends with
    | .eof => .ok s.bytes
    | .failed why => .error (.other why)

/-! ## What they come to -/

/-- A read gets at least one byte, and no more than there is room for. -/
theorem poll_of_ne_nil {s : Stream} {room : Nat} (hb : s.bytes ≠ []) (hr : room ≠ 0) :
    ∃ n sizes, 0 < n ∧ n ≤ room ∧
      s.poll room = (.ok (s.bytes.take n), ⟨s.bytes.drop n, sizes, s.ends⟩) := by
  unfold poll
  rw [if_neg hb]
  cases s.sizes with
  | nil => exact ⟨room, [], by omega, le_rfl, rfl⟩
  | cons k ks => exact ⟨min room (k + 1), ks, by omega, by omega, rfl⟩

/-- What a read got, and what is read with the room left. -/
theorem map_filled_drop (s : Stream) (sizes : List Nat) {n room : Nat} (hn : n ≤ room) :
    ((⟨s.bytes.drop n, sizes, s.ends⟩ : Stream).filled (room - min n s.bytes.length)).map
      (fun more => s.bytes.take n ++ more) = s.filled room := by
  unfold filled
  simp only [List.length_drop]
  by_cases hroom : room ≤ s.bytes.length
  · have hadd : n + (room - n) = room := by omega
    rw [if_pos hroom, if_pos (by omega), Nat.min_eq_left (by omega)]
    show Except.ok (s.bytes.take n ++ (s.bytes.drop n).take (room - n)) = _
    rw [← List.take_add, hadd]
  · rw [if_neg hroom, if_neg (by omega)]
    cases s.ends with
    | eof =>
      show Except.ok (s.bytes.take n ++ s.bytes.drop n) = .ok s.bytes
      rw [List.take_append_drop]
    | failed why => rfl

theorem fillIn_eq {fuel room : Nat} {s : Stream} (h : room ≤ fuel) :
    ∃ sizes, fillIn fuel room s = (s.filled room, ⟨s.bytes.drop room, sizes, s.ends⟩) := by
  induction fuel generalizing room s with
  | zero =>
    obtain rfl : room = 0 := Nat.le_zero.mp h
    exact ⟨s.sizes, by simp [fillIn, filled]⟩
  | succ fuel ih =>
    rw [fillIn]
    by_cases hr : room = 0
    · subst hr
      exact ⟨s.sizes, by simp [filled]⟩
    rw [if_neg hr]
    by_cases hb : s.bytes = []
    · obtain ⟨bytes, sizes, ends⟩ := s
      obtain rfl : bytes = [] := hb
      refine ⟨sizes, ?_⟩
      cases ends with
      | eof => simp [poll, filled, hr]
      | failed why => simp [poll, filled, hr]
    · obtain ⟨n, sizes, hn, hle, hp⟩ := poll_of_ne_nil hb hr
      have hlen : (s.bytes.take n).length = min n s.bytes.length := List.length_take
      cases hbs : s.bytes.take n with
      | nil =>
        rcases List.take_eq_nil_iff.mp hbs with h0 | h0
        · omega
        · exact absurd h0 hb
      | cons b bs =>
        rw [hbs, List.length_cons] at hlen
        obtain ⟨sizes', hrec⟩ := @ih (room - (bs.length + 1))
          ⟨s.bytes.drop n, sizes, s.ends⟩ (by omega)
        have hdrop : (s.bytes.drop n).drop (room - (bs.length + 1)) = s.bytes.drop room := by
          rw [List.drop_drop]
          rcases Nat.le_total n s.bytes.length with hc | hc
          · rw [show n + (room - (bs.length + 1)) = room by omega]
          · rw [List.drop_eq_nil_of_le (by omega), List.drop_eq_nil_of_le (by omega)]
        refine ⟨sizes', ?_⟩
        rw [hp, hbs]
        simp only [hrec, hdrop]
        rw [← map_filled_drop s sizes hle, ← hlen, hbs]

theorem readToEnd_eq (s : Stream) (n : Nat) :
    ∃ sizes, s.readToEnd n = (s.filled n, ⟨s.bytes.drop n, sizes, s.ends⟩) := fillIn_eq le_rfl

theorem readExact_eq (s : Stream) (n : Nat) : ∃ sizes, s.readExact n =
    (if n ≤ s.bytes.length then .ok (s.bytes.take n) else .error s.ends.short,
      ⟨s.bytes.drop n, sizes, s.ends⟩) := by
  obtain ⟨sizes, h⟩ : ∃ sizes, s.fill n = (s.filled n, ⟨s.bytes.drop n, sizes, s.ends⟩) :=
    fillIn_eq le_rfl
  refine ⟨sizes, ?_⟩
  rw [readExact, h, filled]
  by_cases hn : n ≤ s.bytes.length
  · have hlen : ¬(s.bytes.take n).length < n := by
      rw [List.length_take]
      omega
    simp only [if_pos hn, if_neg hlen]
  · have hlen : s.bytes.length < n := by omega
    simp only [if_neg hn]
    cases s.ends with
    | eof => simp only [if_pos hlen, Ending.short]
    | failed why => rfl

end Stream

end Wires
