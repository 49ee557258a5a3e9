import Mathlib.Algebra.Group.Nat.Defs
import Wires.Framework.Machine

/-!
# Length-prefixed frames

A frame is a body behind its length in four big-endian bytes. `splitFrame`
takes the first whole frame off a buffer: it inverts `lengthPrefixed`
(`splitFrame_append`), takes nothing off a part of a frame
(`splitFrame_of_prefix`), and takes off nothing else (`splitFrame_eq_some`).

A decoder that `Splits` buffers is one whose answers more bytes do not change.
Draining a stream fed to it in chunks gives what draining the whole stream
gives, however the stream is cut (`feed_chunks`).
-/

namespace Wires

/-! ## The prefix -/

/-- Four big-endian bytes. -/
def be32 (n : Nat) : List UInt8 :=
  [UInt8.ofNat (n / 2 ^ 24), UInt8.ofNat (n / 2 ^ 16), UInt8.ofNat (n / 2 ^ 8), UInt8.ofNat n]

/-- The number four big-endian bytes say. -/
def ofBe32 (a b c d : UInt8) : Nat :=
  a.toNat * 2 ^ 24 + b.toNat * 2 ^ 16 + c.toNat * 2 ^ 8 + d.toNat

@[simp] theorem length_be32 (n : Nat) : (be32 n).length = 4 := rfl

theorem ofBe32_lt (a b c d : UInt8) : ofBe32 a b c d < 2 ^ 32 := by
  have := a.toNat_lt
  have := b.toNat_lt
  have := c.toNat_lt
  have := d.toNat_lt
  unfold ofBe32
  omega

theorem ofBe32_ofNat {n : Nat} (h : n < 2 ^ 32) :
    ofBe32 (UInt8.ofNat (n / 2 ^ 24)) (UInt8.ofNat (n / 2 ^ 16)) (UInt8.ofNat (n / 2 ^ 8))
      (UInt8.ofNat n) = n := by
  simp only [ofBe32, UInt8.toNat_ofNat']
  omega

/-- The four bytes a number is read from are the number's. -/
theorem be32_ofBe32 (a b c d : UInt8) : be32 (ofBe32 a b c d) = [a, b, c, d] := by
  have ha := a.toNat_lt
  have hb := b.toNat_lt
  have hc := c.toNat_lt
  have hd := d.toNat_lt
  simp only [be32, ofBe32, List.cons.injEq, and_true, ← UInt8.toNat_inj, UInt8.toNat_ofNat']
  omega

/-! ## Frames -/

/-- The body behind its length; none for a body longer than four bytes can say. -/
def lengthPrefixed (body : List UInt8) : Option (List UInt8) :=
  if body.length < 2 ^ 32 then some (be32 body.length ++ body) else none

/-- The body length the prefix at the start of a buffer announces, once its four bytes are
there. -/
def prefixLen : List UInt8 → Option Nat
  | a :: b :: c :: d :: _ => some (ofBe32 a b c d)
  | _ => none

/-- The body of the first whole frame, and how many bytes the frame takes. -/
def splitFrame (buf : List UInt8) : Option (List UInt8 × Nat) := do
  let len ← prefixLen buf
  if 4 + len ≤ buf.length then some ((buf.drop 4).take len, 4 + len) else none

theorem lengthPrefixed_eq_some {body out : List UInt8} : lengthPrefixed body = some out ↔
    body.length < 2 ^ 32 ∧ out = be32 body.length ++ body := by
  simp [lengthPrefixed, eq_comm]

theorem prefixLen_eq_none {buf : List UInt8} : prefixLen buf = none ↔ buf.length < 4 := by
  rcases buf with _ | ⟨a, _ | ⟨b, _ | ⟨c, _ | ⟨d, r⟩⟩⟩⟩ <;> simp [prefixLen]

theorem four_le_of_prefixLen {buf : List UInt8} {n : Nat} (h : prefixLen buf = some n) :
    4 ≤ buf.length := by
  rw [← not_lt, ← prefixLen_eq_none, h]
  simp

theorem prefixLen_append {buf : List UInt8} {n : Nat} (h : prefixLen buf = some n)
    (rest : List UInt8) : prefixLen (buf ++ rest) = some n := by
  rcases buf with _ | ⟨a, _ | ⟨b, _ | ⟨c, _ | ⟨d, r⟩⟩⟩⟩ <;> simp_all [prefixLen]

theorem prefixLen_lt {buf : List UInt8} {n : Nat} (h : prefixLen buf = some n) : n < 2 ^ 32 := by
  rcases buf with _ | ⟨a, _ | ⟨b, _ | ⟨c, _ | ⟨d, r⟩⟩⟩⟩
  all_goals simp only [prefixLen, Option.some.injEq, reduceCtorEq] at h
  rw [← h]
  exact ofBe32_lt a b c d

/-- A buffer that announces a length starts with that length's bytes. -/
theorem eq_be32_append {buf : List UInt8} {n : Nat} (h : prefixLen buf = some n) :
    buf = be32 n ++ buf.drop 4 := by
  rcases buf with _ | ⟨a, _ | ⟨b, _ | ⟨c, _ | ⟨d, r⟩⟩⟩⟩
  all_goals simp only [prefixLen, Option.some.injEq, reduceCtorEq] at h
  rw [← h, be32_ofBe32]
  rfl

@[simp] theorem prefixLen_be32 {n : Nat} (h : n < 2 ^ 32) (rest : List UInt8) :
    prefixLen (be32 n ++ rest) = some n := by
  show some (ofBe32 _ _ _ _) = some n
  rw [ofBe32_ofNat h]

/-- The first frame of a buffer that starts with one. -/
theorem splitFrame_append {body out : List UInt8} (h : lengthPrefixed body = some out)
    (rest : List UInt8) : splitFrame (out ++ rest) = some (body, out.length) := by
  obtain ⟨hlt, rfl⟩ := lengthPrefixed_eq_some.mp h
  rw [splitFrame, List.append_assoc, prefixLen_be32 hlt, Option.bind_eq_bind, Option.bind_some,
    if_pos (by simp), List.drop_left' (length_be32 _), List.take_left' rfl]
  simp

/-- A part of a frame is no frame. -/
theorem splitFrame_of_prefix {body out p : List UInt8} (h : lengthPrefixed body = some out)
    (hp : p <+: out) (hne : p ≠ out) : splitFrame p = none := by
  obtain ⟨hlt, rfl⟩ := lengthPrefixed_eq_some.mp h
  have hlen : p.length < 4 + body.length := by
    have hle := hp.length_le
    have : p.length ≠ (be32 body.length ++ body).length := fun he => hne (hp.eq_of_length he)
    simp only [List.length_append, length_be32] at hle this
    omega
  rw [splitFrame]
  cases hn : prefixLen p with
  | none => rfl
  | some n =>
    obtain ⟨t, ht⟩ := hp
    have hbody : prefixLen (be32 body.length ++ body) = some n := ht ▸ prefixLen_append hn t
    rw [prefixLen_be32 hlt, Option.some.injEq] at hbody
    rw [Option.bind_eq_bind, Option.bind_some, if_neg (by omega)]

/-- A frame that is taken off stands at the start of the buffer. -/
theorem splitFrame_eq_some {buf body : List UInt8} {n : Nat} (h : splitFrame buf = some (body, n)) :
    body.length < 2 ^ 32 ∧ n = 4 + body.length ∧ buf.take n = be32 body.length ++ body ∧
      n ≤ buf.length := by
  obtain ⟨len, hlen, h⟩ := Option.bind_eq_some_iff.mp h
  split_ifs at h with hle
  simp only [Option.some.injEq, Prod.mk.injEq] at h
  obtain ⟨rfl, rfl⟩ := h
  have hbuf := eq_be32_append hlen
  have hbody : ((buf.drop 4).take len).length = len := by
    rw [List.length_take, List.length_drop]
    omega
  refine ⟨by rw [hbody]; exact prefixLen_lt hlen, by rw [hbody], ?_, hle⟩
  rw [hbody]
  conv_lhs => rw [hbuf, show 4 + len = (be32 len).length + len from rfl, List.take_length_add_append]

/-- Nothing is taken off while the announced bytes are not all there. -/
theorem splitFrame_eq_none {buf : List UInt8} : splitFrame buf = none ↔
    ∀ len, prefixLen buf = some len → buf.length < 4 + len := by
  rw [splitFrame]
  cases prefixLen buf with
  | none => simp
  | some len => simp

/-- More bytes change no frame that is there. -/
theorem splitFrame_append_of_some {buf : List UInt8} {r : List UInt8 × Nat}
    (h : splitFrame buf = some r) (rest : List UInt8) : splitFrame (buf ++ rest) = some r := by
  obtain ⟨body, n⟩ := r
  obtain ⟨hlt, hn, htake, hle⟩ := splitFrame_eq_some h
  have hout : lengthPrefixed body = some (buf.take n) := lengthPrefixed_eq_some.mpr ⟨hlt, htake⟩
  have hlen : (buf.take n).length = n := by
    rw [List.length_take]
    omega
  have := splitFrame_append hout (buf.drop n ++ rest)
  rwa [← List.append_assoc, List.take_append_drop, hlen] at this

/-! ## Draining a stream -/

section

variable {F ε : Type}

/-- A decoder of the first frame of a buffer: none until a whole one is there. -/
abbrev Decoder (F ε : Type) := List UInt8 → Except ε (Option (F × Nat))

/-- What the decoder makes of a buffer does not change when more bytes come, and a frame it
takes off has bytes. -/
structure Splits (decode : Decoder F ε) : Prop where
  nil : decode [] = .ok none
  consumes : ∀ {buf f n}, decode buf = .ok (some (f, n)) → 0 < n ∧ n ≤ buf.length
  frame : ∀ {buf r}, decode buf = .ok (some r) → ∀ rest, decode (buf ++ rest) = .ok (some r)
  error : ∀ {buf e}, decode buf = .error e → ∀ rest, decode (buf ++ rest) = .error e

/-- A decoder of length-prefixed frames: it takes off a whole frame, and waits for one only while
there is none. -/
structure SplitsFrames (decode : Decoder F ε) : Prop extends Splits decode where
  whole : ∀ {buf f n}, decode buf = .ok (some (f, n)) → ∃ body, splitFrame buf = some (body, n)
  waits : ∀ {buf}, decode buf = .ok none → splitFrame buf = none

/-- The frames taken off, and what is left: the bytes of an unfinished frame, or an error. -/
abbrev Drained (F ε : Type) := List F × Except ε (List UInt8)

/-- Frames come before. -/
def Drained.after (fs : List F) (d : Drained F ε) : Drained F ε := (fs ++ d.1, d.2)

variable (decode : Decoder F ε)

/-- Take frames off a buffer until none is whole; at most `n`. -/
def drainUpTo : Nat → List UInt8 → Drained F ε
  | 0, buf => ([], .ok buf)
  | n + 1, buf =>
    match decode buf with
    | .error e => ([], .error e)
    | .ok none => ([], .ok buf)
    | .ok (some (f, k)) => (drainUpTo n (buf.drop k)).after [f]

/-- Take every whole frame off a buffer: each has a byte, so there are no more than bytes. -/
def drain (buf : List UInt8) : Drained F ε := drainUpTo decode buf.length buf

/-- A chunk arrives: it goes behind the bytes left, and the whole frames are taken off. -/
def feed (d : Drained F ε) (chunk : List UInt8) : Drained F ε :=
  match d.2 with
  | .error e => (d.1, .error e)
  | .ok pending => (drain decode (pending ++ chunk)).after d.1

variable {decode}

/-- What a buffer starts with is all that counts, once the announced bytes are there. -/
theorem SplitsFrames.decode_take (h : SplitsFrames decode) {buf : List UInt8} {len : Nat}
    (hlen : prefixLen buf = some len) (hle : 4 + len ≤ buf.length) :
    decode (buf.take (4 + len)) = decode buf := by
  have hfour : buf.take (4 + len) = be32 len ++ (buf.drop 4).take len := by
    conv_lhs => rw [eq_be32_append hlen, show 4 + len = (be32 len).length + len from rfl,
      List.take_length_add_append]
  have hsplit : splitFrame (buf.take (4 + len)) ≠ none := fun hnone => by
    have := splitFrame_eq_none.mp hnone len (by rw [hfour, prefixLen_be32 (prefixLen_lt hlen)])
    rw [List.length_take] at this
    omega
  have hbuf : buf = buf.take (4 + len) ++ buf.drop (4 + len) := (List.take_append_drop _ _).symm
  cases hd : decode (buf.take (4 + len)) with
  | error e => rw [hbuf, h.error hd]
  | ok o =>
    cases o with
    | none => exact absurd (h.waits hd) hsplit
    | some r => rw [hbuf, h.frame hd]

/-- A frame taken off takes its prefix and the announced bytes. -/
theorem SplitsFrames.announced (h : SplitsFrames decode) {buf : List UInt8} {f : F} {n : Nat}
    (hd : decode buf = .ok (some (f, n))) :
    ∃ len, prefixLen buf = some len ∧ n = 4 + len ∧ 4 + len ≤ buf.length := by
  obtain ⟨body, hs⟩ := h.whole hd
  obtain ⟨len, hlen, hs⟩ := Option.bind_eq_some_iff.mp hs
  split_ifs at hs with hle
  simp only [Option.some.injEq, Prod.mk.injEq] at hs
  exact ⟨len, hlen, hs.2.symm, hle⟩

theorem drainUpTo_eq (h : Splits decode) {n : Nat} {buf : List UInt8} (hn : buf.length ≤ n) :
    drainUpTo decode n buf = drain decode buf := by
  suffices ∀ m n, ∀ buf : List UInt8, buf.length ≤ m → buf.length ≤ n →
      drainUpTo decode n buf = drainUpTo decode m buf from this _ _ _ le_rfl hn
  intro m
  induction m with
  | zero =>
    intro n buf hm _
    obtain rfl : buf = [] := List.eq_nil_of_length_eq_zero (Nat.le_zero.mp hm)
    cases n with
    | zero => rfl
    | succ n => rw [drainUpTo, drainUpTo, h.nil]
  | succ m ih =>
    intro n buf hm hn
    cases n with
    | zero =>
      obtain rfl : buf = [] := List.eq_nil_of_length_eq_zero (Nat.le_zero.mp hn)
      rw [drainUpTo, drainUpTo, h.nil]
    | succ n =>
      rw [drainUpTo, drainUpTo]
      split
      · rfl
      · rfl
      · rename_i f k hd
        have hk := h.consumes hd
        rw [ih n (buf.drop k) (by rw [List.length_drop]; omega) (by rw [List.length_drop]; omega)]

theorem drain_of_none (h : Splits decode) {buf : List UInt8} (hd : decode buf = .ok none) :
    drain decode buf = ([], .ok buf) := by
  rw [← drainUpTo_eq h (Nat.le_succ _), drainUpTo, hd]

theorem drain_of_error (h : Splits decode) {buf : List UInt8} {e : ε} (hd : decode buf = .error e) :
    drain decode buf = ([], .error e) := by
  rw [← drainUpTo_eq h (Nat.le_succ _), drainUpTo, hd]

theorem drain_of_frame (h : Splits decode) {buf : List UInt8} {f : F} {k : Nat}
    (hd : decode buf = .ok (some (f, k))) :
    drain decode buf = (drain decode (buf.drop k)).after [f] := by
  have hk := h.consumes hd
  rw [← drainUpTo_eq h (Nat.le_succ _), drainUpTo, hd]
  show (drainUpTo decode buf.length (buf.drop k)).after [f] = _
  rw [drainUpTo_eq h (by rw [List.length_drop]; omega)]

/-- Draining a buffer, then what is left with more bytes behind it, is draining all of it. -/
theorem drain_append (h : Splits decode) (buf rest : List UInt8) :
    drain decode (buf ++ rest) = feed decode (drain decode buf) rest := by
  induction hn : buf.length using Nat.strong_induction_on generalizing buf with
  | _ n ih =>
    cases hd : decode buf with
    | error e =>
      rw [drain_of_error h hd, drain_of_error h (h.error hd rest)]
      rfl
    | ok o =>
      cases o with
      | none =>
        rw [drain_of_none h hd]
        rfl
      | some r =>
        obtain ⟨f, k⟩ := r
        have hk := h.consumes hd
        rw [drain_of_frame h hd, drain_of_frame h (h.frame hd rest),
          List.drop_append_of_le_length hk.2,
          ih _ (by rw [List.length_drop]; omega) (buf.drop k) rfl]
        unfold feed
        cases hdr : (drain decode (buf.drop k)).2 with
        | error e => simp [Drained.after, hdr]
        | ok pending => simp [Drained.after, hdr]

/-- However a stream is cut into chunks, its frames are those of the whole. -/
theorem feed_chunks (h : Splits decode) (chunks : List (List UInt8)) :
    chunks.foldl (feed decode) ([], .ok []) = drain decode chunks.flatten := by
  suffices ∀ buf : List UInt8, chunks.foldl (feed decode) (drain decode buf) =
      drain decode (buf ++ chunks.flatten) by
    have hnil := drain_of_none h h.nil
    rw [← hnil, this, List.nil_append]
  induction chunks with
  | nil =>
    intro buf
    rw [List.flatten_nil, List.append_nil]
    rfl
  | cons c cs ih =>
    intro buf
    rw [List.foldl_cons, List.flatten_cons, ← List.append_assoc, ← ih, drain_append h]

/-- The encodings of frames, one after the other, drain to the frames. -/
theorem drain_encodings (h : Splits decode) {encode : F → Except ε (List UInt8)}
    (hdec : ∀ {f bs}, encode f = .ok bs → decode bs = .ok (some (f, bs.length)))
    {fs : List F} {es : List (List UInt8)} (he : fs.mapM encode = .ok es) :
    drain decode es.flatten = (fs, .ok []) := by
  induction fs generalizing es with
  | nil =>
    cases he
    exact drain_of_none h h.nil
  | cons f fs ih =>
    rw [List.mapM_cons] at he
    cases hf : encode f with
    | error e => rw [hf] at he; cases he
    | ok bs =>
      cases hfs : fs.mapM encode with
      | error e => rw [hf, hfs] at he; cases he
      | ok es' =>
        rw [hf, hfs] at he
        cases he
        rw [List.flatten_cons, drain_of_frame h (h.frame (hdec hf) _), List.drop_left, ih hfs]
        rfl

end

end Wires
