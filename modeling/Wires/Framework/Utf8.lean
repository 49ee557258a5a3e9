import Wires.Framework.Bytes
import Wires.Framework.Prefix
import Wires.Framework.Text

/-!
# Cutting UTF-8

The bytes of a text, and where its characters begin: a byte that begins one is
no continuation byte (`utf8EncodeChar_cons`), so the boundaries of a text are
where its prefixes end (`isCharBoundary_utf8`), and the last at or before a
place is where the longest text that fits ends (`longest_truncateAt`).
`fromUtf8Lossy` reads any bytes, and those of a text as that text.
-/

namespace Wires

/-- A byte behind the first of a character: `10xxxxxx`. -/
def isContinuation (b : UInt8) : Bool := b &&& 0xC0 = 0x80

/-- `str::is_char_boundary`. -/
def isCharBoundary (bs : List UInt8) (i : Nat) : Bool :=
  i = 0 || match bs[i]? with
    | some b => !isContinuation b
    | none => i = bs.length

/-- `String::truncate`, which panics inside a character. -/
def truncate (cs : List Char) (n : Nat) : Option (List Char) :=
  if n ≤ (utf8 cs).length then
    if isCharBoundary (utf8 cs) n then utf8Decode ((utf8 cs).take n) else none
  else some cs

/-- Whether a character of three bytes or four begins with `b` and `c`. -/
def startsChar (b c : UInt8) : Bool :=
  (b = 0xE0 && 0xA0 ≤ c && c ≤ 0xBF) || (0xE1 ≤ b && b ≤ 0xEC && 0x80 ≤ c && c ≤ 0xBF) ||
    (b = 0xED && 0x80 ≤ c && c ≤ 0x9F) || (0xEE ≤ b && b ≤ 0xEF && 0x80 ≤ c && c ≤ 0xBF) ||
    (b = 0xF0 && 0x90 ≤ c && c ≤ 0xBF) || (0xF1 ≤ b && b ≤ 0xF3 && 0x80 ≤ c && c ≤ 0xBF) ||
    (b = 0xF4 && 0x80 ≤ c && c ≤ 0x8F)

/-- How many bytes go for one that is no character: as many as one could begin with. -/
def invalidLen : List UInt8 → Nat
  | b :: c :: bs =>
    if startsChar b c then if 0xF0 ≤ b && bs.head?.any isContinuation then 3 else 2
    else 1
  | _ => 1

/-- `fromUtf8Lossy`, of at most `n` characters. -/
def fromUtf8LossyGo : Nat → List UInt8 → List Char
  | 0, _ => []
  | _ + 1, [] => []
  | n + 1, b :: bs =>
    match (b :: bs).toByteArray.utf8DecodeChar? 0 with
    | some c => c :: fromUtf8LossyGo n ((b :: bs).drop c.utf8Size)
    | none => Char.ofNat 0xFFFD :: fromUtf8LossyGo n ((b :: bs).drop (invalidLen (b :: bs)))

/-- `String::from_utf8_lossy`: what is no character becomes U+FFFD. -/
def fromUtf8Lossy (bs : List UInt8) : List Char := fromUtf8LossyGo bs.length bs

/-! ## Bytes of a character -/

/-- What holds of all 256 bytes. -/
theorem forall_byte {p : UInt8 → Prop} (h : ∀ n < 256, p (UInt8.ofNat n)) (b : UInt8) : p b := by
  have hb := h b.toNat b.toNat_lt
  rwa [UInt8.ofNat_toNat] at hb

theorem isContinuation_or (x : UInt8) : isContinuation (x &&& 0x3f ||| 0x80) = true := by
  revert x
  apply forall_byte
  decide +kernel

theorem not_isContinuation (b : UInt8) : b.IsUTF8FirstByte → isContinuation b = false := by
  revert b
  apply forall_byte
  decide +kernel

/-- A character is a byte that begins it, and at most three that continue it. -/
theorem utf8EncodeChar_cons (c : Char) : ∃ b bs, String.utf8EncodeChar c = b :: bs ∧
    isContinuation b = false ∧ (∀ x ∈ bs, isContinuation x = true) ∧ bs.length ≤ 3 := by
  have hfirst : ∀ b bs, String.utf8EncodeChar c = b :: bs → isContinuation b = false := by
    intro b bs heq
    apply not_isContinuation
    have hzero := @UInt8.isUTF8FirstByte_getElem_zero_utf8EncodeChar c
    simpa only [heq, List.getElem_cons_zero] using hzero
  have hrest : ∀ x ∈ (String.utf8EncodeChar c).tail, isContinuation x = true := by
    rcases c.utf8Size_eq with hsize | hsize | hsize | hsize
    · rw [String.utf8EncodeChar_eq_singleton hsize]
      exact fun x hx => absurd hx List.not_mem_nil
    · rw [String.utf8EncodeChar_eq_cons_cons hsize]
      simp [isContinuation_or]
    · rw [String.utf8EncodeChar_eq_cons_cons_cons hsize]
      simp [isContinuation_or]
    · rw [String.utf8EncodeChar_eq_cons_cons_cons_cons hsize]
      simp [isContinuation_or]
  obtain ⟨b, bs, heq⟩ := List.exists_cons_of_ne_nil (@String.utf8EncodeChar_ne_nil c)
  refine ⟨b, bs, heq, hfirst b bs heq, fun x hx => hrest x (by rw [heq]; exact hx), ?_⟩
  have hlen := String.length_utf8EncodeChar c
  have hle := c.utf8Size_le_four
  rw [heq, List.length_cons] at hlen
  omega

/-! ## Boundaries -/

variable {c : Char} {cs ds : List Char} {n i : Nat}

theorem isCharBoundary_zero (bs : List UInt8) : isCharBoundary bs 0 = true := rfl

/-- A boundary behind the first is a byte that continues nothing, or the end. -/
theorem isCharBoundary_pos {bs : List UInt8} (h : 0 < i) : isCharBoundary bs i = true ↔
    (∃ b, bs[i]? = some b ∧ isContinuation b = false) ∨ i = bs.length := by
  have hne : i ≠ 0 := by omega
  unfold isCharBoundary
  cases hb : bs[i]? with
  | some b =>
    obtain ⟨hlt, -⟩ := List.getElem?_eq_some_iff.mp hb
    have hlen : i ≠ bs.length := by omega
    simp [hne, hlen]
  | none => simp [hne]

/-- No boundary is inside a character. -/
theorem isCharBoundary_inside (hpos : 0 < i) (hlt : i < c.utf8Size) :
    isCharBoundary (utf8 (c :: cs)) i = false := by
  obtain ⟨b, bs, heq, -, hbs, -⟩ := utf8EncodeChar_cons c
  have hlen := String.length_utf8EncodeChar c
  rw [heq, List.length_cons] at hlen
  obtain ⟨j, rfl⟩ : ∃ j, i = j + 1 := ⟨i - 1, by omega⟩
  have hj : j < bs.length := by omega
  have hget : (utf8 (c :: cs))[j + 1]? = some bs[j] := by
    rw [utf8_cons, heq, List.cons_append, List.getElem?_cons_succ, List.getElem?_append_left hj,
      List.getElem?_eq_getElem hj]
  have hcont := hbs bs[j] (List.getElem_mem hj)
  rw [← Bool.not_eq_true, isCharBoundary_pos (by omega)]
  rintro (⟨x, hx, hnot⟩ | hend)
  · obtain rfl := Option.some.inj (hget.symm.trans hx)
    rw [hcont] at hnot
    cases hnot
  · rw [hend, List.getElem?_length] at hget
    cases hget

/-- Behind a character the boundaries are those of the rest. -/
theorem isCharBoundary_behind : isCharBoundary (utf8 (c :: cs)) (c.utf8Size + i) =
    isCharBoundary (utf8 cs) i := by
  have hpos := c.utf8Size_pos
  have hlen := String.length_utf8EncodeChar c
  have hget : (utf8 (c :: cs))[c.utf8Size + i]? = (utf8 cs)[i]? := by
    rw [utf8_cons, List.getElem?_append_right (by omega), hlen, Nat.add_sub_cancel_left]
  have hiff := @isCharBoundary_pos (c.utf8Size + i) (utf8 (c :: cs)) (by omega)
  rw [hget, length_utf8_cons, Nat.add_left_cancel_iff] at hiff
  apply Bool.eq_iff_iff.mpr
  rw [hiff]
  rcases Nat.eq_zero_or_pos i with rfl | hi
  · refine iff_of_true ?_ (isCharBoundary_zero _)
    cases cs with
    | nil => exact .inr rfl
    | cons d ds =>
      obtain ⟨b, bs, heq, hb, -, -⟩ := utf8EncodeChar_cons d
      exact .inl ⟨b, by rw [utf8_cons, heq]; rfl, hb⟩
  · exact (isCharBoundary_pos hi).symm

/-- The boundaries of a text are where what begins it ends. -/
theorem isCharBoundary_utf8 :
    isCharBoundary (utf8 cs) i = true ↔ ∃ ds, ds <+: cs ∧ (utf8 ds).length = i := by
  induction cs generalizing i with
  | nil =>
    have hnil : utf8 [] = [] := rfl
    constructor
    · intro h
      refine ⟨[], List.nil_prefix, ?_⟩
      rcases Nat.eq_zero_or_pos i with rfl | hi
      · rfl
      · rcases (isCharBoundary_pos hi).mp h with ⟨b, hb, -⟩ | hend
        · cases hb
        · exact hend.symm
    · rintro ⟨ds, hds, rfl⟩
      rw [List.prefix_nil.mp hds]
      exact isCharBoundary_zero _
  | cons c cs ih =>
    have hpos := c.utf8Size_pos
    constructor
    · intro h
      rcases Nat.eq_zero_or_pos i with rfl | hi
      · exact ⟨[], List.nil_prefix, rfl⟩
      · by_cases hlt : i < c.utf8Size
        · rw [isCharBoundary_inside hi hlt] at h
          cases h
        · obtain ⟨j, rfl⟩ : ∃ j, i = c.utf8Size + j := ⟨i - c.utf8Size, by omega⟩
          rw [isCharBoundary_behind] at h
          obtain ⟨ds, hds, rfl⟩ := ih.mp h
          exact ⟨c :: ds, List.cons_prefix_cons.mpr ⟨rfl, hds⟩, length_utf8_cons c ds⟩
    · rintro ⟨ds, hds, rfl⟩
      cases ds with
      | nil => exact isCharBoundary_zero _
      | cons d ds =>
        obtain ⟨rfl, htail⟩ := List.cons_prefix_cons.mp hds
        rw [length_utf8_cons, isCharBoundary_behind]
        exact ih.mpr ⟨ds, htail, rfl⟩

/-! ## What fits -/

/-- The text fits in `n` bytes. -/
def FitsIn (n : Nat) (cs : List Char) : Prop := (utf8 cs).length ≤ n

/-- What is left of a text cut at `n` bytes is all of it that fits. -/
theorem longest_truncateAt (n : Nat) (cs : List Char) : Longest (FitsIn n) cs (truncateAt n cs) := by
  induction cs generalizing n with
  | nil => exact Longest.self (Nat.zero_le n)
  | cons c cs ih =>
    rw [truncateAt]
    split_ifs with hc
    · have hrest := ih (n - c.utf8Size)
      have hfits := hrest.fits
      unfold FitsIn at hfits
      refine ⟨List.cons_prefix_cons.mpr ⟨rfl, hrest.isPrefix⟩, ?_, fun q hq hfit => ?_⟩
      · rw [FitsIn, length_utf8_cons]
        omega
      · cases q with
        | nil => exact List.nil_prefix
        | cons d q =>
          obtain ⟨rfl, htail⟩ := List.cons_prefix_cons.mp hq
          rw [FitsIn, length_utf8_cons] at hfit
          have hfitTail : FitsIn (n - d.utf8Size) q := by
            rw [FitsIn]
            omega
          exact List.cons_prefix_cons.mpr ⟨rfl, hrest.longest q htail hfitTail⟩
    · refine ⟨List.nil_prefix, Nat.zero_le n, fun q hq hfit => ?_⟩
      cases q with
      | nil => exact List.nil_prefix
      | cons d q =>
        obtain ⟨rfl, -⟩ := List.cons_prefix_cons.mp hq
        rw [FitsIn, length_utf8_cons] at hfit
        omega

theorem isCharBoundary_truncateAt (n : Nat) (cs : List Char) :
    isCharBoundary (utf8 cs) (utf8 (truncateAt n cs)).length = true :=
  isCharBoundary_utf8.mpr ⟨_, (longest_truncateAt n cs).isPrefix, rfl⟩

theorem truncate_truncateAt (n : Nat) (cs : List Char) :
    truncate cs (utf8 (truncateAt n cs)).length = some (truncateAt n cs) := by
  obtain ⟨rest, hrest⟩ := (longest_truncateAt n cs).isPrefix
  have hutf8 : utf8 cs = utf8 (truncateAt n cs) ++ utf8 rest := by rw [← utf8_append, hrest]
  have hle : (utf8 (truncateAt n cs)).length ≤ (utf8 cs).length := by
    rw [hutf8, List.length_append]
    omega
  have htake : (utf8 cs).take (utf8 (truncateAt n cs)).length = utf8 (truncateAt n cs) := by
    rw [hutf8, List.take_left]
  rw [truncate, if_pos hle, if_pos (isCharBoundary_truncateAt n cs), htake, utf8Decode_utf8]

/-- At a boundary nothing more goes. -/
theorem length_truncateAt (h : isCharBoundary (utf8 cs) n = true) :
    (utf8 (truncateAt n cs)).length = n := by
  obtain ⟨ds, hds, rfl⟩ := isCharBoundary_utf8.mp h
  have hlong := longest_truncateAt (utf8 ds).length cs
  have hle := (utf8_prefix_utf8_iff.mpr (hlong.longest ds hds (Nat.le_refl _))).length_le
  have hfits := hlong.fits
  unfold FitsIn at hfits
  omega

/-- Inside a character, a byte less room is no loss. -/
theorem truncateAt_succ (h : isCharBoundary (utf8 cs) (n + 1) = false) :
    truncateAt (n + 1) cs = truncateAt n cs := by
  have hlong := longest_truncateAt (n + 1) cs
  refine Longest.eq (P := FitsIn n) ⟨hlong.isPrefix, ?_, fun q hq hfit => ?_⟩ (longest_truncateAt n cs)
  · have hfits := hlong.fits
    unfold FitsIn at hfits ⊢
    have hne : (utf8 (truncateAt (n + 1) cs)).length ≠ n + 1 := by
      intro heq
      have hboundary := isCharBoundary_truncateAt (n + 1) cs
      rw [heq, h] at hboundary
      cases hboundary
    omega
  · exact hlong.longest q hq (Nat.le_succ_of_le hfit)

/-- Between the end of what fits and where it was cut no character begins. -/
theorem isContinuation_of_cut (hlt : (utf8 (truncateAt n cs)).length < i) (hle : i ≤ n) :
    isCharBoundary (utf8 cs) i = false := by
  rw [← Bool.not_eq_true, isCharBoundary_utf8]
  rintro ⟨ds, hds, rfl⟩
  have hlonger := (utf8_prefix_utf8_iff.mpr ((longest_truncateAt n cs).longest ds hds hle)).length_le
  omega

/-- A text that does not fit is cut at most three bytes short. -/
theorem le_length_truncateAt (h : n < (utf8 cs).length) : n ≤ (utf8 (truncateAt n cs)).length + 3 := by
  obtain ⟨rest, hrest⟩ := (longest_truncateAt n cs).isPrefix
  cases rest with
  | nil =>
    rw [List.append_nil] at hrest
    rw [hrest]
    omega
  | cons c rest =>
    by_contra hshort
    have hsize := c.utf8Size_le_four
    have hmore : FitsIn n (truncateAt n cs ++ [c]) := by
      rw [FitsIn, utf8_append, List.length_append, length_utf8_cons]
      have hnil : (utf8 []).length = 0 := rfl
      omega
    have hpre : truncateAt n cs ++ [c] <+: cs := ⟨rest, by rw [List.append_assoc, List.singleton_append, hrest]⟩
    have hlonger := ((longest_truncateAt n cs).longest _ hpre hmore).length_le
    rw [List.length_append, List.length_singleton] at hlonger
    omega

/-! ## Any bytes -/

theorem fromUtf8LossyGo_utf8 (h : cs.length ≤ n) : fromUtf8LossyGo n (utf8 cs) = cs := by
  induction cs generalizing n with
  | nil =>
    cases n with
    | zero => rfl
    | succ n => rfl
  | cons c cs ih =>
    obtain ⟨m, rfl⟩ : ∃ m, n = m + 1 := by
      rw [List.length_cons] at h
      exact ⟨n - 1, by omega⟩
    have hdecode : (utf8 (c :: cs)).toByteArray.utf8DecodeChar? 0 = some c := by
      rw [utf8_cons, List.toByteArray_append]
      exact ByteArray.utf8DecodeChar?_utf8EncodeChar_append
    have hdrop : (utf8 (c :: cs)).drop c.utf8Size = utf8 cs := by
      rw [utf8_cons, ← String.length_utf8EncodeChar, List.drop_left]
    obtain ⟨b, bs, heq, -, -, -⟩ := utf8EncodeChar_cons c
    have hcons : utf8 (c :: cs) = b :: (bs ++ utf8 cs) := by rw [utf8_cons, heq, List.cons_append]
    rw [hcons] at hdecode hdrop ⊢
    rw [fromUtf8LossyGo, hdecode]
    show c :: fromUtf8LossyGo m _ = _
    rw [hdrop, ih (Nat.le_of_succ_le_succ h)]

/-- A text is read as it is. -/
theorem fromUtf8Lossy_utf8 (cs : List Char) : fromUtf8Lossy (utf8 cs) = cs :=
  fromUtf8LossyGo_utf8 (length_utf8_bounds cs).1

end Wires
