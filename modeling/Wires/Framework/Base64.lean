import Wires.Framework.Bytes

/-!
# Base64 for URLs

The URL-safe alphabet, without padding. `decode` is strict: it takes no other
character, and no group whose unused low bits are set, so that one text stands
for one byte string (`decode_encode`, `encode_of_decode`).
-/

namespace Wires

namespace Base64

/-- The digits, by value. -/
def alphabet : List Char :=
  "ABCDEFGHIJKLMNOPQRSTUVWXYZabcdefghijklmnopqrstuvwxyz0123456789-_".toList

/-- The digit of a value under 64. -/
def digit (n : Nat) : Char := alphabet.getD n 'A'

/-- The value of a digit. -/
def value (c : Char) : Option Nat := alphabet.idxOf? c

/-- Three bytes to four digits; a last group of one or two bytes to two or three. -/
def encode : List UInt8 → List Char
  | [] => []
  | [a] => [digit (a.toNat / 4), digit (a.toNat % 4 * 16)]
  | [a, b] =>
    [digit (a.toNat / 4), digit (a.toNat % 4 * 16 + b.toNat / 16), digit (b.toNat % 16 * 4)]
  | a :: b :: c :: bs =>
    digit (a.toNat / 4) :: digit (a.toNat % 4 * 16 + b.toNat / 16) ::
      digit (b.toNat % 16 * 4 + c.toNat / 64) :: digit (c.toNat % 64) :: encode bs

/-- Bytes from digits. -/
def decode : List Char → Option (List UInt8)
  | [] => some []
  | [_] => none
  | [c, d] => do
    let c ← value c
    let d ← value d
    if d % 16 = 0 then some [UInt8.ofNat (c * 4 + d / 16)] else none
  | [c, d, e] => do
    let c ← value c
    let d ← value d
    let e ← value e
    if e % 4 = 0 then some [UInt8.ofNat (c * 4 + d / 16), UInt8.ofNat (d % 16 * 16 + e / 4)]
    else none
  | c :: d :: e :: f :: cs => do
    let c ← value c
    let d ← value d
    let e ← value e
    let f ← value f
    let bs ← decode cs
    return UInt8.ofNat (c * 4 + d / 16) :: UInt8.ofNat (d % 16 * 16 + e / 4) ::
      UInt8.ofNat (e % 4 * 64 + f) :: bs

/-! ## Digits -/

theorem value_digit : ∀ n < 64, value (digit n) = some n := by decide +kernel

theorem lt_of_value {c : Char} {n : Nat} (h : value c = some n) : n < 64 := by
  obtain ⟨hn, -, -⟩ := List.idxOf?_eq_some_iff.mp h
  exact hn

theorem digit_of_value {c : Char} {n : Nat} (h : value c = some n) : digit n = c := by
  obtain ⟨hn, hc, -⟩ := List.idxOf?_eq_some_iff.mp h
  rw [digit, List.getD_eq_getElem?_getD, List.getElem?_eq_getElem hn, hc, Option.getD_some]

theorem ofNat_toNat_of (a : UInt8) {n : Nat} (h : n = a.toNat) : UInt8.ofNat n = a := by
  rw [h, UInt8.ofNat_toNat]

theorem toNat_ofNat_of {n : Nat} (h : n < 256) : (UInt8.ofNat n).toNat = n :=
  UInt8.toNat_ofNat_of_lt' h

/-! ## Round trips -/

theorem decode_encode (bs : List UInt8) : decode (encode bs) = some bs := by
  induction bs using encode.induct with
  | case1 => rfl
  | case2 a =>
    have ha := a.toNat_lt
    rw [encode, decode, value_digit _ (by omega), value_digit _ (by omega)]
    simp only [Option.bind_eq_bind, Option.bind_some]
    rw [if_pos (by omega), ofNat_toNat_of a (by omega)]
  | case3 a b =>
    have ha := a.toNat_lt
    have hb := b.toNat_lt
    rw [encode, decode, value_digit _ (by omega), value_digit _ (by omega),
      value_digit _ (by omega)]
    simp only [Option.bind_eq_bind, Option.bind_some]
    rw [if_pos (by omega), ofNat_toNat_of a (by omega), ofNat_toNat_of b (by omega)]
  | case4 a b c bs ih =>
    have ha := a.toNat_lt
    have hb := b.toNat_lt
    have hc := c.toNat_lt
    rw [encode, decode, value_digit _ (by omega), value_digit _ (by omega),
      value_digit _ (by omega), value_digit _ (by omega), ih]
    simp only [Option.bind_eq_bind, Option.bind_some, Option.pure_def]
    rw [ofNat_toNat_of a (by omega), ofNat_toNat_of b (by omega), ofNat_toNat_of c (by omega)]

theorem encode_injective : Function.Injective encode := fun a b h => by
  have hd := decode_encode a
  rw [h, decode_encode] at hd
  exact (Option.some.inj hd).symm

/-- What decodes is what its bytes encode to. -/
theorem encode_of_decode {cs : List Char} {bs : List UInt8} (h : decode cs = some bs) :
    encode bs = cs := by
  induction cs using decode.induct generalizing bs with
  | case1 =>
    cases h
    rfl
  | case2 c => cases h
  | case3 c d =>
    simp only [decode, Option.bind_eq_bind, Option.bind_eq_some_iff] at h
    obtain ⟨x, hx, y, hy, h⟩ := h
    have hx64 := lt_of_value hx
    have hy64 := lt_of_value hy
    split_ifs at h with hlow
    cases h
    rw [encode, toNat_ofNat_of (by omega), ← digit_of_value hx, ← digit_of_value hy]
    congr 2
    · omega
    · congr 1
      omega
  | case4 c d e =>
    simp only [decode, Option.bind_eq_bind, Option.bind_eq_some_iff] at h
    obtain ⟨x, hx, y, hy, z, hz, h⟩ := h
    have hx64 := lt_of_value hx
    have hy64 := lt_of_value hy
    have hz64 := lt_of_value hz
    split_ifs at h with hlow
    cases h
    rw [encode, toNat_ofNat_of (by omega), toNat_ofNat_of (by omega), ← digit_of_value hx,
      ← digit_of_value hy, ← digit_of_value hz]
    have h1 : (x * 4 + y / 16) / 4 = x := by omega
    have h2 : (x * 4 + y / 16) % 4 * 16 + (y % 16 * 16 + z / 4) / 16 = y := by omega
    have h3 : (y % 16 * 16 + z / 4) % 16 * 4 = z := by omega
    rw [h1, h2, h3]
  | case5 c d e f cs ih =>
    simp only [decode, Option.bind_eq_bind, Option.bind_eq_some_iff, Option.pure_def,
      Option.some.injEq] at h
    obtain ⟨x, hx, y, hy, z, hz, w, hw, rest, hrest, rfl⟩ := h
    have hx64 := lt_of_value hx
    have hy64 := lt_of_value hy
    have hz64 := lt_of_value hz
    have hw64 := lt_of_value hw
    rw [encode, toNat_ofNat_of (by omega), toNat_ofNat_of (by omega), toNat_ofNat_of (by omega),
      ih hrest, ← digit_of_value hx, ← digit_of_value hy, ← digit_of_value hz, ← digit_of_value hw]
    have h1 : (x * 4 + y / 16) / 4 = x := by omega
    have h2 : (x * 4 + y / 16) % 4 * 16 + (y % 16 * 16 + z / 4) / 16 = y := by omega
    have h3 : (y % 16 * 16 + z / 4) % 16 * 4 + (z % 4 * 64 + w) / 64 = z := by omega
    have h4 : (z % 4 * 64 + w) % 64 = w := by omega
    rw [h1, h2, h3, h4]

/-- What is encoded has digits only. -/
theorem value_of_mem_encode {bs : List UInt8} {c : Char} (h : c ∈ encode bs) :
    ∃ n, value c = some n := by
  have hdigit : ∀ n < 64, c = digit n → ∃ n, value c = some n :=
    fun n hn hc => ⟨n, hc ▸ value_digit n hn⟩
  induction bs using encode.induct with
  | case1 => cases h
  | case2 a =>
    have ha := a.toNat_lt
    simp only [encode, List.mem_cons, List.not_mem_nil, or_false] at h
    rcases h with h | h
    · exact hdigit _ (by omega) h
    · exact hdigit _ (by omega) h
  | case3 a b =>
    have ha := a.toNat_lt
    have hb := b.toNat_lt
    simp only [encode, List.mem_cons, List.not_mem_nil, or_false] at h
    rcases h with h | h | h
    · exact hdigit _ (by omega) h
    · exact hdigit _ (by omega) h
    · exact hdigit _ (by omega) h
  | case4 a b d bs ih =>
    have ha := a.toNat_lt
    have hb := b.toNat_lt
    have hd := d.toNat_lt
    simp only [encode, List.mem_cons] at h
    rcases h with h | h | h | h | h
    · exact hdigit _ (by omega) h
    · exact hdigit _ (by omega) h
    · exact hdigit _ (by omega) h
    · exact hdigit _ (by omega) h
    · exact ih h

theorem notMem_of_decode {cs : List Char} {bs : List UInt8} (h : decode cs = some bs) {c : Char}
    (hc : value c = none) : c ∉ cs := by
  rw [← encode_of_decode h]
  intro hmem
  obtain ⟨n, hn⟩ := value_of_mem_encode hmem
  rw [hc] at hn
  cases hn

end Base64

end Wires
