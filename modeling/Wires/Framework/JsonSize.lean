import Wires.Framework.Decode
import Mathlib.Data.Nat.Digits.Defs

/-!
# How long JSON text gets

`Json.size` is the number of bytes of a value's text, counted without printing
it (`length_compact`), whichever order its members stand in (`size_arrange`).
A string takes at most six bytes for one of its own (`size_str_le`).
-/

namespace Wires

namespace Json

/-! ## Literals -/

/-- An escaped character takes at most six bytes for one of its own. -/
theorem length_utf8_escapeChar (c : Char) : (utf8 (escapeChar c)).length ≤ 6 * c.utf8Size := by
  have hpos := c.utf8Size_pos
  rw [escapeChar]
  split_ifs with _ _ _ _ _ _ _ hctl
  rotate_left 7
  · have hdigit : ∀ n < 16, (hexDigit n).utf8Size = 1 := by decide
    have hhigh := hdigit (c.toNat / 16) (by omega)
    have hlow := hdigit (c.toNat % 16) (by omega)
    have hrest : (utf8 ['\\', 'u', '0', '0']).length = 4 := rfl
    rw [show ['\\', 'u', '0', '0', hexDigit (c.toNat / 16), hexDigit (c.toNat % 16)] =
      ['\\', 'u', '0', '0'] ++ [hexDigit (c.toNat / 16), hexDigit (c.toNat % 16)] from rfl,
      length_utf8_append, hrest, length_utf8_cons, length_utf8_cons, hhigh, hlow]
    show 6 ≤ _
    omega
  · rw [length_utf8_cons]
    show c.utf8Size + 0 ≤ _
    omega
  all_goals
    show 2 ≤ _
    omega

theorem length_utf8_quote (cs : List Char) :
    (utf8 (quote cs)).length ≤ 6 * (utf8 cs).length + 2 := by
  have hescaped : (utf8 (cs.flatMap escapeChar)).length ≤ 6 * (utf8 cs).length := by
    induction cs with
    | nil => simp [utf8]
    | cons c cs ih =>
      have hc := length_utf8_escapeChar c
      rw [List.flatMap_cons, length_utf8_append, length_utf8_cons]
      omega
  rw [quote, length_utf8_append, length_utf8_cons]
  show 1 + _ + 1 ≤ _
  omega

theorem length_utf8_of_digits {cs : List Char} (h : ∀ c ∈ cs, c.isDigit = true) :
    (utf8 cs).length = cs.length := by
  induction cs with
  | nil => rfl
  | cons c cs ih =>
    have hc := h c List.mem_cons_self
    have hascii : c.utf8Size = 1 := by
      rw [Char.utf8Size_eq_one_iff]
      have hle : c.val ≤ 57 := by
        simp only [Char.isDigit, Bool.and_eq_true, decide_eq_true_eq] at hc
        exact hc.2
      exact UInt32.le_trans hle (by decide)
    rw [length_utf8_cons, hascii, ih fun d hd => h d (List.mem_cons_of_mem _ hd), List.length_cons]
    omega

/-- The characters of a number's text. -/
def decimals (i : Int) : Nat := (number i).length

theorem length_utf8_number (i : Int) : (utf8 (number i)).length = decimals i := by
  have hdigits := @length_utf8_of_digits (Nat.toDigits 10 i.natAbs) fun c hc =>
    Nat.isDigit_of_mem_toDigits (by omega) (by omega) hc
  rw [decimals, number]
  split
  · rw [length_utf8_cons, hdigits, List.length_cons]
    show 1 + _ = _
    omega
  · exact hdigits

/-- The text of a 64-bit number. -/
theorem decimals_le {i : Int} (h : i.natAbs < 10 ^ 19 ∨ 0 ≤ i ∧ i.natAbs < 10 ^ 20) :
    decimals i ≤ 20 := by
  rw [decimals, number]
  split
  · have hdigits := Nat.toDigits_length 10 i.natAbs 19 (by omega) (by omega)
    rw [List.length_cons]
    omega
  · exact Nat.toDigits_length 10 i.natAbs 20 (by omega) (by omega)

/-- A literal of characters that are not escaped is no longer than its quotes make it. -/
theorem length_utf8_quote_plain {cs : List Char} (h : ∀ c ∈ cs, escapeChar c = [c]) :
    (utf8 (quote cs)).length = (utf8 cs).length + 2 := by
  have hescaped : cs.flatMap escapeChar = cs := by
    rw [List.flatMap_congr h]
    exact List.flatMap_singleton' cs
  rw [quote, hescaped, length_utf8_append, length_utf8_cons]
  show 1 + _ + 1 = _
  omega

/-! ## Values -/

mutual

/-- The bytes of a value's text. -/
def size : Json → Nat
  | .null => 4
  | .bool true => 4
  | .bool false => 5
  | .num i => (utf8 (number i)).length
  | .float f => (utf8 (floatText f)).length
  | .str s => (utf8 (quote s)).length
  | .arr xs => sizeElems xs + 2 + (xs.length - 1)
  | .obj ms => sizeMembers ms + 2 + (ms.length - 1)

/-- The bytes of some elements, without the commas between them. -/
def sizeElems : List Json → Nat
  | [] => 0
  | x :: xs => size x + sizeElems xs

/-- The bytes of some members, without the commas between them. -/
def sizeMembers : List (String × Json) → Nat
  | [] => 0
  | (k, v) :: ms => (utf8 (quote k.toList)).length + 1 + size v + sizeMembers ms

end

mutual

theorem length_compact : ∀ j : Json, (utf8 j.compact).length = j.size
  | .null => rfl
  | .bool true => rfl
  | .bool false => rfl
  | .num i => by rw [compact, size]
  | .float f => by rw [compact, size]
  | .str s => by rw [compact, size]
  | .arr xs => by
    rw [compact, length_utf8_cons, length_compactElems, size]
    show 1 + _ = _
    omega
  | .obj ms => by
    rw [compact, length_utf8_cons, length_compactMembers, size]
    show 1 + _ = _
    omega

theorem length_compactElems : ∀ xs : List Json,
    (utf8 (compactElems xs)).length = sizeElems xs + 1 + (xs.length - 1)
  | [] => rfl
  | [x] => by
    rw [compactElems, length_utf8_append, length_compact x, sizeElems, sizeElems]
    rfl
  | x :: y :: xs => by
    have hcomma : (',' : Char).utf8Size = 1 := rfl
    rw [compactElems, length_utf8_append, length_utf8_cons, length_compact x,
      length_compactElems (y :: xs), sizeElems.eq_def (x :: y :: xs), hcomma]
    simp only [List.length_cons]
    omega

theorem length_compactMembers : ∀ ms : List (String × Json),
    (utf8 (compactMembers ms)).length = sizeMembers ms + 1 + (ms.length - 1)
  | [] => rfl
  | [(k, v)] => by
    rw [compactMembers, length_utf8_append, length_utf8_append, length_utf8_cons, length_compact v,
      sizeMembers, sizeMembers]
    show _ + (1 + _) + 1 = _
    simp only [List.length_cons, List.length_nil]
    omega
  | (k, v) :: m :: ms => by
    have hcolon : (':' : Char).utf8Size = 1 := rfl
    have hcomma : (',' : Char).utf8Size = 1 := rfl
    rw [compactMembers, length_utf8_append, length_utf8_append, length_utf8_cons, length_utf8_cons,
      length_compact v, length_compactMembers (m :: ms), sizeMembers.eq_def ((k, v) :: m :: ms),
      hcolon, hcomma]
    simp only [List.length_cons]
    omega

end

theorem sizeElems_eq_sum (xs : List Json) : sizeElems xs = (xs.map size).sum := by
  induction xs with
  | nil => rfl
  | cons x xs ih => rw [sizeElems, ih, List.map_cons, List.sum_cons]

theorem sizeMembers_eq_sum (ms : List (String × Json)) :
    sizeMembers ms = (ms.map fun m => (utf8 (quote m.1.toList)).length + 1 + size m.2).sum := by
  induction ms with
  | nil => rfl
  | cons m ms ih => rw [sizeMembers, ih, List.map_cons, List.sum_cons]

theorem sizeMembers_perm {ms ns : List (String × Json)} (h : ms.Perm ns) :
    sizeMembers ms = sizeMembers ns := by
  rw [sizeMembers_eq_sum, sizeMembers_eq_sum]
  exact (h.map _).sum_nat

section

variable {σ : List (String × Json) → List (String × Json)}

mutual

theorem size_arrange (hσ : IsArrangement σ) : ∀ j : Json, (j.arrange σ).size = j.size
  | .null => rfl
  | .bool _ => rfl
  | .num _ => rfl
  | .float _ => rfl
  | .str _ => rfl
  | .arr xs => by
    rw [arrange, size, size, sizeElems_arrange hσ xs, arrangeElems_eq_map, List.length_map]
  | .obj ms => by
    have hperm := hσ (arrangeMembers σ ms)
    rw [arrange, size, size, sizeMembers_perm hperm, sizeMembers_arrange hσ ms, hperm.length_eq,
      arrangeMembers_eq_map, List.length_map]

theorem sizeElems_arrange (hσ : IsArrangement σ) : ∀ xs : List Json,
    sizeElems (arrangeElems σ xs) = sizeElems xs
  | [] => rfl
  | x :: xs => by
    rw [arrangeElems, sizeElems, sizeElems, size_arrange hσ x, sizeElems_arrange hσ xs]

theorem sizeMembers_arrange (hσ : IsArrangement σ) : ∀ ms : List (String × Json),
    sizeMembers (arrangeMembers σ ms) = sizeMembers ms
  | [] => rfl
  | (k, v) :: ms => by
    rw [arrangeMembers, sizeMembers, sizeMembers, size_arrange hσ v, sizeMembers_arrange hσ ms]

end

end

/-! ## Arrays -/

/-- An array of values of `n` bytes each. -/
theorem size_arr_eq {xs : List Json} {n : Nat} (h : ∀ x ∈ xs, x.size = n) :
    (arr xs).size = xs.length * n + 2 + (xs.length - 1) := by
  have hsizes : xs.map size = List.replicate xs.length n := List.map_eq_replicate_iff.mpr h
  rw [size, sizeElems_eq_sum, hsizes, List.sum_replicate_nat]

/-- An array of values none longer than `n`. -/
theorem size_arr_le {xs : List Json} {n : Nat} (h : ∀ x ∈ xs, x.size ≤ n) :
    (arr xs).size ≤ xs.length * (n + 1) + 2 := by
  have hsum : (xs.map size).sum ≤ xs.length * n := by
    induction xs with
    | nil => simp
    | cons x xs ih =>
      have hx := h x List.mem_cons_self
      have hxs := ih fun y hy => h y (List.mem_cons_of_mem _ hy)
      rw [List.map_cons, List.sum_cons, List.length_cons, Nat.succ_mul]
      omega
  rw [size, sizeElems_eq_sum, Nat.mul_succ]
  omega

end Json

/-- The bytes of a value's canonical text, whatever the order of its members. -/
theorem length_canonicalBytes {α : Type} [Serde α] (a : α) :
    (canonicalBytes a).length = (toJson a).size := by
  rw [canonicalBytes, canonicalText, Json.canonical, Json.length_compact, Json.sortKeys,
    Json.size_arrange isArrangement_sortMembers]

theorem size_string_le (s : String) : (toJson s).size ≤ 6 * s.utf8ByteSize + 2 := by
  rw [← length_utf8_toList]
  exact Json.length_utf8_quote s.toList

theorem size_num (i : Int) : (Json.num i).size = Json.decimals i := Json.length_utf8_number i

theorem size_int64_le (n : Int64) : (toJson n).size ≤ 20 := by
  have := n.toInt_lt
  have := n.le_toInt
  rw [show toJson n = .num n.toInt from rfl, size_num]
  exact Json.decimals_le (.inl (by omega))

/-- Two hex digits a byte, and the quotes. -/
theorem size_bytes {n : Nat} (b : Bytes n) : (toJson b).size = 2 * n + 2 := by
  have hdigit : ∀ n < 16, (Json.hexDigit n).utf8Size = 1 := by decide
  have hplain : ∀ n < 16, Json.escapeChar (Json.hexDigit n) = [Json.hexDigit n] := by decide
  have hhex : ∀ bs : List UInt8, (utf8 (hexEncode bs)).length = 2 * bs.length := fun bs => by
    induction bs with
    | nil => rfl
    | cons b bs ih =>
      have hb := b.toNat_lt
      rw [show hexEncode (b :: bs) = Json.hexDigit (b.toNat / 16) :: Json.hexDigit (b.toNat % 16) ::
        hexEncode bs from rfl, length_utf8_cons, length_utf8_cons, ih, hdigit _ (by omega),
        hdigit _ (by omega), List.length_cons]
      omega
  have hquote := @Json.length_utf8_quote_plain (hexEncode b.toList) fun c hc => by
    obtain ⟨b, -, hc⟩ := List.mem_flatMap.mp hc
    have hb := b.toNat_lt
    rcases List.mem_pair.mp hc with rfl | rfl
    · exact hplain _ (by omega)
    · exact hplain _ (by omega)
  rw [hhex, b.length_eq] at hquote
  exact hquote

end Wires
