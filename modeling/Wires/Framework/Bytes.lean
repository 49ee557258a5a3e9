import Wires.Framework.Json
import Wires.Framework.Machine

/-!
# Byte strings

`Bytes n` is a byte string of a fixed length, ordered as a dictionary is.
`hexEncode` writes bytes in lower-case hex and `hexDecode` reads hex of either
case; `hexDecode_hexEncode` is their round trip. `utf8` is the encoding of a
text, and is injective.
-/

namespace Wires

/-- A byte string of length `n`. -/
structure Bytes (n : Nat) where
  toList : List UInt8
  length_eq : toList.length = n
deriving DecidableEq

namespace Bytes

variable {n : Nat}

@[ext] theorem ext {a b : Bytes n} (h : a.toList = b.toList) : a = b := by
  cases a; cases b; simp_all

theorem toList_injective : Function.Injective (Bytes.toList (n := n)) := fun _ _ => Bytes.ext

instance : LinearOrder (Bytes n) := LinearOrder.lift' Bytes.toList toList_injective

/-- The bytes, if there are exactly `n`. -/
def ofList? (n : Nat) (l : List UInt8) : Option (Bytes n) :=
  if h : l.length = n then some ⟨l, h⟩ else none

@[simp] theorem ofList?_toList (b : Bytes n) : ofList? n b.toList = some b := by
  simp [ofList?, b.length_eq]

/-- `n` copies of a byte. -/
def fill (n : Nat) (b : UInt8) : Bytes n := ⟨List.replicate n b, List.length_replicate⟩

theorem fill_injective (hn : n ≠ 0) : Function.Injective (fill n) := fun a b h => by
  have := congrArg Bytes.toList h
  simpa [fill, List.replicate_inj, hn] using this

end Bytes

/-! ## Hex -/

/-- The two lower-case hex digits of each byte. -/
def hexEncode (bs : List UInt8) : List Char :=
  bs.flatMap fun b => [Json.hexDigit (b.toNat / 16), Json.hexDigit (b.toNat % 16)]

/-- Bytes from pairs of hex digits, of either case. -/
def hexDecode : List Char → Option (List UInt8)
  | [] => some []
  | [_] => none
  | a :: b :: cs => do
    let a ← Json.hexVal a
    let b ← Json.hexVal b
    let bs ← hexDecode cs
    return UInt8.ofNat (16 * a + b) :: bs

theorem hexDecode_hexEncode (bs : List UInt8) : hexDecode (hexEncode bs) = some bs := by
  induction bs with
  | nil => rfl
  | cons b bs ih =>
    have hb := b.toNat_lt
    rw [hexEncode] at ih ⊢
    simp only [List.flatMap_cons, List.cons_append, List.nil_append, hexDecode,
      Json.hexVal_hexDigit (b.toNat / 16) (by omega), Json.hexVal_hexDigit (b.toNat % 16) (by omega), ih,
      Option.bind_eq_bind, Option.bind_some, Option.pure_def, Option.some.injEq,
      List.cons.injEq, and_true]
    rw [Nat.div_add_mod, UInt8.ofNat_toNat]

/-! ## Text -/

/-- The UTF-8 bytes of a text. -/
def utf8 (cs : List Char) : List UInt8 := cs.flatMap String.utf8EncodeChar

theorem utf8_append (cs ds : List Char) : utf8 (cs ++ ds) = utf8 cs ++ utf8 ds :=
  List.flatMap_append

theorem utf8_cons (c : Char) (cs : List Char) : utf8 (c :: cs) = String.utf8EncodeChar c ++ utf8 cs :=
  rfl

theorem length_utf8_cons (c : Char) (cs : List Char) :
    (utf8 (c :: cs)).length = c.utf8Size + (utf8 cs).length := by
  rw [utf8_cons, List.length_append, String.length_utf8EncodeChar]

theorem length_utf8_append (cs ds : List Char) :
    (utf8 (cs ++ ds)).length = (utf8 cs).length + (utf8 ds).length := by
  rw [utf8_append, List.length_append]

/-- The bytes of a text are those the text says it has. -/
theorem length_utf8_toList (s : String) : (utf8 s.toList).length = s.utf8ByteSize := by
  rw [String.utf8ByteSize, ← String.utf8Encode_toList, List.utf8Encode]
  simp [utf8]

theorem utf8_injective : Function.Injective utf8 := fun cs ds h => by
  have hb : cs.utf8Encode = ds.utf8Encode := congrArg List.toByteArray h
  rw [← String.toByteArray_ofList, ← String.toByteArray_ofList, String.toByteArray_inj] at hb
  simpa using congrArg String.toList hb

/-- A character takes between one and four bytes. -/
theorem length_utf8_bounds (cs : List Char) :
    cs.length ≤ (utf8 cs).length ∧ (utf8 cs).length ≤ 4 * cs.length := by
  induction cs with
  | nil => simp [utf8]
  | cons c cs ih =>
    have hc : (String.utf8EncodeChar c).length = c.utf8Size := String.length_utf8EncodeChar c
    have hpos := c.utf8Size_pos
    have hle := c.utf8Size_le_four
    have hcs : utf8 (c :: cs) = String.utf8EncodeChar c ++ utf8 cs := rfl
    rw [hcs, List.length_append, List.length_cons]
    omega

/-- `String::from_utf8`. -/
def utf8Decode (bs : List UInt8) : Option (List Char) :=
  bs.toByteArray.utf8Decode?.map Array.toList

@[simp] theorem utf8Decode_utf8 (cs : List Char) : utf8Decode (utf8 cs) = some cs := by
  have h : (utf8 cs).toByteArray.utf8Decode? = some cs.toArray := List.utf8Decode?_utf8Encode
  rw [utf8Decode, h]
  rfl

theorem eq_utf8_of_toByteArray {bs : List UInt8} {cs : List Char}
    (h : bs.toByteArray = cs.utf8Encode) : bs = utf8 cs := by
  have hdata : bs.toByteArray.data.toList = (utf8 cs).toByteArray.data.toList :=
    congrArg (fun b : ByteArray => b.data.toList) h
  simpa using hdata

theorem utf8Decode_eq_some {bs : List UInt8} {cs : List Char} :
    utf8Decode bs = some cs ↔ bs = utf8 cs := by
  refine ⟨fun h => ?_, fun h => h ▸ utf8Decode_utf8 cs⟩
  have hsome : bs.toByteArray.utf8Decode?.isSome := by
    unfold utf8Decode at h
    rw [← Option.isSome_map (f := Array.toList), h]
    rfl
  obtain ⟨ds, hds⟩ := ByteArray.isSome_utf8Decode?_iff.mp hsome
  obtain rfl := eq_utf8_of_toByteArray hds
  rw [utf8Decode_utf8, Option.some.injEq] at h
  rw [h]

/-- Bytes after the encoding of a text are themselves the encoding of one, when the whole is. -/
theorem exists_of_utf8_append {cs ds : List Char} {bs : List UInt8} (h : utf8 cs ++ bs = utf8 ds) :
    ∃ es, bs = utf8 es ∧ ds = cs ++ es := by
  have hvalid : bs.toByteArray.IsValidUTF8 := by
    have hall : (utf8 cs ++ bs).toByteArray.IsValidUTF8 := ⟨ds, congrArg List.toByteArray h⟩
    clear h
    induction cs with
    | nil => exact hall
    | cons c cs ih =>
      have hcons : utf8 (c :: cs) ++ bs = utf8 [c] ++ (utf8 cs ++ bs) := by
        simp [utf8]
      rw [hcons, List.toByteArray_append] at hall
      exact ih (ByteArray.isValidUTF8_utf8Encode_singleton_append_iff.mp hall)
  obtain ⟨es, hes⟩ := hvalid
  obtain rfl := eq_utf8_of_toByteArray hes
  refine ⟨es, rfl, utf8_injective ?_⟩
  rw [utf8_append, h]

/-- One text begins another as its encoding begins the other's. -/
theorem utf8_prefix_utf8_iff {cs ds : List Char} : utf8 cs <+: utf8 ds ↔ cs <+: ds := by
  constructor
  · rintro ⟨bs, h⟩
    obtain ⟨es, -, rfl⟩ := exists_of_utf8_append h
    exact List.prefix_append cs es
  · rintro ⟨es, rfl⟩
    rw [utf8_append]
    exact List.prefix_append _ _

end Wires
