import Wires.Framework.Bytes
import Wires.Framework.JsonRoundTrip

/-!
# Typed values as JSON

`Serde α` is a type's reading and writing as a JSON value. A struct is read
by `Json.fields`: from an object with each of its fields at most once and no
other (`Json.openFields`: passing over others), or from an array of its fields
in order, as a derived deserialiser does. `Reads a` says that `a` is read back from what it is written as, with
the members of every object in any order; it gives the round trip through
the declared order (`Reads.text`) and through the canonical one
(`Reads.canonical`), and one canonical text for one value
(`canonical_inj`).
-/

namespace Wires

/-- A type's JSON. -/
class Serde (α : Type) where
  toJson : α → Json
  ofJson : Json → Option α

export Serde (toJson ofJson)

variable {α : Type} [Serde α]

/-- An order for the members of an object: the same members, rearranged. -/
def IsArrangement (σ : List (String × Json) → List (String × Json)) : Prop :=
  ∀ ms, (σ ms).Perm ms

theorem isArrangement_id : IsArrangement id := fun _ => List.Perm.refl _

theorem isArrangement_sortMembers : IsArrangement Json.sortMembers := fun _ =>
  List.perm_insertionSort _ _

/-- `a` is read back from its JSON, whatever the order of members. -/
def Reads (a : α) : Prop :=
  ∀ σ, IsArrangement σ → ofJson ((toJson a).arrange σ) = some a

namespace Json

variable {σ : List (String × Json) → List (String × Json)}

@[simp] theorem arrangeElems_eq_map (xs : List Json) :
    arrangeElems σ xs = xs.map (arrange σ) := by
  induction xs with
  | nil => rfl
  | cons x xs ih => rw [arrangeElems, ih, List.map_cons]

@[simp] theorem arrangeMembers_eq_map (ms : List (String × Json)) :
    arrangeMembers σ ms = ms.map fun m => (m.1, m.2.arrange σ) := by
  induction ms with
  | nil => rfl
  | cons m ms ih => rw [arrangeMembers, ih, List.map_cons]

mutual

@[simp] theorem arrange_id : ∀ j : Json, j.arrange id = j
  | .null => rfl
  | .bool _ => rfl
  | .num _ => rfl
  | .float _ => rfl
  | .str _ => rfl
  | .arr xs => by rw [arrange, arrangeElems_id xs]
  | .obj ms => by rw [arrange, arrangeMembers_id ms, id]

theorem arrangeElems_id : ∀ xs : List Json, arrangeElems id xs = xs
  | [] => rfl
  | x :: xs => by rw [arrangeElems, arrange_id x, arrangeElems_id xs]

theorem arrangeMembers_id : ∀ ms : List (String × Json), arrangeMembers id ms = ms
  | [] => rfl
  | (k, v) :: ms => by rw [arrangeMembers, arrange_id v, arrangeMembers_id ms]

end

/-- The fields of a struct: an object's members, each one of `names` and none twice, or an
array's elements in the order of `names`. -/
def fields (names : List String) : Json → Option (String → Option Json)
  | .obj ms =>
    if (ms.map Prod.fst).Nodup ∧ ∀ k ∈ ms.map Prod.fst, k ∈ names then some fun k => ms.lookup k
    else none
  | .arr xs => if xs.length ≤ names.length then some fun k => (names.zip xs).lookup k else none
  | _ => none

/-- The fields of a struct that other members may stand beside. -/
def openFields (names : List String) : Json → Option (String → Option Json)
  | .obj ms => fields names (.obj (ms.filter fun m => m.1 ∈ names))
  | j => fields names j

/-- Where there are no others, none are passed over. -/
theorem openFields_obj {names : List String} {ms : List (String × Json)}
    (h : ∀ k ∈ ms.map Prod.fst, k ∈ names) : openFields names (.obj ms) = fields names (.obj ms) := by
  have hall : ms.filter (fun m => m.1 ∈ names) = ms :=
    List.filter_eq_self.mpr fun m hm => decide_eq_true (h m.1 (List.mem_map_of_mem hm))
  rw [openFields, hall]

theorem lookup_perm {ms ns : List (String × Json)} (h : ms.Perm ns)
    (hn : (ms.map Prod.fst).Nodup) (k : String) : ms.lookup k = ns.lookup k := by
  induction h with
  | nil => rfl
  | cons m _ ih =>
    obtain ⟨k', v⟩ := m
    simp only [List.map_cons, List.nodup_cons] at hn
    rw [List.lookup_cons, List.lookup_cons, ih hn.2]
  | swap m n ms =>
    obtain ⟨k₁, v₁⟩ := m
    obtain ⟨k₂, v₂⟩ := n
    simp only [List.map_cons, List.nodup_cons, List.mem_cons, not_or] at hn
    simp only [List.lookup_cons]
    by_cases h1 : k = k₁
    · subst h1; simp [beq_false_of_ne (Ne.symm hn.1.1)]
    · simp [beq_false_of_ne h1]
  | trans h1 _ ih1 ih2 =>
    exact (ih1 hn).trans (ih2 ((h1.map Prod.fst).nodup_iff.mp hn))

theorem lookup_map_snd (ms : List (String × Json)) (f : Json → Json) (k : String) :
    (ms.map fun m => (m.1, f m.2)).lookup k = (ms.lookup k).map f := by
  induction ms with
  | nil => rfl
  | cons m ms ih =>
    obtain ⟨k', v⟩ := m
    rw [List.map_cons, List.lookup_cons, List.lookup_cons, ih]
    cases k == k' <;> rfl

/-- A struct's object gives its fields, however its members are arranged. -/
theorem fields_perm {names : List String} {ms ns : List (String × Json)}
    (hp : ns.Perm (ms.map fun m => (m.1, m.2.arrange σ))) (hn : (ms.map Prod.fst).Nodup)
    (hk : ∀ k ∈ ms.map Prod.fst, k ∈ names) :
    fields names (obj ns) = some fun k => (ms.lookup k).map (arrange σ) := by
  have hkeys : (ns.map Prod.fst).Perm (ms.map Prod.fst) := by
    simpa [Function.comp_def] using hp.map Prod.fst
  rw [fields, if_pos ⟨hkeys.nodup_iff.mpr hn, fun k h => hk k (hkeys.mem_iff.mp h)⟩]
  refine congrArg some (funext fun k => ?_)
  rw [lookup_perm hp (hkeys.nodup_iff.mpr hn), lookup_map_snd]

/-- A tagged object or array: its tag, and what is left without it. -/
def tagged (tag : String) : Json → Option (List Char × Json)
  | .obj ms =>
    match ms.filter (·.1 = tag) with
    | [(_, .str cs)] => some (cs, .obj (ms.filter (·.1 ≠ tag)))
    | _ => none
  | .arr (.str cs :: xs) => some (cs, .arr xs)
  | _ => none

theorem tagged_arrange (hσ : IsArrangement σ) {tag : String} (cs : List Char)
    {ms : List (String × Json)} (ht : tag ∉ ms.map Prod.fst) :
    ∃ ns, tagged tag ((obj ((tag, .str cs) :: ms)).arrange σ) = some (cs, .obj ns) ∧
      ns.Perm (ms.map fun m => (m.1, m.2.arrange σ)) := by
  have hp := hσ ((tag, .str cs) :: ms.map fun m => (m.1, m.2.arrange σ))
  have hno : ∀ m ∈ ms.map (fun m => (m.1, m.2.arrange σ)), m.1 ≠ tag := by
    simp only [List.mem_map, forall_exists_index, and_imp, forall_apply_eq_imp_iff₂]
    exact fun m hm he => ht (List.mem_map.mpr ⟨m, hm, he⟩)
  have hnone : (ms.map fun m => (m.1, m.2.arrange σ)).filter (·.1 = tag) = [] :=
    List.filter_eq_nil_iff.mpr fun m hm => by simpa using hno m hm
  have hall : (ms.map fun m => (m.1, m.2.arrange σ)).filter (·.1 ≠ tag) =
      ms.map fun m => (m.1, m.2.arrange σ) :=
    List.filter_eq_self.mpr fun m hm => by simpa using hno m hm
  have h1 := hp.filter (·.1 = tag)
  have h2 := hp.filter (·.1 ≠ tag)
  rw [List.filter_cons_of_pos (by simp), hnone, List.perm_singleton] at h1
  rw [List.filter_cons_of_neg (by simp), hall] at h2
  refine ⟨_, ?_, h2⟩
  rw [arrange, arrangeMembers_eq_map, List.map_cons, tagged]
  show (match List.filter _ (σ ((tag, Json.str cs) :: _)) with | [(_, .str cs)] => _ | _ => _) = _
  rw [h1]
  rfl

end Json

/-- A required field. -/
def field (f : String → Option Json) (k : String) : Option α := (f k).bind ofJson

/-- An optional field: absent or `null` reads as none. -/
def optField (f : String → Option Json) (k : String) : Option (Option α) :=
  match f k with
  | none => some none
  | some .null => some none
  | some j => (ofJson j).map some

/-- The member of an optional field: left out when there is no value. -/
def optMember (k : String) : Option α → List (String × Json)
  | none => []
  | some a => [(k, toJson a)]

section

variable {σ : List (String × Json) → List (String × Json)} {ms : List (String × Json)} {k : String}

variable {β : Type} {b : Option β}

/-- Reading a struct from its members, in any order. -/
theorem fields_bind {ns : List (String × Json)} {names : List String}
    {f : (String → Option Json) → Option β}
    (hp : ns.Perm (ms.map fun m => (m.1, m.2.arrange σ))) (hn : (ms.map Prod.fst).Nodup)
    (hk : ∀ k ∈ ms.map Prod.fst, k ∈ names)
    (h : f (fun k => (ms.lookup k).map (Json.arrange σ)) = b) :
    (Json.fields names (.obj ns) >>= f) = b := by
  rw [Json.fields_perm hp hn hk, Option.bind_eq_bind, Option.bind_some, h]

theorem openFields_bind {ns : List (String × Json)} {names : List String}
    {f : (String → Option Json) → Option β}
    (hp : ns.Perm (ms.map fun m => (m.1, m.2.arrange σ))) (hn : (ms.map Prod.fst).Nodup)
    (hk : ∀ k ∈ ms.map Prod.fst, k ∈ names)
    (h : f (fun k => (ms.lookup k).map (Json.arrange σ)) = b) :
    (Json.openFields names (.obj ns) >>= f) = b := by
  have hkeys : (ns.map Prod.fst).Perm (ms.map Prod.fst) := by
    simpa [Function.comp_def] using hp.map Prod.fst
  rw [Json.openFields_obj fun k hkn => hk k (hkeys.mem_iff.mp hkn), fields_bind hp hn hk h]

/-- A field whose member holds a value that reads back is read as that value. -/
theorem field_bind (hσ : IsArrangement σ) {a : α} {f : α → Option β} (ha : Reads a)
    (hm : ms.lookup k = some (toJson a)) (h : f a = b) :
    (field (fun k => (ms.lookup k).map (Json.arrange σ)) k >>= f) = b := by
  simp only [field, hm, Option.map_some, Option.bind_some, ha σ hσ, Option.bind_eq_bind, h]

/-- An optional field, left out when there is no value, is read as that value. -/
theorem optField_bind (hσ : IsArrangement σ) {o : Option α} {f : Option α → Option β}
    (ho : ∀ a ∈ o, Reads a ∧ toJson a ≠ .null) (hm : ms.lookup k = o.map toJson) (h : f o = b) :
    (optField (fun k => (ms.lookup k).map (Json.arrange σ)) k >>= f) = b := by
  cases o with
  | none => simp [optField, hm, h]
  | some a =>
    have hr := (ho a rfl).1 σ hσ
    have hn := (ho a rfl).2
    simp only [optField, hm, Option.map_some, Option.bind_eq_bind]
    cases hj : toJson a <;> simp_all [Json.arrange]

end

/-! ## Reading text -/

/-- `serde_json::to_string`: members in declaration order. -/
def jsonText (a : α) : List Char := (toJson a).compact

/-- `serde_json::from_str`. -/
def readText (cs : List Char) : Option α := (Json.parse cs).bind ofJson

/-- The text with every object's keys sorted. -/
def canonicalText (a : α) : List Char := (toJson a).canonical

theorem Reads.text {a : α} (h : Reads a) : readText (jsonText a) = some a := by
  have := h id isArrangement_id
  rw [Json.arrange_id] at this
  rw [readText, jsonText, Json.parse_compact, Option.bind_some, this]

theorem Reads.canonical {a : α} (h : Reads a) : readText (canonicalText a) = some a := by
  rw [readText, canonicalText, Json.canonical, Json.parse_compact]
  exact h Json.sortMembers isArrangement_sortMembers

/-- `canonical_bytes`. -/
def canonicalBytes (a : α) : List UInt8 := utf8 (canonicalText a)

/-- `serde_json::from_slice`. -/
def fromSlice (bs : List UInt8) : Option α := (utf8Decode bs).bind readText

theorem Reads.bytes {a : α} (h : Reads a) : fromSlice (canonicalBytes a) = some a := by
  rw [fromSlice, canonicalBytes, utf8Decode_utf8, Option.bind_some, h.canonical]

/-- A value written as an object reads back when it is read from its members in any order. -/
theorem reads_of_obj {a : α} {ms : List (String × Json)} (hj : toJson a = .obj ms)
    (h : ∀ σ ns, IsArrangement σ → ns.Perm (ms.map fun m => (m.1, m.2.arrange σ)) →
      ofJson (.obj ns) = some a) : Reads a := fun σ hσ => by
  rw [hj, Json.arrange, Json.arrangeMembers_eq_map]
  exact h σ _ hσ (hσ _)

/-- Two values that read back and have one canonical text are one value. -/
theorem canonical_inj {a b : α} (ha : Reads a) (hb : Reads b)
    (h : canonicalText a = canonicalText b) : a = b := by
  have := ha.canonical
  rw [h, hb.canonical] at this
  exact (Option.some.inj this).symm

instance : Serde String where
  toJson s := .str s.toList
  ofJson
    | .str cs => some (String.ofList cs)
    | _ => none

/-! ## Tagged unions -/

/-- A value written as its variant's name under `tag` and the variant's members reads back when
the variant is read from them, in any order. -/
theorem reads_of_tagged {a : α} (tag name : String) (ms : List (String × Json))
    (variant : String → Json → Option α) (hj : toJson a = .obj ((tag, toJson name) :: ms))
    (ho : ∀ j : Json, ofJson j = (j.tagged tag).bind fun p => variant (String.ofList p.1) p.2)
    (ht : tag ∉ ms.map Prod.fst)
    (h : ∀ σ ns, IsArrangement σ → ns.Perm (ms.map fun m => (m.1, m.2.arrange σ)) →
      variant name (.obj ns) = some a) : Reads a := fun σ hσ => by
  obtain ⟨ns, htag, hp⟩ := Json.tagged_arrange hσ name.toList ht
  rw [hj, ho, show (toJson name : Json) = .str name.toList from rfl, htag, Option.bind_some,
    String.ofList_toList]
  exact h σ ns hσ hp

/-! ## Base types -/

theorem reads_string (s : String) : Reads s := fun _ _ => by
  simp [toJson, ofJson, Json.arrange]

/-- An integer in the range of a machine type. -/
def ofJsonInt (lo hi : Int) (ofInt : Int → α) : Json → Option α
  | .num i => if lo ≤ i ∧ i ≤ hi then some (ofInt i) else none
  | _ => none

instance : Serde UInt8 where
  toJson n := .num n.toNat
  ofJson := ofJsonInt 0 (2 ^ 8 - 1) fun i => UInt8.ofNat i.toNat

instance : Serde UInt32 where
  toJson n := .num n.toNat
  ofJson := ofJsonInt 0 (2 ^ 32 - 1) fun i => UInt32.ofNat i.toNat

instance : Serde UInt64 where
  toJson n := .num n.toNat
  ofJson := ofJsonInt 0 (2 ^ 64 - 1) fun i => UInt64.ofNat i.toNat

instance : Serde Int64 where
  toJson n := .num n.toInt
  ofJson := ofJsonInt (-2 ^ 63) (2 ^ 63 - 1) Int64.ofInt

theorem reads_uint8 (n : UInt8) : Reads n := fun _ _ => by
  have := n.toNat_lt
  simp only [toJson, Json.arrange, ofJson, ofJsonInt]
  rw [if_pos (by omega), Int.toNat_natCast, UInt8.ofNat_toNat]

theorem reads_uint32 (n : UInt32) : Reads n := fun _ _ => by
  have := n.toNat_lt
  simp only [toJson, Json.arrange, ofJson, ofJsonInt]
  rw [if_pos (by omega), Int.toNat_natCast, UInt32.ofNat_toNat]

theorem reads_uint64 (n : UInt64) : Reads n := fun _ _ => by
  have := n.toNat_lt
  simp only [toJson, Json.arrange, ofJson, ofJsonInt]
  rw [if_pos (by omega), Int.toNat_natCast, UInt64.ofNat_toNat]

theorem reads_int64 (n : Int64) : Reads n := fun _ _ => by
  have := n.le_toInt
  have := n.toInt_lt
  simp only [toJson, Json.arrange, ofJson, ofJsonInt]
  rw [if_pos (by omega), Int64.ofInt_toInt]

instance : Serde (List α) where
  toJson xs := .arr (xs.map toJson)
  ofJson
    | .arr xs => xs.mapM ofJson
    | _ => none

theorem reads_list {xs : List α} (h : ∀ x ∈ xs, Reads x) : Reads xs := fun σ hσ => by
  simp only [toJson, Json.arrange, ofJson, Json.arrangeElems_eq_map, List.map_map]
  induction xs with
  | nil => rfl
  | cons x xs ih =>
    simp [h x List.mem_cons_self σ hσ, ih fun y hy => h y (List.mem_cons_of_mem _ hy)]

/-- A byte string's JSON is its hex. -/
instance {n : Nat} : Serde (Bytes n) where
  toJson b := .str (hexEncode b.toList)
  ofJson
    | .str cs => (hexDecode cs).bind (Bytes.ofList? n)
    | _ => none

theorem reads_bytes {n : Nat} (b : Bytes n) : Reads b := fun _ _ => by
  simp [toJson, ofJson, Json.arrange, hexDecode_hexEncode]

end Wires
