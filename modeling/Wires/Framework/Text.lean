import Mathlib.Data.List.DropRight
import Mathlib.Data.List.Infix
import Mathlib.Data.String.Basic

/-!
# Strings

The string operations of Rust's `str` that the model uses: ASCII case folding
(which leaves every other character alone), substring search, splitting at a
character, and blankness by Unicode's `White_Space`.
-/

namespace Wires

/-- `str::to_ascii_lowercase`. -/
def asciiLower (s : String) : String := String.ofList (s.toList.map Char.toLower)

/-- `str::eq_ignore_ascii_case`. -/
def eqIgnoreCase (s t : String) : Bool := decide (asciiLower s = asciiLower t)

/-- `str::contains` for a string pattern. -/
def containsText (s pat : String) : Bool := decide (pat.toList <:+: s.toList)

/-- Unicode's `White_Space`. -/
def isWhitespace (c : Char) : Bool :=
  let n := c.toNat
  (9 ≤ n && n ≤ 13) || n = 0x20 || n = 0x85 || n = 0xA0 || n = 0x1680 ||
    (0x2000 ≤ n && n ≤ 0x200A) || n = 0x2028 || n = 0x2029 || n = 0x202F || n = 0x205F ||
    n = 0x3000

/-- `str::split_whitespace`. -/
def splitWhitespace (cs : List Char) : List (List Char) :=
  (cs.splitOnP isWhitespace).filter fun w => w ≠ []

/-- `str::trim`. -/
def trim (cs : List Char) : List Char := (cs.dropWhile isWhitespace).rdropWhile isWhitespace

/-- `s.trim().is_empty()`. -/
def isBlank (s : String) : Bool := s.toList.all isWhitespace

/-- `char::is_ascii_lowercase`. -/
def isAsciiLower (c : Char) : Bool := 'a' ≤ c && c ≤ 'z'

/-- `char::is_ascii_digit`. -/
def isAsciiDigit (c : Char) : Bool := '0' ≤ c && c ≤ '9'

/-- `char::is_ascii_alphanumeric`. -/
def isAsciiAlphanumeric (c : Char) : Bool := isAsciiLower c || ('A' ≤ c && c ≤ 'Z') || isAsciiDigit c

/-- `str::split_once` at a character: the parts before and after its first occurrence. -/
def splitOnce (sep : Char) : List Char → Option (List Char × List Char)
  | [] => none
  | c :: cs =>
    if c = sep then some ([], cs) else (splitOnce sep cs).map fun p => (c :: p.1, p.2)

/-- `str::rsplit_once` at a character: the parts around its last occurrence. -/
def rsplitOnce (sep : Char) (cs : List Char) : Option (List Char × List Char) :=
  (splitOnce sep cs.reverse).map fun p => (p.2.reverse, p.1.reverse)

/-- `String::truncate`, back to a character boundary: the first characters that fit in `room`
bytes. -/
def truncateAt (room : Nat) : List Char → List Char
  | [] => []
  | c :: cs => if c.utf8Size ≤ room then c :: truncateAt (room - c.utf8Size) cs else []

/-- Trimming a line gives its text, when that starts and ends with no whitespace. -/
theorem trim_line {a b : Char} {cs : List Char} (ha : isWhitespace a = false)
    (hb : isWhitespace b = false) : trim (a :: (cs ++ [b]) ++ ['\n']) = a :: (cs ++ [b]) := by
  have hn : isWhitespace '\n' = true := by decide
  rw [trim, List.cons_append, List.dropWhile_cons_of_neg (by simp [ha]), ← List.cons_append,
    List.rdropWhile_concat_pos _ _ _ hn, ← List.cons_append,
    List.rdropWhile_concat_neg _ _ _ (by simp [hb])]

/-! ## Case folding -/

theorem toNat_toLower (c : Char) :
    c.toLower.toNat = if 65 ≤ c.toNat ∧ c.toNat ≤ 90 then c.toNat + 32 else c.toNat := by
  have hiff : c.val ≥ 'A'.val ∧ c.val ≤ 'Z'.val ↔ 65 ≤ c.toNat ∧ c.toNat ≤ 90 := by
    simp only [ge_iff_le, UInt32.le_iff_toNat_le]
    exact Iff.rfl
  unfold Char.toLower
  split
  · rename_i h
    have h90 := (hiff.mp h).2
    have h32 : ('a'.val - 'A'.val).toNat = 32 := by decide
    have hc : c.val.toNat = c.toNat := rfl
    rw [if_pos (hiff.mp h)]
    show (c.val + ('a'.val - 'A'.val)).toNat = _
    rw [UInt32.toNat_add, h32]
    omega
  · rename_i h
    rw [if_neg fun hc => h (hiff.mpr hc)]

theorem toLower_toLower (c : Char) : c.toLower.toLower = c.toLower := by
  apply Char.toNat_inj.mp
  rw [toNat_toLower c.toLower, toNat_toLower c]
  split_ifs <;> omega

/-- Folding makes no character below the letters, and moves none. -/
theorem toLower_eq_iff {c d : Char} (hd : d.toNat < 65) : c.toLower = d ↔ c = d := by
  rw [← Char.toNat_inj, ← Char.toNat_inj, toNat_toLower]
  split_ifs <;> omega

theorem mem_map_toLower {cs : List Char} {d : Char} (hd : d.toNat < 65) :
    d ∈ cs.map Char.toLower ↔ d ∈ cs := by
  simp [toLower_eq_iff hd]

theorem asciiLower_asciiLower (s : String) : asciiLower (asciiLower s) = asciiLower s := by
  simp only [asciiLower, String.toList_ofList, List.map_map, Function.comp_def, toLower_toLower]

/-! ## Splitting at a character -/

theorem splitOnce_eq_some_iff {sep : Char} {cs : List Char} {p : List Char × List Char} :
    splitOnce sep cs = some p ↔ cs = p.1 ++ sep :: p.2 ∧ sep ∉ p.1 := by
  obtain ⟨as, bs⟩ := p
  induction cs generalizing as with
  | nil => simp [splitOnce]
  | cons c cs ih =>
    rw [splitOnce]
    by_cases hc : c = sep
    · rw [if_pos hc, hc]
      cases as with
      | nil => simp [eq_comm]
      | cons a as => simp +contextual [eq_comm]
    · rw [if_neg hc]
      cases as with
      | nil => simp [hc]
      | cons a as =>
        have hsplit := ih as
        have hsep : sep ≠ c := Ne.symm hc
        simp only [Option.map_eq_some_iff, Prod.exists, Prod.mk.injEq, List.cons.injEq,
          List.cons_append, List.mem_cons, not_or] at hsplit ⊢
        constructor
        · rintro ⟨as', bs', h, ⟨rfl, rfl⟩, rfl⟩
          obtain ⟨heq, hmem⟩ := hsplit.mp h
          exact ⟨⟨rfl, heq⟩, hsep, hmem⟩
        · rintro ⟨⟨rfl, heq⟩, -, hmem⟩
          exact ⟨as, bs, hsplit.mpr ⟨heq, hmem⟩, ⟨rfl, rfl⟩, rfl⟩

theorem eq_of_splitOnce {sep : Char} {cs : List Char} {p : List Char × List Char}
    (h : splitOnce sep cs = some p) : cs = p.1 ++ sep :: p.2 :=
  (splitOnce_eq_some_iff.mp h).1

theorem mem_of_splitOnce {sep : Char} {cs : List Char} {p : List Char × List Char}
    (h : splitOnce sep cs = some p) : sep ∈ cs := by
  rw [eq_of_splitOnce h]
  exact List.mem_append_right _ List.mem_cons_self

theorem rsplitOnce_eq_some_iff {sep : Char} {cs : List Char} {p : List Char × List Char} :
    rsplitOnce sep cs = some p ↔ cs = p.1 ++ sep :: p.2 ∧ sep ∉ p.2 := by
  simp only [rsplitOnce, Option.map_eq_some_iff, splitOnce_eq_some_iff]
  constructor
  · rintro ⟨q, ⟨hcs, hmem⟩, rfl⟩
    have hrev := congrArg List.reverse hcs
    simp only [List.reverse_reverse, List.reverse_append, List.reverse_cons, List.append_assoc,
      List.singleton_append] at hrev
    exact ⟨hrev, by simpa using hmem⟩
  · rintro ⟨hcs, hmem⟩
    refine ⟨(p.2.reverse, p.1.reverse), ⟨?_, by simpa using hmem⟩, by simp⟩
    simp [hcs]

theorem splitOnce_map_toLower {sep : Char} (hs : sep.toNat < 65) (cs : List Char) :
    splitOnce sep (cs.map Char.toLower) =
      (splitOnce sep cs).map fun p => (p.1.map Char.toLower, p.2.map Char.toLower) := by
  induction cs with
  | nil => rfl
  | cons c cs ih =>
    simp only [List.map_cons, splitOnce, toLower_eq_iff hs]
    split_ifs
    · rfl
    · simp [ih, Function.comp_def]

end Wires
