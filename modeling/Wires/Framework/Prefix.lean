import Wires.Framework.Lines

/-!
# The longest prefix

`Longest P l p` is the prefix `p` of `l` that has `P` and that every other
with `P` begins. `lineCount` counts the lines of a list, an unfinished last
one with them.
-/

namespace Wires

variable {α : Type} {P Q : List α → Prop} {a sep : α} {l p q : List α} {n : Nat}

/-! ## Longest prefixes -/

/-- The prefix of `l` with `P` that is not to be made longer. -/
structure Longest (P : List α → Prop) (l p : List α) : Prop where
  isPrefix : p <+: l
  fits : P p
  longest : ∀ q, q <+: l → P q → q <+: p

theorem Longest.eq (h : Longest P l p) (h' : Longest P l q) : p = q := by
  have hle := (h'.longest p h.isPrefix h.fits).length_le
  exact (h.longest q h'.isPrefix h'.fits).eq_of_length_le hle |>.symm

theorem Longest.self (h : P l) : Longest P l l := ⟨List.prefix_refl l, h, fun _ hq _ => hq⟩

/-- Of a prefix that is the longest with one thing, the longest with another is the longest with
both, where what begins it has the first. -/
theorem Longest.and (h : Longest P l p) (h' : Longest Q p q) (hP : ∀ r, r <+: p → P p → P r) :
    Longest (fun r => P r ∧ Q r) l q :=
  ⟨h'.isPrefix.trans h.isPrefix, ⟨hP q h'.isPrefix h.fits, h'.fits⟩,
    fun r hr hPQ => h'.longest r (h.longest r hr hPQ.1) hPQ.2⟩

/-! ## Lines -/

variable [DecidableEq α]

/-- How many lines there are: those that are ended, and what is left. -/
def lineCount (sep : α) (l : List α) : Nat :=
  (splitLines sep l).1.length + if (splitLines sep l).2 = [] then 0 else 1

theorem lineCount_cons (sep a : α) (l : List α) :
    lineCount sep (a :: l) = if a = sep then lineCount sep l + 1 else max 1 (lineCount sep l) := by
  unfold lineCount
  rw [splitLines]
  cases hsplit : splitLines sep l with
  | mk ls tail =>
    by_cases ha : a = sep
    · simp only [if_pos ha, List.length_cons]
      omega
    · cases ls with
      | nil =>
        simp only [if_neg ha, List.length_nil, reduceCtorEq, if_false]
        split_ifs
        · rfl
        · rfl
      | cons l' ls =>
        simp only [if_neg ha, List.length_cons]
        omega

/-- What begins a list has no more lines. -/
theorem lineCount_mono (h : p <+: l) : lineCount sep p ≤ lineCount sep l := by
  induction p generalizing l with
  | nil => exact Nat.zero_le _
  | cons a as ih =>
    cases l with
    | nil => cases List.prefix_nil.mp h
    | cons b bs =>
      obtain ⟨rfl, hrest⟩ := List.cons_prefix_cons.mp h
      have hle := ih hrest
      rw [lineCount_cons, lineCount_cons]
      split_ifs
      · omega
      · omega

/-- The first `n` lines, of which the first element is the first. -/
theorem Longest.cons_lines (h : Longest (fun p => lineCount sep p ≤ if a = sep then n else n + 1) l p) :
    Longest (fun p => lineCount sep p ≤ n + 1) (a :: l) (a :: p) := by
  have hcons : ∀ q, lineCount sep (a :: q) ≤ n + 1 ↔ lineCount sep q ≤ if a = sep then n else n + 1 := by
    intro q
    rw [lineCount_cons]
    split_ifs
    · omega
    · omega
  refine ⟨List.cons_prefix_cons.mpr ⟨rfl, h.isPrefix⟩, (hcons p).mpr h.fits, fun q hq hlines => ?_⟩
  cases q with
  | nil => exact List.nil_prefix
  | cons b q =>
    obtain ⟨rfl, hrest⟩ := List.cons_prefix_cons.mp hq
    exact List.cons_prefix_cons.mpr ⟨rfl, h.longest q hrest ((hcons q).mp hlines)⟩

/-- No line is nothing. -/
theorem Longest.no_lines : Longest (fun p => lineCount sep p ≤ 0) l [] := by
  refine ⟨List.nil_prefix, Nat.le_refl 0, fun q _ hlines => ?_⟩
  cases q with
  | nil => exact List.nil_prefix
  | cons b q =>
    rw [lineCount_cons] at hlines
    split_ifs at hlines
    · omega
    · omega

end Wires
