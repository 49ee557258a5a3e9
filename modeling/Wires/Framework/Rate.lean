import Mathlib.Algebra.Order.Group.Defs
import Mathlib.Data.List.Basic
import Mathlib.Tactic.Common

/-!
# How often something happens

The times of what happened, the newest first, are `Spaced` when none is
earlier than the one before it, and of any three in a row the last is at least
`w` after the first. No window of length `w` then holds more than two
(`Spaced.length_window`). A time can be added when it is `w` after the newest,
or the newest two are not `Quick` (`Spaced.cons`).
-/

namespace Wires

universe u

variable {α : Type u} [AddCommGroup α] [LinearOrder α] [IsOrderedAddMonoid α] {w a x : α}
  {ts : List α}

/-- The newest two are less than `w` apart. -/
def Quick (w : α) : List α → Prop
  | a :: b :: _ => a < b + w
  | _ => False

/-- Of any three in a row the last is at least `w` after the first. -/
def Spaced (w : α) : List α → Prop
  | a :: b :: ts => b ≤ a ∧ (∀ c ∈ ts.head?, c + w ≤ a) ∧ Spaced w (b :: ts)
  | _ => True

/-- The times in the window of length `w` from `x`. -/
def inWindow (x w : α) (ts : List α) : List α := ts.filter fun t => x ≤ t ∧ t < x + w

omit [IsOrderedAddMonoid α] in
theorem Spaced.tail (h : Spaced w (a :: ts)) : Spaced w ts := by
  cases ts with
  | nil => trivial
  | cons b ts => exact h.2.2

omit [IsOrderedAddMonoid α] in
theorem Spaced.le_head (h : Spaced w (a :: ts)) : ∀ t ∈ ts, t ≤ a := by
  induction ts generalizing a with
  | nil => simp
  | cons b ts ih =>
    intro t ht
    rcases List.mem_cons.mp ht with rfl | ht
    · exact h.1
    · exact (ih h.2.2 t ht).trans h.1

/-- Another time is `w` after the newest, or the newest two are `w` apart. -/
theorem Spaced.cons (h : Spaced w ts) (hle : ∀ b ∈ ts.head?, b ≤ a)
    (hgap : ∀ b ∈ ts.head?, b + w ≤ a ∨ ¬Quick w ts) : Spaced w (a :: ts) := by
  match ts, h, hle, hgap with
  | [], _, _, _ => trivial
  | [b], _, hle, _ => exact ⟨hle b rfl, nofun, trivial⟩
  | b :: c :: ts, h, hle, hgap =>
    refine ⟨hle b rfl, fun d hd => ?_, h⟩
    obtain rfl : c = d := Option.some.inj hd
    rcases hgap b rfl with hslow | hquick
    · exact (add_le_add_left h.1 w).trans hslow
    · exact (not_lt.mp hquick).trans (hle b rfl)

/-- From the third on, none is in a window that the first is in. -/
theorem Spaced.window_eq_nil {b c : α} (h : Spaced w (a :: b :: c :: ts)) (ha : a < x + w) :
    inWindow x w (c :: ts) = [] := by
  refine List.filter_eq_nil_iff.mpr fun t ht => ?_
  have hle : t ≤ c := by
    rcases List.mem_cons.mp ht with rfl | ht
    · exact le_rfl
    · exact h.2.2.tail.le_head t ht
  have hlt : t + w < x + w := ((add_le_add_left hle w).trans (h.2.1 c rfl)).trans_lt ha
  have hbefore : t < x := lt_of_add_lt_add_right hlt
  simp [hbefore.not_ge]

/-- No window holds more than two. -/
theorem Spaced.length_window (h : Spaced w ts) : (inWindow x w ts).length ≤ 2 := by
  induction ts with
  | nil => simp [inWindow]
  | cons a ts ih =>
    by_cases ha : x ≤ a ∧ a < x + w
    · have hfirst : inWindow x w (a :: ts) = a :: inWindow x w ts := by simp [inWindow, ha]
      have hrest : (inWindow x w ts).length ≤ 1 := by
        match ts, h with
        | [], _ => simp [inWindow]
        | [b], _ => exact List.length_filter_le _ _
        | b :: c :: ts, h =>
          have hnil : inWindow x w (b :: c :: ts) = inWindow x w [b] := by
            have hold := h.window_eq_nil ha.2
            unfold inWindow at hold ⊢
            rw [show b :: c :: ts = [b] ++ c :: ts from rfl, List.filter_append, hold,
              List.append_nil]
          rw [hnil]
          exact List.length_filter_le _ _
      rw [hfirst, List.length_cons]
      omega
    · have hskip : inWindow x w (a :: ts) = inWindow x w ts := by simp [inWindow, ha]
      rw [hskip]
      exact ih h.tail

end Wires
