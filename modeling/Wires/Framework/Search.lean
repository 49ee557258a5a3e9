import Mathlib.Data.List.Infix
import Mathlib.Tactic.Common

/-!
# Searching a list

`findSlice needle` is where `needle` first is in a list (`position` of the windows
of its length). It is the same once more has come behind (`findSlice_append`), and
nothing that comes changes where it is once it is there whole
(`findSlice_of_append`), so that a buffer can be searched while it fills.
-/

namespace Wires

variable {α : Type} [DecidableEq α] {needle as bs : List α} {i : Nat}

/-- Where `needle`, which is not empty, first is. -/
def findSlice (needle : List α) : List α → Option Nat
  | [] => none
  | a :: as => if needle <+: a :: as then some 0 else (findSlice needle as).map (· + 1)

theorem length_le_of_findSlice (h : findSlice needle as = some i) : i + needle.length ≤ as.length := by
  induction as generalizing i with
  | nil => cases h
  | cons a as ih =>
    rw [findSlice] at h
    split_ifs at h with hp
    · obtain rfl := Option.some.inj h
      have hle := hp.length_le
      omega
    · obtain ⟨j, hj, rfl⟩ := Option.map_eq_some_iff.mp h
      have hle := ih hj
      rw [List.length_cons]
      omega

theorem findSlice_append (h : findSlice needle as = some i) (bs : List α) :
    findSlice needle (as ++ bs) = some i := by
  induction as generalizing i with
  | nil => cases h
  | cons a as ih =>
    rw [List.cons_append, findSlice]
    rw [findSlice] at h
    split_ifs at h with hp
    · have hp' : needle <+: a :: (as ++ bs) := hp.trans (List.prefix_append (a :: as) bs)
      rw [if_pos hp']
      exact h
    · obtain ⟨j, hj, rfl⟩ := Option.map_eq_some_iff.mp h
      -- What is further on is there whole, so nothing began earlier.
      have hlong := length_le_of_findSlice hj
      have hnot : ¬needle <+: a :: (as ++ bs) := by
        intro hp'
        apply hp
        apply List.prefix_of_prefix_length_le hp' (List.prefix_append (a :: as) bs)
        rw [List.length_cons]
        omega
      rw [if_neg hnot, ih hj]
      rfl

theorem findSlice_of_append (h : findSlice needle (as ++ bs) = some i) (hle : i + needle.length ≤ as.length)
    (hne : needle ≠ []) : findSlice needle as = some i := by
  induction as generalizing i with
  | nil =>
    have hpos := List.length_pos_of_ne_nil hne
    rw [List.length_nil] at hle
    omega
  | cons a as ih =>
    rw [List.cons_append, findSlice] at h
    rw [findSlice]
    split_ifs at h with hp
    · obtain rfl := Option.some.inj h
      have hp' : needle <+: a :: as :=
        List.prefix_of_prefix_length_le hp (List.prefix_append (a :: as) bs) (by omega)
      rw [if_pos hp']
    · obtain ⟨j, hj, rfl⟩ := Option.map_eq_some_iff.mp h
      have hnot : ¬needle <+: a :: as := fun hp' => hp (hp'.trans (List.prefix_append (a :: as) bs))
      rw [List.length_cons] at hle
      rw [if_neg hnot, ih hj (by omega)]
      rfl

end Wires
