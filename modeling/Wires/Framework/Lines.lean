import Mathlib.Data.List.Basic
import Mathlib.Tactic.Common

/-!
# Lines in chunks

`splitLines` cuts a list at a separator: the lines it ends, and the tail behind
the last of them. The same list may come in chunks, none of them empty:
`joined` is the list they are chunks of, and `EndsAt` says where they end.
`unread` puts the rest of a chunk back.
-/

namespace Wires

variable {α : Type}

/-! ## Lines -/

/-- The lines a separator ends, and what is left. -/
def splitLines [DecidableEq α] (sep : α) : List α → List (List α) × List α
  | [] => ([], [])
  | a :: as =>
    let (ls, tail) := splitLines sep as
    if a = sep then ([] :: ls, tail)
    else
      match ls with
      | [] => ([], a :: tail)
      | l :: ls => ((a :: l) :: ls, tail)

section

variable [DecidableEq α] {sep : α} {l : List α}

theorem splitLines_of_notMem (h : sep ∉ l) : splitLines sep l = ([], l) := by
  induction l with
  | nil => rfl
  | cons a as ih =>
    have ha : a ≠ sep := fun heq => h (by simp [heq])
    rw [splitLines, ih fun hmem => h (List.mem_cons_of_mem _ hmem)]
    simp [ha]

theorem splitLines_append (h : sep ∉ l) (rest : List α) : splitLines sep (l ++ sep :: rest) =
    (l :: (splitLines sep rest).1, (splitLines sep rest).2) := by
  induction l with
  | nil => simp [splitLines]
  | cons a as ih =>
    have ha : a ≠ sep := fun heq => h (by simp [heq])
    rw [List.cons_append, splitLines, ih fun hmem => h (List.mem_cons_of_mem _ hmem)]
    simp [ha]

end

/-- The place of the first separator cuts a list there. -/
theorem split_of_idxOf? [DecidableEq α] {sep : α} {as : List α} {n : Nat} (h : as.idxOf? sep = some n) :
    as = as.take n ++ sep :: as.drop (n + 1) ∧ sep ∉ as.take n := by
  induction as generalizing n with
  | nil => cases h
  | cons a as ih =>
    rw [List.idxOf?_cons] at h
    split at h
    · rename_i ha
      obtain rfl : 0 = n := by simpa using h
      simpa using beq_iff_eq.mp ha
    · rename_i ha
      obtain ⟨m, hm, rfl⟩ := Option.map_eq_some_iff.mp h
      obtain ⟨heq, hnot⟩ := ih hm
      refine ⟨?_, ?_⟩
      · rw [List.take_succ_cons, List.drop_succ_cons, List.cons_append, ← heq]
      · rw [List.take_succ_cons, List.mem_cons, not_or]
        exact ⟨fun hsep => ha (by simp [hsep]), hnot⟩

/-- Two lists cut at their first separator agree on both parts. -/
theorem append_sep_inj {sep : α} {l l' rest rest' : List α} (h : sep ∉ l) (h' : sep ∉ l')
    (heq : l ++ sep :: rest = l' ++ sep :: rest') : l = l' ∧ rest = rest' := by
  induction l generalizing l' with
  | nil =>
    cases l' with
    | nil => exact ⟨rfl, (List.cons.inj heq).2⟩
    | cons a as =>
      have ha : sep = a := (List.cons.inj heq).1
      exact absurd (by simp [ha]) h'
  | cons a as ih =>
    cases l' with
    | nil =>
      have ha : a = sep := (List.cons.inj heq).1
      exact absurd (by simp [ha]) h
    | cons b bs =>
      obtain ⟨hab, hrest⟩ := List.cons.inj heq
      obtain ⟨has, hr⟩ := ih (fun hm => h (List.mem_cons_of_mem _ hm))
        (fun hm => h' (List.mem_cons_of_mem _ hm)) hrest
      exact ⟨by rw [hab, has], hr⟩

/-! ## Chunks -/

/-- What one read brings. -/
abbrev Chunk (α : Type) := { bs : List α // bs ≠ [] }

/-- The list the chunks are of. -/
def joined (cs : List (Chunk α)) : List α := cs.flatMap Subtype.val

/-- Some of the chunks, from the first on, end there. -/
def EndsAt (cs : List (Chunk α)) (n : Nat) : Prop := ∃ ds, ds <+: cs ∧ (joined ds).length = n

/-- What is left of a chunk stands before the chunks to come. -/
def unread [DecidableEq α] (bs : List α) (cs : List (Chunk α)) : List (Chunk α) :=
  if h : bs = [] then cs else ⟨bs, h⟩ :: cs

@[simp] theorem joined_nil : joined ([] : List (Chunk α)) = [] := rfl

@[simp] theorem joined_cons (c : Chunk α) (cs : List (Chunk α)) :
    joined (c :: cs) = c.val ++ joined cs := rfl

@[simp] theorem joined_unread [DecidableEq α] (bs : List α) (cs : List (Chunk α)) :
    joined (unread bs cs) = bs ++ joined cs := by
  unfold unread
  split
  · rename_i h
    rw [h, List.nil_append]
  · rfl

theorem endsAt_joined (cs : List (Chunk α)) : EndsAt cs (joined cs).length :=
  ⟨cs, List.prefix_rfl, rfl⟩

theorem joined_append (cs ds : List (Chunk α)) : joined (cs ++ ds) = joined cs ++ joined ds :=
  List.flatMap_append

theorem endsAt_concat {c : Chunk α} {cs : List (Chunk α)} {n : Nat} (h : EndsAt (cs ++ [c]) n) :
    n ≤ (joined cs).length ∨ n = (joined cs).length + c.val.length := by
  obtain ⟨ds, hds, hn⟩ := h
  rcases List.prefix_concat_iff.mp hds with rfl | ⟨es, rfl⟩
  · right
    rw [← hn, joined_append, List.length_append, joined_cons, joined_nil, List.append_nil]
  · left
    rw [joined_append, List.length_append]
    omega

theorem endsAt_cons {c : Chunk α} {cs : List (Chunk α)} {n : Nat} :
    EndsAt (c :: cs) n ↔ n = 0 ∨ ∃ m, n = c.val.length + m ∧ EndsAt cs m := by
  constructor
  · rintro ⟨ds, hds, hn⟩
    cases ds with
    | nil => exact .inl hn.symm
    | cons d ds =>
      obtain ⟨hdc, hds⟩ := List.cons_prefix_cons.mp hds
      refine .inr ⟨(joined ds).length, ?_, ds, hds, rfl⟩
      rw [← hn, joined_cons, List.length_append, hdc]
  · rintro (rfl | ⟨m, rfl, ds, hds, hm⟩)
    · exact ⟨[], List.nil_prefix, rfl⟩
    · exact ⟨c :: ds, List.cons_prefix_cons.mpr ⟨rfl, hds⟩, by
        rw [joined_cons, List.length_append, hm]⟩

/-- Chunks whose first is read in part end where they did. -/
theorem endsAt_unread [DecidableEq α] {c : Chunk α} {cs : List (Chunk α)} {as bs : List α} {n : Nat}
    (hc : c.val = as ++ bs) (hn : 0 < n) : EndsAt (unread bs cs) n ↔ EndsAt (c :: cs) (as.length + n) := by
  have hlength : c.val.length = as.length + bs.length := by rw [hc, List.length_append]
  rw [endsAt_cons, hlength]
  unfold unread
  split
  · rename_i h
    rw [h, List.length_nil]
    constructor
    · exact fun hm => .inr ⟨n, by omega, hm⟩
    · rintro (h0 | ⟨m, hm, hends⟩)
      · omega
      · rwa [show n = m by omega]
  · rw [endsAt_cons]
    constructor
    · rintro (h0 | ⟨m, hm, hends⟩)
      · omega
      · have hm : n = bs.length + m := hm
        exact .inr ⟨m, by omega, hends⟩
    · rintro (h0 | ⟨m, hm, hends⟩)
      · omega
      · exact .inr ⟨m, show n = bs.length + m by omega, hends⟩

end Wires
