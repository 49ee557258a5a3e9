import Mathlib.Algebra.Order.Monoid.Defs
import Mathlib.Data.List.Basic
import Mathlib.Tactic.Common

/-!
# Counting in windows

The requests of one client, the newest first, are `Windowed` when each is in a
window of length `w` that has an opening, the openings of two windows are `w`
apart, and a request is allowed where fewer than `cap` came before it in its
window. No window then allows more than `cap` (`Windowed.length_allowed`), and
no `w` in time more than twice as many (`Windowed.length_between`): it meets
two windows at most (`Windowed.two_openings`).
-/

namespace Wires

universe u

variable {α : Type u}

/-- A request: when it came, when its window opened, and whether it was allowed. -/
structure Counted (α : Type u) where
  at_ : α
  opened : α
  allowed : Bool

/-- The requests in the window that opened at `x`. -/
def inOpened [DecidableEq α] (x : α) (cs : List (Counted α)) : List (Counted α) :=
  cs.filter fun c => c.opened = x

variable [AddCommMonoid α] [LinearOrder α] {w x : α} {cap : Nat} {c d : Counted α}
  {cs : List (Counted α)}

/-- Each request is in its window, and is allowed where fewer than `cap` came before it there. -/
def Windowed (w : α) (cap : Nat) : List (Counted α) → Prop
  | [] => True
  | c :: cs => c.opened ≤ c.at_ ∧ c.at_ < c.opened + w ∧
      (∀ d ∈ cs, d.at_ ≤ c.at_ ∧ (d.opened = c.opened ∨ d.opened + w ≤ c.opened)) ∧
      (c.allowed = true ↔ (inOpened c.opened cs).length < cap) ∧ Windowed w cap cs

theorem Windowed.inside (h : Windowed w cap cs) (hc : c ∈ cs) :
    c.opened ≤ c.at_ ∧ c.at_ < c.opened + w := by
  induction cs with
  | nil => cases hc
  | cons d ds ih =>
    rcases List.mem_cons.mp hc with rfl | hc
    · exact ⟨h.1, h.2.1⟩
    · exact ih h.2.2.2.2 hc

/-- Two requests are in one window, or their windows opened `w` apart. -/
theorem Windowed.apart (h : Windowed w cap cs) (hc : c ∈ cs) (hd : d ∈ cs) :
    c.opened = d.opened ∨ c.opened + w ≤ d.opened ∨ d.opened + w ≤ c.opened := by
  induction cs with
  | nil => cases hc
  | cons e es ih =>
    rcases List.mem_cons.mp hc with rfl | hc
    · rcases List.mem_cons.mp hd with rfl | hd
      · exact .inl rfl
      · rcases (h.2.2.1 d hd).2 with heq | hlt
        · exact .inl heq.symm
        · exact .inr (.inr hlt)
    · rcases List.mem_cons.mp hd with heq | hd
      · rw [heq]
        rcases (h.2.2.1 c hc).2 with heq | hlt
        · exact .inl heq
        · exact .inr (.inl hlt)
      · exact ih h.2.2.2.2 hc hd

/-- No window allows more than `cap`. -/
theorem Windowed.length_allowed (h : Windowed w cap cs) (x : α) :
    ((inOpened x cs).filter (·.allowed)).length ≤ cap := by
  induction cs with
  | nil => simp [inOpened]
  | cons c cs ih =>
    have hrest := ih h.2.2.2.2
    by_cases hx : c.opened = x
    · have hcons : inOpened x (c :: cs) = c :: inOpened x cs := by simp [inOpened, hx]
      rw [hcons, List.filter_cons]
      split_ifs with hallowed
      · have hfew := h.2.2.2.1.mp hallowed
        have hle := List.length_filter_le (fun c : Counted α => c.allowed) (inOpened x cs)
        rw [hx] at hfew
        rw [List.length_cons]
        omega
      · exact hrest
    · have hskip : inOpened x (c :: cs) = inOpened x cs := by simp [inOpened, hx]
      rw [hskip]
      exact hrest

variable [IsOrderedCancelAddMonoid α]

/-- Of three windows whose openings are `w` apart, no `w` in time meets the first and the last. -/
theorem not_three {a b e : Counted α} (ha : a.at_ < a.opened + w) (he : e.opened ≤ e.at_)
    (hab : a.opened + w ≤ b.opened) (hbe : b.opened + w ≤ e.opened) (hx : x ≤ a.at_)
    (hw : e.at_ ≤ x + w) : False := by
  have hlt : x < b.opened := lt_of_le_of_lt hx (lt_of_lt_of_le ha hab)
  have hle : b.opened + w ≤ x + w := hbe.trans (he.trans hw)
  exact absurd (le_of_add_le_add_right hle) (not_le.mpr hlt)

/-- A `w` in time meets two windows at most. -/
theorem Windowed.two_openings (h : Windowed w cap cs) (x : α) : ∃ y z : α, ∀ c ∈ cs, x ≤ c.at_ →
    c.at_ ≤ x + w → c.opened = y ∨ c.opened = z := by
  by_cases htwo : ∃ c ∈ cs, ∃ d ∈ cs, (x ≤ c.at_ ∧ c.at_ ≤ x + w) ∧ (x ≤ d.at_ ∧ d.at_ ≤ x + w) ∧
      c.opened + w ≤ d.opened
  · obtain ⟨c, hc, d, hd, ⟨hxc, hcw⟩, ⟨hxd, hdw⟩, hcd⟩ := htwo
    refine ⟨c.opened, d.opened, fun e he hxe hew => ?_⟩
    have hinc := h.inside hc
    have hind := h.inside hd
    have hine := h.inside he
    rcases h.apart he hc with heq | hbefore | hafter
    · exact .inl heq
    · exact (not_three hine.2 hind.1 hbefore hcd hxe hdw).elim
    · rcases h.apart he hd with heq | hbefore' | hafter'
      · exact .inr heq
      · exact (not_three hinc.2 hind.1 hafter hbefore' hxc hdw).elim
      · exact (not_three hinc.2 hine.1 hcd hafter' hxc hew).elim
  · by_cases hone : ∃ c ∈ cs, x ≤ c.at_ ∧ c.at_ ≤ x + w
    · obtain ⟨c, hc, hxc, hcw⟩ := hone
      refine ⟨c.opened, c.opened, fun e he hxe hew => .inl ?_⟩
      rcases h.apart he hc with heq | hbefore | hafter
      · exact heq
      · exact (htwo ⟨e, he, c, hc, ⟨hxe, hew⟩, ⟨hxc, hcw⟩, hbefore⟩).elim
      · exact (htwo ⟨c, hc, e, he, ⟨hxc, hcw⟩, ⟨hxe, hew⟩, hafter⟩).elim
    · exact ⟨x, x, fun e he hxe hew => (hone ⟨e, he, hxe, hew⟩).elim⟩

/-- Those that one of two predicates picks are no more than each picks. -/
theorem length_filter_le_add {β : Type*} {p q r : β → Bool} {l : List β}
    (h : ∀ a ∈ l, p a = true → q a = true ∨ r a = true) :
    (l.filter p).length ≤ (l.filter q).length + (l.filter r).length := by
  induction l with
  | nil => simp
  | cons a l ih =>
    have hrest := ih fun b hb => h b (List.mem_cons_of_mem _ hb)
    have hgrows : ∀ s : β → Bool, (l.filter s).length ≤ ((a :: l).filter s).length := fun s =>
      ((List.sublist_cons_self a l).filter s).length_le
    have hq := hgrows q
    have hr := hgrows r
    by_cases hp : p a = true
    · rw [List.filter_cons_of_pos hp, List.length_cons]
      rcases h a List.mem_cons_self hp with hqa | hra
      · rw [List.filter_cons_of_pos hqa, List.length_cons]
        omega
      · rw [List.filter_cons_of_pos hra, List.length_cons]
        omega
    · rw [List.filter_cons_of_neg hp]
      omega

/-- No `w` in time allows more than twice `cap`. -/
theorem Windowed.length_between (h : Windowed w cap cs) (x : α) :
    (cs.filter fun c => c.allowed && (decide (x ≤ c.at_) && decide (c.at_ ≤ x + w))).length ≤
      2 * cap := by
  obtain ⟨y, z, htwo⟩ := h.two_openings x
  have hy := h.length_allowed y
  have hz := h.length_allowed z
  rw [inOpened, List.filter_filter] at hy hz
  have hsplit : ∀ c ∈ cs, (c.allowed && (decide (x ≤ c.at_) && decide (c.at_ ≤ x + w))) = true →
      (c.allowed && decide (c.opened = y)) = true ∨ (c.allowed && decide (c.opened = z)) = true := by
    intro c hc hin
    simp only [Bool.and_eq_true, decide_eq_true_eq] at hin ⊢
    rcases htwo c hc hin.2.1 hin.2.2 with heq | heq
    · exact .inl ⟨hin.1, heq⟩
    · exact .inr ⟨hin.1, heq⟩
  have hle := length_filter_le_add hsplit
  omega

end Wires
