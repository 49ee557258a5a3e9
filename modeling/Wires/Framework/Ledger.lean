import Mathlib.Data.List.Perm.Basic
import Mathlib.Data.List.Basic
import Mathlib.Tactic.Common

/-!
# The accounts of a queue

What a queue held, what joined it at the back, what left it and what it holds
now are its account over a while: `Accounts`. It says that nothing is lost or
doubled, and that what is left stands in the order it came in. Accounts of one
while and the next make up that of both (`Accounts.trans`), and each way to
change a queue has its own (`join`, `overflow`, `part`, `clear`).
-/

namespace Wires

universe u

variable {α : Type u} {a b c came came' gone gone' : List α}

/-- From `before`, with `came` behind it and without `gone`, to `after`. -/
structure Accounts (before came gone after : List α) : Prop where
  order : after.Sublist (before ++ came)
  once : (before ++ came).Perm (gone ++ after)

namespace Accounts

theorem refl (a : List α) : Accounts a [] [] a := by
  refine ⟨?_, ?_⟩ <;> simp

theorem trans (h : Accounts a came gone b) (h' : Accounts b came' gone' c) :
    Accounts a (came ++ came') (gone ++ gone') c where
  order := by
    rw [← List.append_assoc]
    exact h'.order.trans (h.order.append_right came')
  once := by
    have hfirst := h.once.append_right came'
    have hthen := h'.once.append_left gone
    rw [List.append_assoc, List.append_assoc] at hfirst
    rw [List.append_assoc]
    exact hfirst.trans hthen

theorem join (a : List α) (x : α) : Accounts a [x] [] (a ++ [x]) := ⟨.refl _, .refl _⟩

/-- The oldest leaves as another joins. -/
theorem overflow {x y : α} (h : a ++ [x] = y :: b) : Accounts a [x] [y] b where
  order := h ▸ List.sublist_cons_self y b
  once := h ▸ .refl _

/-- Those that `p` picks leave. -/
theorem part (p : α → Bool) (a : List α) :
    Accounts a [] (a.filter p) (a.filter fun x => !p x) where
  order := by
    rw [List.append_nil]
    exact List.filter_sublist
  once := by
    rw [List.append_nil]
    exact (List.filter_append_perm p a).symm

theorem clear (a : List α) : Accounts a [] a [] := by
  refine ⟨?_, ?_⟩ <;> simp

end Accounts

/-- What the last entry of a log gives is new, where no two give the same. -/
theorem notMem_of_nodup {β : Type*} {f : α → Option β} {xs : List α} {x : α} {y : β}
    (h : ((xs ++ [x]).filterMap f).Nodup) (hx : f x = some y) : y ∉ xs.filterMap f := by
  rw [List.filterMap_append, List.nodup_append] at h
  intro hy
  exact h.2.2 y hy y (by simp [hx]) rfl

/-- What stands in a log, in this order, once another entry is added. -/
theorem sublist_concat_iff {l ds : List α} {d e : α} :
    (ds ++ [d]).Sublist (l ++ [e]) ↔ (ds ++ [d]).Sublist l ∨ ds.Sublist l ∧ d = e := by
  constructor
  · intro h
    obtain ⟨l₁, l₂, heq, h₁, h₂⟩ := List.sublist_append_iff.mp h
    rcases List.sublist_singleton.mp h₂ with rfl | rfl
    · rw [List.append_nil] at heq
      exact .inl (heq ▸ h₁)
    · obtain ⟨rfl, hd⟩ := List.append_inj' heq rfl
      exact .inr ⟨h₁, (List.cons.inj hd).1⟩
  · rintro (h | ⟨h, rfl⟩)
    · exact List.sublist_append_of_sublist_left h
    · exact h.append_right _

/-- An entry of a longer log is the new one, or stands in the log before. -/
theorem split_concat {l before after : List α} {x y : α} (h : l ++ [x] = before ++ y :: after) :
    before = l ∧ y = x ∧ after = [] ∨ ∃ rest, after = rest ++ [x] ∧ l = before ++ y :: rest := by
  rcases List.eq_nil_or_concat after with rfl | ⟨rest, z, rfl⟩
  · obtain ⟨rfl, heq⟩ := List.append_inj' h rfl
    exact .inl ⟨rfl, (List.singleton_inj.mp heq).symm, rfl⟩
  · rw [List.concat_eq_append, ← List.cons_append, ← List.append_assoc] at h
    obtain ⟨heq, hx⟩ := List.append_inj' h rfl
    obtain rfl := List.singleton_inj.mp hx
    exact .inr ⟨rest, List.concat_eq_append, heq⟩

/-- What holds of every entry of a log and the entries before it holds when another is added. -/
theorem of_split_concat {P : List α → α → Prop} {l : List α} {x : α}
    (h : ∀ before y after, l = before ++ y :: after → P before y) (hx : P l x) :
    ∀ before y after, l ++ [x] = before ++ y :: after → P before y := by
  intro before y after heq
  rcases split_concat heq with ⟨rfl, rfl, -⟩ | ⟨rest, -, hl⟩
  · exact hx
  · exact h before y rest hl

end Wires
