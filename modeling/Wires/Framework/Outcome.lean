import Mathlib.Tactic.Common

/-!
# Results that carry an error

The Rust functions modelled here return `Result`, so their models return
`Except`. A guard clause (`if bad { return Err(e) }`) is `ensure`, and what a
successful run says about its steps is read off by `bind_eq_ok`,
`ensure_eq_ok` and `forEach_eq_ok`, without unfolding the monad.
-/

namespace Wires

universe u v

variable {ε : Type u} {α β : Type v}

/-- A guard clause: `Ok` when `c` holds, else the error `e`. -/
def ensure (c : Prop) [Decidable c] (e : ε) : Except ε Unit := if c then .ok () else .error e

@[simp] theorem ensure_eq_ok {c : Prop} [Decidable c] {e : ε} {u : Unit} :
    ensure c e = .ok u ↔ c := by
  by_cases h : c <;> simp [ensure, h]

@[simp] theorem ensure_eq_error {c : Prop} [Decidable c] {e e' : ε} :
    ensure c e = .error e' ↔ ¬c ∧ e = e' := by
  by_cases h : c <;> simp [ensure, h]

theorem ensure_of {c : Prop} [Decidable c] {e : ε} (h : c) : ensure c e = .ok () := if_pos h

@[simp] theorem bind_eq_ok {x : Except ε α} {f : α → Except ε β} {b : β} :
    (x >>= f) = .ok b ↔ ∃ a, x = .ok a ∧ f a = .ok b := by
  cases x <;> simp [bind, Except.bind]

theorem bind_eq_error {x : Except ε α} {f : α → Except ε β} {e : ε} :
    (x >>= f) = .error e ↔ x = .error e ∨ ∃ a, x = .ok a ∧ f a = .error e := by
  cases x <;> simp [bind, Except.bind]

@[simp] theorem map_eq_ok {x : Except ε α} {f : α → β} {b : β} :
    f <$> x = .ok b ↔ ∃ a, x = .ok a ∧ f a = b := by
  cases x <;> simp [Functor.map, Except.map]

@[simp] theorem exists_ok_unit {x : Except ε Unit} : (∃ u, x = .ok u) ↔ x = .ok () :=
  ⟨fun ⟨_, h⟩ => h, fun h => ⟨_, h⟩⟩

@[simp] theorem ok_bind {a : α} {f : α → Except ε β} : (Except.ok a >>= f) = f a := rfl

@[simp] theorem error_bind {e : ε} {f : α → Except ε β} : (Except.error e >>= f) = .error e := rfl

@[simp] theorem pure_eq_ok {a b : α} : (pure a : Except ε α) = .ok b ↔ a = b := by
  simp [pure, Except.pure]

@[simp] theorem throw_ne_ok {e : ε} {a : α} : (throw e : Except ε α) ≠ .ok a := nofun

/-- `?` on an `Option`: the value, or the error `e`. -/
def orError (o : Option α) (e : ε) : Except ε α :=
  match o with
  | some a => .ok a
  | none => .error e

@[simp] theorem orError_eq_ok {o : Option α} {e : ε} {a : α} : orError o e = .ok a ↔ o = some a := by
  cases o <;> simp [orError]

theorem orError_eq_error {o : Option α} {e e' : ε} : orError o e = .error e' ↔ o = none ∧ e = e' := by
  cases o <;> simp [orError]

@[simp] theorem orError_some {a : α} {e : ε} : orError (some a) e = .ok a := rfl

@[simp] theorem orError_none {e : ε} : orError (none : Option α) e = .error e := rfl

/-- Run a check on each element, stopping at the first error. -/
def forEach (f : α → Except ε Unit) : List α → Except ε Unit
  | [] => .ok ()
  | a :: as => do
    f a
    forEach f as

@[simp] theorem forEach_eq_ok {f : α → Except ε Unit} {as : List α} {u : Unit} :
    forEach f as = .ok u ↔ ∀ a ∈ as, f a = .ok () := by
  induction as with
  | nil => simp [forEach]
  | cons a as ih =>
    rw [forEach]
    cases h : f a with
    | ok u => simp [h, ih]
    | error e => simp [h, bind, Except.bind]

/-- Whether a run succeeded. -/
def isOk : Except ε α → Bool
  | .ok _ => true
  | .error _ => false

@[simp] theorem isOk_iff {x : Except ε α} : isOk x = true ↔ ∃ a, x = .ok a := by
  cases x <;> simp [isOk]

theorem isOk_unit_iff {x : Except ε Unit} : isOk x = true ↔ x = .ok () := by
  cases x <;> simp [isOk]

/-! ## What errors are like -/

/-- Every error a computation may end in is `P`. -/
def Errors (P : ε → Prop) (x : Except ε α) : Prop := ∀ e, x = .error e → P e

namespace Errors

variable {P : ε → Prop} {e : ε}

theorem ok (a : α) : Errors P (.ok a) := fun _ h => nomatch h

theorem error (h : P e) : Errors P (.error e : Except ε α) := fun _ he => Except.error.inj he ▸ h

theorem bind {x : Except ε α} {f : α → Except ε β} (hx : Errors P x) (hf : ∀ a, Errors P (f a)) :
    Errors P (x >>= f) := by
  intro e he
  rcases bind_eq_error.mp he with h | ⟨a, -, h⟩
  · exact hx e h
  · exact hf a e h

theorem ensure {c : Prop} [Decidable c] (h : P e) : Errors P (Wires.ensure c e) := fun _ he =>
  (ensure_eq_error.mp he).2 ▸ h

theorem orError {o : Option α} (h : P e) : Errors P (Wires.orError o e) := fun _ he =>
  (orError_eq_error.mp he).2 ▸ h

theorem forEach {f : α → Except ε Unit} {as : List α} (h : ∀ a, Errors P (f a)) :
    Errors P (Wires.forEach f as) := by
  induction as with
  | nil => exact ok ()
  | cons a as ih => exact bind (h a) fun _ => ih

end Errors

end Wires
