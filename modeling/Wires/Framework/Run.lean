import Mathlib.Order.Basic
import Mathlib.Data.List.Induction
import Mathlib.Tactic.Common

/-!
# Runs of a system

A system of concurrent parties is a step function: what an event does in a
state, or `none` where it cannot happen. Which events come, and in which
order, is the schedule: a list. `run` takes a schedule from a state, so a
statement about every run quantifies over every interleaving. `run_induction`
proves a property of the events so far and the state after them,
`run_invariant` one of the state alone, and `run_le` that a measure never goes
down.
-/

namespace Wires

universe u v

variable {S : Type u} {E : Type v} {step : S → E → Option S}

/-- The state after a schedule, if every event of it can happen. -/
def run (step : S → E → Option S) : S → List E → Option S
  | s, [] => some s
  | s, e :: es => (step s e).bind fun t => run step t es

@[simp] theorem run_nil {s t : S} : run step s [] = some t ↔ s = t := by
  simp [run]

@[simp] theorem run_cons {s t : S} {e : E} {es : List E} :
    run step s (e :: es) = some t ↔ ∃ u, step s e = some u ∧ run step u es = some t := by
  simp [run, Option.bind_eq_some_iff]

theorem run_append {s t : S} {es fs : List E} :
    run step s (es ++ fs) = some t ↔ ∃ u, run step s es = some u ∧ run step u fs = some t := by
  induction es generalizing s with
  | nil => simp
  | cons e es ih =>
    simp only [List.cons_append, run_cons, ih]
    constructor
    · rintro ⟨v, hv, u, hu, ht⟩
      exact ⟨u, ⟨v, hv, hu⟩, ht⟩
    · rintro ⟨u, ⟨v, hv, hu⟩, ht⟩
      exact ⟨v, hv, u, hu, ht⟩

theorem run_concat {s t : S} {e : E} {es : List E} :
    run step s (es ++ [e]) = some t ↔ ∃ u, run step s es = some u ∧ step u e = some t := by
  simp [run_append]

/-- Induction over a run, last event last: the property may speak of the events so far. -/
theorem run_induction {s : S} {motive : List E → S → Prop} (nil : motive [] s)
    (concat : ∀ es e t u, run step s es = some t → motive es t → step t e = some u →
      motive (es ++ [e]) u) {es : List E} {t : S} (h : run step s es = some t) : motive es t := by
  induction es using List.reverseRecOn generalizing t with
  | nil =>
    obtain rfl := run_nil.mp h
    exact nil
  | append_singleton es e ih =>
    obtain ⟨u, hu, he⟩ := run_concat.mp h
    exact concat es e u t hu (ih hu) he

/-- What every step keeps holds after a run. -/
theorem run_invariant {P : S → Prop} (hstep : ∀ s e t, P s → step s e = some t → P t) {s t : S}
    {es : List E} (hs : P s) (h : run step s es = some t) : P t :=
  run_induction (motive := fun _ t => P t) hs (fun _ e t u _ ht he => hstep t e u ht he) h

/-- What every step of a run keeps, when the run's steps meet a condition, holds after it. -/
theorem run_invariant_of {P : S → Prop} {C : S → E → Prop}
    (hstep : ∀ s e t, P s → C s e → step s e = some t → P t) {s t : S} {es : List E}
    (hs : P s) (hC : ∀ es₁ e es₂ u, es = es₁ ++ e :: es₂ → run step s es₁ = some u → C u e)
    (h : run step s es = some t) : P t := by
  refine run_induction (motive := fun es t =>
    (∀ es₁ e es₂ u, es = es₁ ++ e :: es₂ → run step s es₁ = some u → C u e) → P t)
    (fun _ => hs) (fun es e t u ht ih he hC => ?_) h hC
  refine hstep t e u (ih fun es₁ e' es₂ v heq hv => ?_) (hC es e [] t rfl ht) he
  exact hC es₁ e' (es₂ ++ [e]) v (by simp [heq]) hv

/-- A measure no step from a good state lowers is not lowered by a run. -/
theorem run_le {α : Type*} [Preorder α] {P : S → Prop} {f : S → α}
    (hP : ∀ s e t, P s → step s e = some t → P t)
    (hf : ∀ s e t, P s → step s e = some t → f s ≤ f t) {s t : S} {es : List E} (hs : P s)
    (h : run step s es = some t) : f s ≤ f t := by
  refine run_induction (motive := fun _ t => f s ≤ f t) le_rfl (fun es e t u ht hle he => ?_) h
  exact hle.trans (hf t e u (run_invariant hP hs ht) he)

/-- Every step of a run meets a condition. -/
def Along (step : S → E → Option S) (C : S → E → Prop) : S → List E → Prop
  | _, [] => True
  | s, e :: es => C s e ∧ ∀ t, step s e = some t → Along step C t es

instance decidableAlong {C : S → E → Prop} [∀ s e, Decidable (C s e)] :
    ∀ (es : List E) (s : S), Decidable (Along step C s es)
  | [], _ => isTrue trivial
  | e :: es, s =>
    match h : step s e with
    | none => decidable_of_iff (C s e)
        ⟨fun hC => ⟨hC, fun _ ht => absurd (h.symm.trans ht) nofun⟩, And.left⟩
    | some t =>
      have := decidableAlong (C := C) es t
      decidable_of_iff (C s e ∧ Along step C t es)
        ⟨fun hC => ⟨hC.1, fun _ hu => Option.some.inj (h.symm.trans hu) ▸ hC.2⟩,
          fun hC => ⟨hC.1, hC.2 t h⟩⟩

theorem Along.mono {C D : S → E → Prop} {s : S} {es : List E} (h : Along step C s es)
    (hCD : ∀ s e, C s e → D s e) : Along step D s es := by
  induction es generalizing s with
  | nil => trivial
  | cons e es ih => exact ⟨hCD s e h.1, fun t ht => ih (h.2 t ht)⟩

theorem along_append {C : S → E → Prop} {s : S} {es fs : List E} :
    Along step C s (es ++ fs) ↔
      Along step C s es ∧ ∀ t, run step s es = some t → Along step C t fs := by
  induction es generalizing s with
  | nil => simp [Along]
  | cons e es ih =>
    simp only [List.cons_append, Along, ih, run_cons]
    constructor
    · rintro ⟨hC, hall⟩
      exact ⟨⟨hC, fun t ht => (hall t ht).1⟩, fun u ⟨t, ht, hu⟩ => (hall t ht).2 u hu⟩
    · rintro ⟨⟨hC, hes⟩, hfs⟩
      exact ⟨hC, fun t ht => ⟨hes t ht, fun u hu => hfs u ⟨t, ht, hu⟩⟩⟩

/-- Where no event needs more of the state than it is given. -/
theorem along_of_forall {C : S → E → Prop} {s : S} {es : List E} (h : ∀ e ∈ es, ∀ t, C t e) :
    Along step C s es := by
  induction es generalizing s with
  | nil => trivial
  | cons e es ih =>
    exact ⟨h e List.mem_cons_self s, fun t _ => ih fun e' he' => h e' (List.mem_cons_of_mem _ he')⟩

/-- The condition, of each event and the state it comes in. -/
theorem along_iff {C : S → E → Prop} {s : S} {es : List E} : Along step C s es ↔
    ∀ es₁ e es₂ u, es = es₁ ++ e :: es₂ → run step s es₁ = some u → C u e := by
  induction es generalizing s with
  | nil => simp [Along]
  | cons e es ih =>
    simp only [Along, ih]
    constructor
    · rintro ⟨hC, hall⟩ es₁ e' es₂ u heq hu
      cases es₁ with
      | nil =>
        obtain ⟨rfl, rfl⟩ := List.cons.inj heq
        obtain rfl := run_nil.mp hu
        exact hC
      | cons first es₁ =>
        obtain ⟨rfl, rfl⟩ := List.cons.inj heq
        obtain ⟨t, ht, hrun⟩ := run_cons.mp hu
        exact hall t ht es₁ e' es₂ u rfl hrun
    · intro h
      refine ⟨h [] e es s rfl rfl, fun t ht es₁ e' es₂ u heq hu => ?_⟩
      exact h (e :: es₁) e' es₂ u (by rw [heq, List.cons_append]) (run_cons.mpr ⟨t, ht, hu⟩)

/-- What every step of a run keeps, when the run's steps meet a condition, holds after it. -/
theorem run_along {P : S → Prop} {C : S → E → Prop}
    (hstep : ∀ s e t, P s → C s e → step s e = some t → P t) {s t : S} {es : List E} (hs : P s)
    (hC : Along step C s es) (h : run step s es = some t) : P t := by
  induction es generalizing s with
  | nil =>
    obtain rfl := run_nil.mp h
    exact hs
  | cons e es ih =>
    obtain ⟨u, hu, hrun⟩ := run_cons.mp h
    exact ih (hstep s e u hs hC.1 hu) (hC.2 u hu) hrun

end Wires
