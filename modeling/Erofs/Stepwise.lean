import Mathlib

/-!
# Counted runs

A step function that may stop, taken a number of times.  `after step n s` is the state `n` steps
after `s`, if there is one.  The state after a number of steps is one at most, so that what is known
of a run at one count bounds every state the run comes to before.

The main results:

* `after_add` — a run is a run of its first steps and a run of the others;
* `after_step` — a run that goes on has a step from each of its states;
* `after_induct` — what holds at the start and is kept by each step of the run holds after it;
* `after_stops` — a run whose every step lowers a measure comes to a state it has no step from.
-/

namespace Stepwise

variable {σ : Type} {step : σ → Option σ} {s t u : σ} {m n : ℕ}

/-- The state `n` steps after `s`. -/
def after (step : σ → Option σ) : ℕ → σ → Option σ
  | 0, s => some s
  | n + 1, s => (after step n s).bind step

@[simp] theorem after_zero : after step 0 s = some s := rfl

theorem after_succ : after step (n + 1) s = some u ↔
    ∃ t, after step n s = some t ∧ step t = some u := Option.bind_eq_some_iff

theorem after_add (m n : ℕ) (s : σ) :
    after step (m + n) s = (after step m s).bind (after step n) := by
  induction n with
  | zero => simp [after]
  | succ n ih =>
    rw [← Nat.add_assoc, after, ih, Option.bind_assoc]
    rfl

/-- Two runs one after the other. -/
theorem after_trans (hm : after step m s = some t) (hn : after step n t = some u) :
    after step (m + n) s = some u := by
  rw [after_add, hm, Option.bind_some, hn]

/-- What holds at the start of a run and is kept by each of its steps holds after it. -/
theorem after_induct {P : ℕ → σ → Prop} (h0 : P 0 s)
    (hstep : ∀ n t u, after step n s = some t → P n t → step t = some u → P (n + 1) u) :
    ∀ {n t}, after step n s = some t → P n t := by
  intro n
  induction n with
  | zero =>
    rintro t ⟨⟩
    exact h0
  | succ n ih =>
    intro u hu
    obtain ⟨t, ht, htu⟩ := after_succ.1 hu
    exact hstep n t u ht (ih ht) htu

section Measure

variable {I : σ → Prop} {μ : σ → ℕ}

/-- A measure that every step lowers pays for the steps. -/
theorem after_paid (hstep : ∀ t u, I t → step t = some u → I u ∧ μ u < μ t) (hs : I s)
    (h : after step n s = some t) : I t ∧ n + μ t ≤ μ s := by
  refine after_induct (P := fun n t => I t ∧ n + μ t ≤ μ s) ⟨hs, by omega⟩ ?_ h
  rintro n t u - ⟨ht, hle⟩ hu
  obtain ⟨hu, hlt⟩ := hstep t u ht hu
  exact ⟨hu, by omega⟩

theorem after_stops (hstep : ∀ t u, I t → step t = some u → I u ∧ μ u < μ t) (hs : I s) :
    ∃ n t, after step n s = some t ∧ step t = none := by
  induction hμ : μ s using Nat.strong_induction_on generalizing s with
  | _ m ih =>
    cases hu : step s with
    | none => exact ⟨0, s, rfl, hu⟩
    | some u =>
      obtain ⟨hu', hlt⟩ := hstep s u hs hu
      obtain ⟨n, t, ht, hstop⟩ := ih (μ u) (hμ ▸ hlt) hu' rfl
      exact ⟨1 + n, t, after_trans (m := 1) hu ht, hstop⟩

end Measure

end Stepwise
