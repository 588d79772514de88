import Erofs.PathTree

/-!
# Overlaying a layer on a tree, one entry at a time

A layer is applied to a tree as a list of events, in the order they come: an entry is put
at a path, a path and everything below it is erased, or only what is below it.  This file
is a small library about such runs, over any names: what one event does to one path, and
what a whole run does, where the last event that touches a path decides.

The main results:

* `run_of_not_set` — a path no event sets is what it was, unless some event erases it;
* `run_of_set` — a path an event sets is what that event put there, unless a later event
  erases it;
* `lt_append_cons_iff`, `between_extension` — the order in which a walk visits paths.
-/

namespace Overlay

open PathTree

variable {E : Type*} [DecidableEq E]

/-- One event of a layer. -/
inductive Event (E : Type*)
  /-- An entry at a path, a directory or not. -/
  | put (p : List E) (isDir : Bool)
  /-- A path and everything below it is erased. -/
  | erase (p : List E)
  /-- What is below a path is erased. -/
  | clear (p : List E)

/-- The event sets the path `x`. -/
def Event.Sets (a : Event E) (x : List E) : Prop :=
  match a with
  | .put p _ => p = x
  | .erase _ => False
  | .clear _ => False

/-- The event takes the path `x` away.  An entry that is no directory leaves nothing below
it. -/
def Event.Erases (a : Event E) (x : List E) : Prop :=
  match a with
  | .put p b => b = false ∧ Below p x
  | .erase p => p <+: x
  | .clear p => Below p x

instance (a : Event E) (x : List E) : Decidable (a.Erases x) :=
  match a with
  | .put p b => inferInstanceAs (Decidable (b = false ∧ Below p x))
  | .erase p => inferInstanceAs (Decidable (p <+: x))
  | .clear p => inferInstanceAs (Decidable (Below p x))

/-- The tree after one event. -/
def apply (K : List E → Option Bool) (a : Event E) : List E → Option Bool :=
  match a with
  | .put p b => Function.update (if b then K else cut K p) p (some b)
  | .erase p => prune K p
  | .clear p => cut K p

/-- The tree after a list of events. -/
def run (K : List E → Option Bool) (l : List (Event E)) : List E → Option Bool := l.foldl apply K

theorem run_append (K : List E → Option Bool) (l l' : List (Event E)) :
    run K (l ++ l') = run (run K l) l' := List.foldl_append

theorem apply_of_erases {K : List E → Option Bool} {a : Event E} {x : List E} (h : a.Erases x) :
    apply K a x = none := by
  cases a with
  | put p b =>
    obtain ⟨rfl, hb⟩ := h
    simp only [apply]
    rw [Function.update_of_ne (fun e => hb.2 e.symm)]
    simp [cut, hb]
  | erase p => exact if_pos h
  | clear p => exact if_pos h

theorem apply_of_sets {K : List E → Option Bool} {p : List E} {b : Bool} :
    apply K (.put p b) p = some b := by
  simp [apply]

theorem apply_other {K : List E → Option Bool} {a : Event E} {x : List E} (hs : ¬ a.Sets x)
    (he : ¬ a.Erases x) : apply K a x = K x := by
  cases a with
  | put p b =>
    simp only [apply]
    rw [Function.update_of_ne (fun e => hs e.symm)]
    split_ifs with hb
    · rfl
    · exact if_neg (fun hbelow => he ⟨by simpa using hb, hbelow⟩)
  | erase p => exact if_neg he
  | clear p => exact if_neg he

/-- A path no event sets is what it was, unless some event erases it. -/
theorem run_of_not_set {l : List (Event E)} {x : List E} (hs : ∀ a ∈ l, ¬ a.Sets x)
    (K : List E → Option Bool) :
    ((∃ a ∈ l, a.Erases x) → run K l x = none) ∧ ((∀ a ∈ l, ¬ a.Erases x) → run K l x = K x) := by
  induction l generalizing K with
  | nil => exact ⟨fun ⟨a, ha, _⟩ => absurd ha List.not_mem_nil, fun _ => rfl⟩
  | cons a l ih =>
    obtain ⟨ih₁, ih₂⟩ := ih (fun b hb => hs b (by simp [hb])) (apply K a)
    refine ⟨?_, fun hno => ?_⟩
    · rintro ⟨b, hb, hbe⟩
      by_cases hl : ∃ c ∈ l, c.Erases x
      · exact ih₁ hl
      · -- Only the first event erases the path, and nothing sets it afterwards.
        push Not at hl
        rcases List.mem_cons.1 hb with rfl | hb
        · exact (ih₂ hl).trans (apply_of_erases hbe)
        · exact absurd hbe (hl b hb)
    · have := ih₂ fun b hb => hno b (by simp [hb])
      exact this.trans (apply_other (hs a (by simp)) (hno a (by simp)))

/-- A path an event sets is what that event put there, unless a later event erases it. -/
theorem run_of_set {l l' : List (Event E)} {p : List E} {b : Bool} (hs : ∀ a ∈ l', ¬ a.Sets p)
    (K : List E → Option Bool) :
    ((∃ a ∈ l', a.Erases p) → run K (l ++ .put p b :: l') p = none) ∧
      ((∀ a ∈ l', ¬ a.Erases p) → run K (l ++ .put p b :: l') p = some b) := by
  have happ : run K (l ++ .put p b :: l') = run (apply (run K l) (.put p b)) l' := by
    rw [run_append]
    rfl
  obtain ⟨h₁, h₂⟩ := run_of_not_set hs (apply (run K l) (.put p b))
  rw [happ]
  exact ⟨h₁, fun hno => (h₂ hno).trans apply_of_sets⟩

/-! ## The order of a walk -/

section Order

variable {E : Type*} [LinearOrder E]

theorem append_lt_append_iff (d : List E) {x y : List E} : d ++ x < d ++ y ↔ x < y := by
  induction d with
  | nil => rfl
  | cons a d ih => simp [ih]

/-- Two entries under one directory are visited, with all that is below them, in the order of
their names. -/
theorem lt_append_cons_iff (d : List E) {m n : E} (h : m ≠ n) (r s : List E) :
    d ++ m :: r < d ++ n :: s ↔ m < n := by
  rw [append_lt_append_iff, List.cons_lt_cons_iff]
  simp [h]

theorem lt_of_below {a q : List E} (h : Below a q) : a < q := by
  obtain ⟨n, r, rfl⟩ := below_iff.1 h
  nth_rewrite 1 [← List.append_nil a]
  rw [append_lt_append_iff]
  exact List.nil_lt_cons n r

/-- What is visited between a directory and something below it is below the directory. -/
theorem between_extension {q a : List E} {r : List E} (h₁ : q < a) (h₂ : a < q ++ r) :
    Below q a := by
  induction q generalizing a with
  | nil =>
    cases a with
    | nil => exact absurd h₁ (lt_irrefl _)
    | cons n s => exact ⟨List.nil_prefix, by simp⟩
  | cons x q ih =>
    cases a with
    | nil => exact absurd h₁ (List.not_lt_nil _)
    | cons y a =>
      rw [List.cons_lt_cons_iff] at h₁
      rw [List.cons_append, List.cons_lt_cons_iff] at h₂
      rcases h₁ with h₁ | ⟨rfl, h₁⟩
      · rcases h₂ with h₂ | ⟨rfl, -⟩
        · exact absurd h₁ (lt_asymm h₂)
        · exact absurd h₁ (lt_irrefl _)
      · rcases h₂ with h₂ | ⟨-, h₂⟩
        · exact absurd h₂ (lt_irrefl _)
        · obtain ⟨n, s, rfl⟩ := below_iff.1 (ih h₁ h₂)
          exact below_iff.2 ⟨n, s, rfl⟩

end Order

end Overlay
