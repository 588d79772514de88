import Mathlib

/-!
# Programs that ask

A program that reads from an outside world is kept as what it asks and what it does with
each answer.  It can then be run against a world, a function from questions to answers, and
what it asks there can be bounded: `Asks o P` says that in the world `o` every question the
program comes to ask satisfies `P`.

The main results:

* `run_bind`, `asks_bind` — both notions go through sequencing, where the second program is
  judged at the result of the first;
* `exec_bind`, `asks_tryBind` — the same for programs that may fail;
* `Comes.asks` — what a program comes to run asks nothing the program does not;
* `Mirrors.tryBind` — a program that may fail computes an optional value if its parts do.
-/

namespace Oracle

variable {Q R E α β : Type}

/-- A program that asks questions `Q`, is given answers `R` and returns an `α`. -/
inductive Prog (Q R α : Type)
  | done (a : α)
  | ask (q : Q) (k : R → Prog Q R α)

namespace Prog

/-- Run `x`, then what `f` makes of its result. -/
def bind : Prog Q R α → (α → Prog Q R β) → Prog Q R β
  | .done a, f => f a
  | .ask q k, f => .ask q fun r => (k r).bind f

/-- The result in a world that answers by `o`. -/
def run (o : Q → R) : Prog Q R α → α
  | .done a => a
  | .ask q k => (k (o q)).run o

/-- In a world that answers by `o`, every question asked satisfies `P`. -/
def Asks (o : Q → R) (P : Q → Prop) : Prog Q R α → Prop
  | .done _ => True
  | .ask q k => P q ∧ (k (o q)).Asks o P

@[simp] theorem run_done (o : Q → R) (a : α) : (done a : Prog Q R α).run o = a := rfl

@[simp] theorem run_ask (o : Q → R) (q : Q) (k : R → Prog Q R α) :
    (ask q k).run o = (k (o q)).run o := rfl

@[simp] theorem asks_done {o : Q → R} {P : Q → Prop} {a : α} : (done a : Prog Q R α).Asks o P :=
  True.intro

@[simp] theorem asks_ask {o : Q → R} {P : Q → Prop} {q : Q} {k : R → Prog Q R α} :
    (ask q k).Asks o P ↔ P q ∧ (k (o q)).Asks o P := Iff.rfl

instance decidableAsks (o : Q → R) (P : Q → Prop) [DecidablePred P] :
    (x : Prog Q R α) → Decidable (x.Asks o P)
  | .done _ => .isTrue asks_done
  | .ask q k =>
    have := decidableAsks o P (k (o q))
    decidable_of_iff (P q ∧ (k (o q)).Asks o P) asks_ask.symm

-- a goal `x.Asks o P` is proved by the lemmas below, never by running `x`
attribute [irreducible] Asks

theorem run_bind (o : Q → R) (x : Prog Q R α) (f : α → Prog Q R β) :
    (x.bind f).run o = (f (x.run o)).run o := by
  induction x with
  | done a => rfl
  | ask q k ih => exact ih (o q)

theorem asks_bind {o : Q → R} {P : Q → Prop} {x : Prog Q R α} {f : α → Prog Q R β}
    (hx : x.Asks o P) (hf : (f (x.run o)).Asks o P) : (x.bind f).Asks o P := by
  induction x with
  | done a => exact hf
  | ask q k ih =>
    obtain ⟨hq, hk⟩ := asks_ask.1 hx
    exact asks_ask.2 ⟨hq, ih (o q) hk hf⟩

theorem asks_of_bind {o : Q → R} {P : Q → Prop} {x : Prog Q R α} {f : α → Prog Q R β}
    (h : (x.bind f).Asks o P) : x.Asks o P := by
  induction x with
  | done a => exact asks_done
  | ask q k ih =>
    obtain ⟨hq, hk⟩ := asks_ask.1 h
    exact asks_ask.2 ⟨hq, ih (o q) hk⟩

theorem bind_assoc {γ : Type} (x : Prog Q R α) (f : α → Prog Q R β) (g : β → Prog Q R γ) :
    (x.bind f).bind g = x.bind fun a => (f a).bind g := by
  induction x with
  | done a => rfl
  | ask q k ih => exact congrArg (ask q) (funext ih)

/-! ## What a run comes to -/

/-- `y` is what is left of `x` after some of the answers of `o`. -/
inductive Reaches (o : Q → R) : Prog Q R α → Prog Q R α → Prop
  | refl (x : Prog Q R α) : Reaches o x x
  | answer {q : Q} {k : R → Prog Q R α} {y : Prog Q R α} (h : Reaches o (k (o q)) y) :
      Reaches o (.ask q k) y

/-- In a world that answers by `o`, `x` comes to run `p`: at some point `p` is what comes next. -/
def Comes (o : Q → R) (x : Prog Q R α) (p : Prog Q R β) : Prop :=
  ∃ k : β → Prog Q R α, Reaches o x (p.bind k)

section Comes

variable {γ : Type} {o : Q → R} {P : Q → Prop} {x y : Prog Q R α} {p : Prog Q R γ}

theorem Reaches.bind (f : α → Prog Q R β) (h : Reaches o x y) :
    Reaches o (x.bind f) (y.bind f) := by
  induction h with
  | refl x => exact .refl _
  | answer _ ih => exact .answer ih

theorem Reaches.after {f : α → Prog Q R β} {z : Prog Q R β} (h : Reaches o (f (x.run o)) z) :
    Reaches o (x.bind f) z := by
  induction x with
  | done a => exact h
  | ask q k ih => exact .answer (ih (o q) h)

theorem Reaches.asks (h : Reaches o x y) (hx : x.Asks o P) : y.Asks o P := by
  induction h with
  | refl x => exact hx
  | answer _ ih => exact ih (asks_ask.1 hx).2

theorem comes_first (k : γ → Prog Q R α) : Comes o (p.bind k) p := ⟨k, .refl _⟩

theorem Comes.bind (f : α → Prog Q R β) (h : Comes o x p) : Comes o (x.bind f) p := by
  obtain ⟨k, hk⟩ := h
  exact ⟨fun c => (k c).bind f, bind_assoc p k f ▸ hk.bind f⟩

theorem Comes.after {f : α → Prog Q R β} (h : Comes o (f (x.run o)) p) : Comes o (x.bind f) p := by
  obtain ⟨k, hk⟩ := h
  exact ⟨k, hk.after⟩

/-- What a program comes to run asks nothing that the program does not. -/
theorem Comes.asks (h : Comes o x p) (hx : x.Asks o P) : p.Asks o P := by
  obtain ⟨k, hk⟩ := h
  exact asks_of_bind (hk.asks hx)

end Comes

/-! ## Programs that may fail -/

/-- Go on with `f` unless `x` has failed. -/
def tryBind (x : Prog Q R (Except E α)) (f : α → Prog Q R (Except E β)) : Prog Q R (Except E β) :=
  x.bind fun r => match r with
    | .error e => .done (.error e)
    | .ok a => f a

theorem exec_bind (o : Q → R) (x : Prog Q R (Except E α)) (f : α → Prog Q R (Except E β)) :
    (x.tryBind f).run o = match x.run o with
      | .error e => .error e
      | .ok a => (f a).run o := by
  rw [tryBind, run_bind]
  cases x.run o <;> rfl

theorem asks_tryBind {o : Q → R} {P : Q → Prop} {x : Prog Q R (Except E α)}
    {f : α → Prog Q R (Except E β)} (hx : x.Asks o P)
    (hf : ∀ a, x.run o = .ok a → (f a).Asks o P) : (x.tryBind f).Asks o P := by
  refine asks_bind hx ?_
  cases h : x.run o with
  | error e => exact asks_done
  | ok a => exact hf a h

/-- A program that succeeds has passed its first part. -/
theorem exec_bind_ok {o : Q → R} {x : Prog Q R (Except E α)} {f : α → Prog Q R (Except E β)} {b : β}
    (h : (x.tryBind f).run o = .ok b) : ∃ a, x.run o = .ok a ∧ (f a).run o = .ok b := by
  rw [exec_bind] at h
  cases hx : x.run o with
  | error e =>
    rw [hx] at h
    cases h
  | ok a =>
    rw [hx] at h
    exact ⟨a, rfl, h⟩

end Prog

/-! ## Results that stand for an optional value -/

/-- A fallible result that stands for an optional value: what it gives is related to the value by
`S`, and where the reading is `full` it fails only for want of a value. -/
inductive Mirrors {γ : Type} (full : Prop) (S : α → γ → Prop) : Except E α → Option γ → Prop
  | error (e : E) {v : Option γ} (h : full → v = none) : Mirrors full S (.error e) v
  | ok {a : α} {b : γ} (h : S a b) : Mirrors full S (.ok a) (some b)

namespace Mirrors

variable {γ δ : Type} {full : Prop} {S : α → γ → Prop} {T : β → δ → Prop} {r : Except E α}

theorem fail (e : E) : Mirrors full S (.error e) none := error e fun _ => rfl

theorem sound {v : Option α} (h : Mirrors full Eq r v) {a : α} (ha : r = .ok a) : v = some a := by
  cases h with
  | error e h => cases ha
  | ok h =>
    cases ha
    rw [h]

/-- A result that equals its value where there is one. -/
theorem ok_iff {v : Option α} (h : Mirrors True Eq r v) {a : α} : r = .ok a ↔ v = some a := by
  cases h with
  | error e h => simp [h trivial]
  | ok h => simp [h]

theorem mono {v : Option γ} {S' : α → γ → Prop} (h : Mirrors full S r v)
    (hS : ∀ a b, S a b → S' a b) : Mirrors full S' r v := by
  cases h with
  | error e h => exact error e h
  | ok h => exact ok (hS _ _ h)

theorem map {v : Option γ} {S' : β → γ → Prop} (f : α → β) (h : Mirrors full S r v)
    (hf : ∀ a b, S a b → S' (f a) b) : Mirrors full S' (r.map f) v := by
  cases h with
  | error e h => exact error e h
  | ok h => exact ok (hf _ _ h)

theorem mapError {v : Option γ} {E' : Type} (f : E → E') (h : Mirrors full S r v) :
    Mirrors full S (r.mapError f) v := by
  cases h with
  | error e h => exact error (f e) h
  | ok h => exact ok h

/-- Programs that stand for optional values compose. -/
theorem tryBind {o : Q → R} {x : Prog Q R (Except E α)} {v : Option γ}
    {f : α → Prog Q R (Except E β)} {g : γ → Option δ} (hx : Mirrors full S (x.run o) v)
    (hf : ∀ a b, S a b → Mirrors full T ((f a).run o) (g b)) :
    Mirrors full T ((x.tryBind f).run o) (v.bind g) := by
  rw [Prog.exec_bind]
  generalize x.run o = r at hx
  cases hx with
  | error e h => exact error e fun hfull => by rw [h hfull, Option.bind_none]
  | ok h => exact hf _ _ h

end Mirrors

/-- What a fallible result gives satisfies `D`, and where the reading is `full` it gives whatever
does. -/
structure Yields (full : Prop) (r : Except E α) (D : α → Prop) : Prop where
  sound : ∀ {a}, r = .ok a → D a
  complete : full → ∀ {a}, D a → r = .ok a

namespace Yields

variable {full : Prop} {D : α → Prop} {r : Except E α}

theorem of_iff (h : ∀ a, r = .ok a ↔ D a) : Yields full r D :=
  ⟨fun ha => (h _).1 ha, fun _ _ ha => (h _).2 ha⟩

theorem error {e : E} (h : full → ∀ a, ¬ D a) : Yields full (.error e) D := by
  refine ⟨fun ha => ?_, fun hfull a ha => absurd ha (h hfull a)⟩
  cases ha

theorem congr {D' : α → Prop} (h : Yields full r D) (hD : ∀ a, D a ↔ D' a) : Yields full r D' :=
  ⟨fun ha => (hD _).1 (h.sound ha), fun hfull _ ha => h.complete hfull ((hD _).2 ha)⟩

theorem iff (h : Yields True r D) {a : α} : r = .ok a ↔ D a :=
  ⟨fun ha => h.sound ha, fun ha => h.complete trivial ha⟩

end Yields

end Oracle
