import Mathlib

/-!
# Trees as maps from paths

A tree is a partial map from paths, lists of names, to nodes.  This file is a small
library about such maps over any type of names and nodes: what it means for every node
to hang under a directory, what lies strictly below a path, and the three updates a
file tree goes through, `prune`, `cut` and `Function.update`.

The main results:

* `Closed.above` — everything above a node is a directory;
* `Closed.nothing_below` — nothing is below a path that is absent or not a directory;
* `update_none_eq_prune`, `Closed.prune_eq_self`, `Closed.cut_eq_self` — the updates that change
  nothing, and the one that takes out a leaf.
-/

namespace PathTree

variable {E V : Type*}

/-- `q` lies strictly below `a`. -/
def Below (a q : List E) : Prop := a <+: q ∧ a ≠ q

instance [DecidableEq E] (a q : List E) : Decidable (Below a q) :=
  inferInstanceAs (Decidable (_ ∧ _))

theorem below_append_cons (a : List E) (n : E) (r : List E) : Below a (a ++ n :: r) :=
  ⟨List.prefix_append _ _, by simp⟩

theorem below_iff {a q : List E} : Below a q ↔ ∃ n r, q = a ++ n :: r := by
  constructor
  · rintro ⟨⟨r, rfl⟩, hne⟩
    cases r with
    | nil => simp at hne
    | cons n r => exact ⟨n, r, rfl⟩
  · rintro ⟨n, r, rfl⟩
    exact below_append_cons a n r

theorem Below.mono {a b q : List E} (h : Below a b) (hq : b <+: q) : Below a q := by
  obtain ⟨n, r, rfl⟩ := below_iff.1 h
  obtain ⟨s, rfl⟩ := hq
  exact below_iff.2 ⟨n, r ++ s, by simp⟩

theorem prefix_trans_below {a b q : List E} (h : a <+: b) (hq : Below b q) : Below a q := by
  obtain ⟨r, rfl⟩ := h
  obtain ⟨n, s, rfl⟩ := below_iff.1 hq
  cases r with
  | nil => exact below_iff.2 ⟨n, s, by simp⟩
  | cons m r => exact below_iff.2 ⟨m, r ++ n :: s, by simp⟩

/-- A path strictly below `a` is at or below the directory it hangs in, or its directory
is `a`. -/
theorem Below.dropLast {a q : List E} (h : Below a q) : a <+: q.dropLast := by
  obtain ⟨n, r, rfl⟩ := below_iff.1 h
  rw [List.dropLast_append_of_ne_nil (by simp)]
  exact List.prefix_append _ _

theorem Below.ne_nil {a q : List E} (h : Below a q) : q ≠ [] := by
  obtain ⟨n, r, rfl⟩ := below_iff.1 h
  simp

theorem Below.not_above {a q : List E} (h : Below a q) : ¬ q <+: a := fun hq =>
  h.2 (h.1.eq_of_length (h.1.length_le.antisymm hq.length_le))

theorem prefix_or_below {a q : List E} (h : a <+: q) : a = q ∨ Below a q := by
  by_cases e : a = q
  · exact Or.inl e
  · exact Or.inr ⟨h, e⟩

/-- The paths at and below `q.dropLast` other than those at and below `q`. -/
theorem below_dropLast {q : List E} (h : q ≠ []) : Below q.dropLast q := by
  refine ⟨List.dropLast_prefix q, fun e => ?_⟩
  have hl := congrArg List.length e
  have hpos := List.length_pos_of_ne_nil h
  simp only [List.length_dropLast] at hl
  omega

/-! ## Closed maps -/

/-- Every node but the root hangs under a directory. -/
def Closed (dir : V → Prop) (g : List E → Option V) : Prop :=
  ∀ q v, g q = some v → q ≠ [] → ∃ d, g q.dropLast = some d ∧ dir d

namespace Closed

variable {dir : V → Prop} {g : List E → Option V}

/-- Everything above a node is a directory. -/
theorem above (hc : Closed dir g) {a q : List E} {v : V} (hq : g q = some v) (hb : Below a q) :
    ∃ d, g a = some d ∧ dir d := by
  -- The induction is on the length of `q`, one directory up at a time.
  induction hn : q.length generalizing q v with
  | zero => exact absurd (List.length_eq_zero_iff.1 hn) hb.ne_nil
  | succ n ih =>
    obtain ⟨d, hd, hdir⟩ := hc q v hq hb.ne_nil
    rcases prefix_or_below hb.dropLast with e | hb'
    · exact ⟨d, e ▸ hd, hdir⟩
    · exact ih hd hb' (by simp [hn])

/-- Nothing is below a path that is absent or not a directory. -/
theorem nothing_below (hc : Closed dir g) {a q : List E} (ha : ∀ d, g a = some d → ¬ dir d)
    (hb : Below a q) : g q = none := by
  cases hq : g q with
  | none => rfl
  | some v =>
    obtain ⟨d, hd, hdir⟩ := hc.above hq hb
    exact absurd hdir (ha d hd)

theorem none_at_or_below (hc : Closed dir g) {a q : List E} (ha : g a = none) (h : a <+: q) :
    g q = none := by
  rcases prefix_or_below h with rfl | hb
  · exact ha
  · exact hc.nothing_below (fun d hd => by rw [ha] at hd; cases hd) hb

end Closed

/-! ## Updates -/

variable [DecidableEq E]

/-- Take away `a` and everything below it. -/
def prune (g : List E → Option V) (a : List E) : List E → Option V :=
  fun q => if a <+: q then none else g q

/-- Take away everything strictly below `a`. -/
def cut (g : List E → Option V) (a : List E) : List E → Option V :=
  fun q => if Below a q then none else g q

theorem prune_some {g : List E → Option V} {a q : List E} {v : V} :
    prune g a q = some v ↔ ¬ a <+: q ∧ g q = some v := by
  unfold prune
  split_ifs with h <;> simp [h]

theorem cut_some {g : List E → Option V} {a q : List E} {v : V} :
    cut g a q = some v ↔ ¬ Below a q ∧ g q = some v := by
  unfold cut
  split_ifs with h <;> simp [h]

/-- Dropping an absent or empty directory leaves what pruning it leaves. -/
theorem update_none_eq_prune {g : List E → Option V} {a : List E}
    (h : ∀ q, Below a q → g q = none) : Function.update g a none = prune g a := by
  funext q
  unfold prune
  by_cases e : q = a
  · subst e
    simp
  · rw [Function.update_of_ne e]
    split_ifs with hp
    · exact h q ⟨hp, fun e' => e e'.symm⟩
    · rfl

theorem cut_self (g : List E → Option V) (a : List E) : cut g a a = g a := by
  simp [cut, Below]

namespace Closed

variable {dir : V → Prop} {g : List E → Option V}

theorem prune_eq_self (hc : Closed dir g) {a : List E} (ha : g a = none) : prune g a = g := by
  funext q
  unfold PathTree.prune
  split_ifs with h
  · exact (hc.none_at_or_below ha h).symm
  · rfl

theorem cut_eq_self (hc : Closed dir g) {a : List E} (ha : ∀ d, g a = some d → ¬ dir d) :
    cut g a = g := by
  funext q
  unfold PathTree.cut
  split_ifs with h
  · exact (hc.nothing_below ha h).symm
  · rfl

end Closed

end PathTree
