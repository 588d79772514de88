import Mathlib

/-!
# Lists that hold other lists at an offset

A file written region after region is one long list.  `HasAt b off x` says that `x` stands in `b`
from `off` on.  What stands somewhere stays there when more is written behind it, moves along when
something is put in front of it, and is not touched when a part before it is written again.

The main results: `HasAt.behind` and `HasAt.front`, how a region is carried through appending,
`HasAt.within`, that regions nest, `hasAt_putAt` and `HasAt.putAt_of_le`, what a write in place does
to regions.  `ceil_mul` and `add_pad` have what is needed of offsets rounded up to a multiple.
-/

variable {α : Type} {a b c x y : List α} {off k n : ℕ}

/-- The list `x` stands in `b` from `off` on. -/
def HasAt (b : List α) (off : ℕ) (x : List α) : Prop := x <+: b.drop off

theorem hasAt_self (x : List α) : HasAt x 0 x := List.prefix_rfl

namespace HasAt

theorem behind (h : HasAt b off x) (c : List α) : HasAt (b ++ c) off x := by
  unfold HasAt at h ⊢
  rw [List.drop_append]
  exact h.trans (List.prefix_append _ _)

theorem front (h : HasAt b off x) (a : List α) : HasAt (a ++ b) (a.length + off) x := by
  unfold HasAt at h ⊢
  rwa [← List.drop_drop, List.drop_left]

/-- A region inside a region. -/
theorem within (h : HasAt b off x) (hx : HasAt x k y) : HasAt b (off + k) y := by
  unfold HasAt at h hx ⊢
  rw [← List.drop_drop]
  exact hx.trans (h.drop k)

theorem left (h : HasAt b off (x ++ y)) : HasAt b off x :=
  (List.prefix_append x y).trans h

theorem right (h : HasAt b off (x ++ y)) : HasAt b (off + x.length) y := by
  refine h.within ?_
  simpa using (hasAt_self y).front x

/-- Regions that follow each other. -/
theorem append (h : HasAt b off x) (h' : HasAt b (off + x.length) y) : HasAt b off (x ++ y) := by
  unfold HasAt at h h' ⊢
  obtain ⟨rest, hrest⟩ := h
  rw [← List.drop_drop, ← hrest, List.drop_left] at h'
  rw [← hrest]
  exact (List.prefix_append_right_inj x).2 h'

theorem length_le (h : HasAt b off x) : x.length ≤ b.length - off := by
  have := List.IsPrefix.length_le h
  rwa [List.length_drop] at this

theorem end_le (h : HasAt b off x) (hne : x ≠ []) : off + x.length ≤ b.length := by
  have hpos := List.length_pos_iff.2 hne
  have := h.length_le
  omega

theorem take_drop (h : HasAt b off x) : (b.drop off).take x.length = x :=
  (List.prefix_iff_eq_take.1 h).symm

end HasAt

theorem hasAt_append (a x c : List α) : HasAt (a ++ x ++ c) a.length x := by
  simpa using (((hasAt_self x).front a).behind c)

/-! ## Writing in place -/

/-- The list `b` after `x` is written into it at `off`. -/
def putAt (b : List α) (off : ℕ) (x : List α) : List α :=
  b.take off ++ x ++ b.drop (off + x.length)

@[simp] theorem putAt_length_self (b x : List α) : putAt b b.length x = b ++ x := by
  simp [putAt]

theorem length_putAt (h : off + x.length ≤ b.length) : (putAt b off x).length = b.length := by
  simp only [putAt, List.length_append, List.length_take, List.length_drop]
  omega

theorem hasAt_putAt (x : List α) (h : off ≤ b.length) : HasAt (putAt b off x) off x := by
  have hlen : (b.take off).length = off := by rw [List.length_take, min_eq_left h]
  have := hasAt_append (b.take off) x (b.drop (off + x.length))
  rwa [hlen] at this

/-- A region that ends before the place that is written, or starts behind it, is not touched. -/
theorem HasAt.putAt_of_le (h : HasAt b k y) (hoff : off ≤ b.length)
    (hdis : k + y.length ≤ off ∨ off + x.length ≤ k) : HasAt (putAt b off x) k y := by
  have hlen : (b.take off).length = off := by rw [List.length_take, min_eq_left hoff]
  rcases hdis with hbefore | hafter
  · have htake : HasAt (b.take off) k y := by
      unfold HasAt at h ⊢
      rw [List.drop_take, List.prefix_take_iff]
      exact ⟨h, by omega⟩
    exact (htake.behind x).behind _
  · have hrest : HasAt (b.drop (off + x.length)) (k - (off + x.length)) y := by
      unfold HasAt at h ⊢
      rwa [List.drop_drop, Nat.add_sub_cancel' hafter]
    have hfront := hrest.front (b.take off ++ x)
    rw [List.length_append, hlen, Nat.add_sub_cancel' hafter] at hfront
    exact hfront

/-! ## Rounding up -/

/-- Rounding `n` up to a multiple of `m` stays at `n` or goes up by less than `m`. -/
theorem ceil_mul {n m : ℕ} (hm : 0 < m) :
    n ≤ (n + m - 1) / m * m ∧ (n + m - 1) / m * m < n + m := by
  have hdiv := Nat.div_add_mod' (n + m - 1) m
  have hmod := Nat.mod_lt (n + m - 1) hm
  omega

/-- The padding that fills up the last of some pieces of length `m`. -/
theorem add_pad {n m : ℕ} (hm : 0 < m) : n + (m - n % m) % m = (n + m - 1) / m * m := by
  have hdiv := Nat.div_add_mod' n m
  have hlt := Nat.mod_lt n hm
  rcases Nat.eq_zero_or_pos (n % m) with hzero | hpos
  · have hceil : (n + m - 1) / m = n / m := by
      refine Nat.div_eq_of_lt_le (by omega) ?_
      rw [Nat.succ_mul]
      omega
    rw [hzero, Nat.sub_zero, Nat.mod_self, hceil]
    omega
  · have hceil : (n + m - 1) / m = n / m + 1 := by
      refine Nat.div_eq_of_lt_le ?_ ?_
      · rw [Nat.succ_mul]
        omega
      · rw [Nat.succ_mul, Nat.succ_mul]
        omega
    rw [Nat.mod_eq_of_lt (by omega), hceil, Nat.succ_mul]
    omega
