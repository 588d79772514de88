import Mathlib

/-!
# Lists cut into blocks

A list written block by block, every block but the last of one size, is cut back into those
blocks by their size alone.

The main results: `length_iff`, how many blocks a length comes to, and `block_flatten`, that
each block is found at its place.
-/

/-- Every block but the last has `bs` elements, and the last has at least one and at most
`bs`. -/
def Blocked {α : Type} (bs : ℕ) : List (List α) → Prop
  | [] => True
  | [b] => 0 < b.length ∧ b.length ≤ bs
  | b :: b' :: bl => b.length = bs ∧ Blocked bs (b' :: bl)

namespace Blocked

variable {α : Type} {bs : ℕ} {b : List α} {bl : List (List α)}

theorem tail (h : Blocked bs (b :: bl)) : Blocked bs bl := by
  cases bl with
  | nil => trivial
  | cons b' bl => exact h.2

theorem head_le (h : Blocked bs (b :: bl)) : b.length ≤ bs := by
  cases bl with
  | nil => exact h.2
  | cons b' bl => exact h.1.le

theorem head_pos (hbs : 0 < bs) (h : Blocked bs (b :: bl)) : 0 < b.length := by
  cases bl with
  | nil => exact h.1
  | cons b' bl => exact h.1 ▸ hbs

theorem head_eq (hne : bl ≠ []) (h : Blocked bs (b :: bl)) : b.length = bs := by
  cases bl with
  | nil => exact absurd rfl hne
  | cons b' bl => exact h.1

/-- Block `i` exists exactly when its place is inside the list. -/
theorem length_iff (hbs : 0 < bs) (h : Blocked bs bl) (i : ℕ) :
    i * bs < bl.flatten.length ↔ i < bl.length := by
  induction bl generalizing i with
  | nil => simp
  | cons b bl ih =>
    have hpos := h.head_pos hbs
    rw [List.flatten_cons, List.length_append, List.length_cons]
    cases i with
    | zero => simp [hpos]
    | succ i =>
      have ih := ih h.tail i
      have hmul : (i + 1) * bs = i * bs + bs := Nat.succ_mul i bs
      by_cases hne : bl = []
      · subst hne
        have := h.head_le
        simp only [List.flatten_nil, List.length_nil] at ih ⊢
        omega
      · have := h.head_eq hne
        omega

/-- Block `i` is at its place. -/
theorem block_flatten (h : Blocked bs bl) {i : ℕ} (hi : bl[i]? = some b) :
    (bl.flatten.drop (i * bs)).take bs = b := by
  induction bl generalizing i with
  | nil => simp at hi
  | cons c bl ih =>
    rw [List.flatten_cons]
    cases i with
    | zero =>
      obtain rfl : c = b := by simpa using hi
      rw [Nat.zero_mul, List.drop_zero]
      by_cases hne : bl = []
      · rw [hne, List.flatten_nil, List.append_nil, List.take_of_length_le h.head_le]
      · exact List.take_left' (h.head_eq hne)
    | succ i =>
      have hi' : bl[i]? = some b := by simpa using hi
      have hne : bl ≠ [] := by
        rintro rfl
        simp at hi'
      have hlen := h.head_eq hne
      rw [Nat.succ_mul, Nat.add_comm, ← List.drop_drop, List.drop_left' hlen]
      exact ih h.tail hi'

end Blocked
