import Mathlib

/-!
# Sources loaded in pieces

A source is loaded a piece at a time: `load p` is what there is from position `p` to the end of the
piece that `p` is in, or nothing where the source ends or cannot be loaded.  Loading from inside a
piece gives the rest of the piece, so that the content from a position on does not depend on where
earlier loads began.

The main results: `content_drop`, that the content from a later position is the rest of the content,
and `content_take`, the step of a loop that takes so many elements.
-/

/-- A source of `size` elements: no piece is empty or goes beyond the end, and a load from inside a
piece gives the rest of it. -/
structure Pieces (α : Type) where
  load : ℕ → Option (List α)
  size : ℕ
  ne_nil : ∀ {p b}, load p = some b → b ≠ []
  le : ∀ {p b}, load p = some b → p + b.length ≤ size
  rest : ∀ {p b k}, load p = some b → k < b.length → load (p + k) = some (b.drop k)

namespace Pieces

variable {α : Type} (s : Pieces α)

/-- The next `fuel` pieces from `p` on. -/
def pieces : ℕ → ℕ → List α
  | 0, _ => []
  | fuel + 1, p => match s.load p with
    | none => []
    | some b => b ++ pieces fuel (p + b.length)

/-- All there is from `p` on. -/
def content (p : ℕ) : List α := s.pieces (s.size - p) p

variable {s} {p k n : ℕ} {b : List α}

theorem lt_size (h : s.load p = some b) : p < s.size := by
  have hpos := List.length_pos_iff.2 (s.ne_nil h)
  have hle := s.le h
  omega

theorem pieces_none {fuel : ℕ} (h : s.load p = none) : s.pieces fuel p = [] := by
  cases fuel with
  | zero => rfl
  | succ fuel => rw [pieces, h]

/-- Any number of pieces that is enough gives the same. -/
theorem pieces_enough {fuel fuel' : ℕ} (h : s.size ≤ p + fuel) (h' : s.size ≤ p + fuel') :
    s.pieces fuel p = s.pieces fuel' p := by
  induction fuel generalizing p fuel' with
  | zero =>
    cases hload : s.load p with
    | none => rw [pieces_none hload, pieces_none hload]
    | some b =>
      have hlt := lt_size hload
      omega
  | succ fuel ih =>
    cases hload : s.load p with
    | none => rw [pieces_none hload, pieces_none hload]
    | some b =>
      have hlt := lt_size hload
      have hpos := List.length_pos_iff.2 (s.ne_nil hload)
      obtain ⟨m, rfl⟩ : ∃ m, fuel' = m + 1 := ⟨fuel' - 1, by omega⟩
      rw [pieces, pieces, hload]
      dsimp only
      rw [ih (by omega) (by omega : s.size ≤ p + b.length + m)]

theorem content_none (h : s.load p = none) : s.content p = [] := pieces_none h

theorem content_some (h : s.load p = some b) : s.content p = b ++ s.content (p + b.length) := by
  have hlt := lt_size h
  have hpos := List.length_pos_iff.2 (s.ne_nil h)
  obtain ⟨m, hm⟩ : ∃ m, s.size - p = m + 1 := ⟨s.size - p - 1, by omega⟩
  rw [content, hm, pieces, h]
  dsimp only
  exact congrArg (b ++ ·) (pieces_enough (by omega) (by omega))

/-- What a load gives is a beginning of the content. -/
theorem length_le_content (h : s.load p = some b) : b.length ≤ (s.content p).length := by
  rw [content_some h, List.length_append]
  omega

/-- The content from a later position is the rest of the content. -/
theorem content_drop (hk : k ≤ (s.content p).length) :
    s.content (p + k) = (s.content p).drop k := by
  -- the induction is on what is left of the source, which every piece makes less
  induction hm : s.size - p using Nat.strong_induction_on generalizing p k with
  | _ m ih =>
    cases hload : s.load p with
    | none =>
      rw [content_none hload] at hk ⊢
      obtain rfl : k = 0 := by simpa using hk
      rw [Nat.add_zero, content_none hload, List.drop_nil]
    | some b =>
      have hlt := lt_size hload
      have hpos := List.length_pos_iff.2 (s.ne_nil hload)
      rw [content_some hload] at hk ⊢
      rw [List.length_append] at hk
      by_cases hin : k < b.length
      · have hend : p + k + (b.drop k).length = p + b.length := by
          rw [List.length_drop]
          omega
        rw [content_some (s.rest hload hin), hend, List.drop_append_of_le_length hin.le]
      · obtain ⟨j, rfl⟩ := Nat.exists_eq_add_of_le (not_lt.1 hin)
        have hj : j ≤ (s.content (p + b.length)).length := by omega
        have hnil : b.drop (b.length + j) = [] := List.drop_eq_nil_of_le (by omega)
        rw [← Nat.add_assoc, ih _ (by omega) hj rfl, List.drop_append, hnil, List.nil_append,
          Nat.add_sub_cancel_left]

/-- The step of a loop that takes `n` elements, of what is loaded at a time no more than it
wants. -/
theorem content_take (h : s.load p = some b) (n : ℕ) :
    (s.content p).take n =
      b.take n ++ (s.content (p + (b.take n).length)).take (n - (b.take n).length) := by
  have hlen : (b.take n).length = min n b.length := List.length_take
  have hle := length_le_content h
  rw [content_drop (by omega), hlen]
  have hsplit : (s.content p).take n = (s.content p).take (min n b.length) ++
      ((s.content p).drop (min n b.length)).take (n - min n b.length) := by
    rw [← List.take_add]
    congr 1
    omega
  have hfirst : (s.content p).take (min n b.length) = b.take n := by
    rw [content_some h, List.take_append_of_le_length (min_le_right _ _), ← List.take_take,
      List.take_length]
  rw [hsplit, hfirst]

end Pieces
