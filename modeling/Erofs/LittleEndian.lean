import Erofs.GoPath

/-!
# Little-endian numbers in byte strings

`leNat` is the number a byte string spells, lowest byte first, and `field b off w` the
number in the `w` bytes at `off`, as `binary.LittleEndian.Uint16`, `Uint32` and `Uint64`
read it.  `leBytes w n` is what `PutUint16` and its like write, and `field_leBytes` that
it is read back; `record` is a row of such fields, read back by `hasFields_record`.
-/

namespace LittleEndian

open GoPath

/-- The number `b` spells, lowest byte first. -/
def leNat : Bytes → ℕ
  | [] => 0
  | x :: b => x.val + 256 * leNat b

/-- The number in the `w` bytes of `b` at `off`. -/
def field (b : Bytes) (off w : ℕ) : ℕ := leNat ((b.drop off).take w)

theorem leNat_lt (b : Bytes) : leNat b < 256 ^ b.length := by
  induction b with
  | nil => simp [leNat]
  | cons x b ih =>
    have hx := x.isLt
    rw [leNat, List.length_cons, pow_succ]
    omega

theorem field_lt (b : Bytes) (off w : ℕ) : field b off w < 256 ^ w := by
  refine lt_of_lt_of_le (leNat_lt _) (Nat.pow_le_pow_right (by decide) ?_)
  rw [List.length_take]
  exact min_le_left _ _

theorem field_take {b : Bytes} {off w n : ℕ} (h : off + w ≤ n) :
    field (b.take n) off w = field b off w := by
  rw [field, field, List.drop_take, List.take_take, min_eq_left (by omega)]

theorem field_drop {b : Bytes} {off w n : ℕ} : field (b.drop n) off w = field b (n + off) w := by
  rw [field, field, List.drop_drop]

/-- A number is read the same from the start of a byte string that holds all of it. -/
theorem field_of_isPrefix {b b' : Bytes} {off w : ℕ} (hb : b <+: b') (h : off + w ≤ b.length) :
    field b off w = field b' off w := by
  rw [List.prefix_iff_eq_take.1 hb, field_take h]

/-- The `w` lowest bytes of `n`, lowest first. -/
def leBytes : ℕ → ℕ → Bytes
  | 0, _ => []
  | w + 1, n => Fin.ofNat 256 n :: leBytes w (n / 256)

@[simp] theorem length_leBytes (w n : ℕ) : (leBytes w n).length = w := by
  induction w generalizing n with
  | zero => rfl
  | succ w ih => rw [leBytes, List.length_cons, ih]

theorem leNat_leBytes {w n : ℕ} (h : n < 256 ^ w) : leNat (leBytes w n) = n := by
  induction w generalizing n with
  | zero =>
    rw [pow_zero] at h
    rw [leBytes, leNat]
    omega
  | succ w ih =>
    rw [pow_succ] at h
    rw [leBytes, leNat, ih (by omega), Fin.val_ofNat]
    omega

/-- A number is read back where its bytes begin. -/
theorem field_leBytes {b rest : Bytes} {off w n : ℕ} (h : n < 256 ^ w)
    (hb : b.drop off = leBytes w n ++ rest) : field b off w = n := by
  rw [field, hb, List.take_left' (length_leBytes w n), leNat_leBytes h]

/-! ## Records -/

/-- A record of fields, each a width and a number. -/
def record (l : List (ℕ × ℕ)) : Bytes := l.flatMap fun p => leBytes p.1 p.2

theorem length_record (l : List (ℕ × ℕ)) : (record l).length = (l.map Prod.fst).sum := by
  simp [record, List.length_flatMap]

/-- The fields of a record stand in `b` from `off` on. -/
def HasFields (b : Bytes) : ℕ → List (ℕ × ℕ) → Prop
  | _, [] => True
  | off, p :: l => (p.2 < 256 ^ p.1 → field b off p.1 = p.2) ∧ HasFields b (off + p.1) l

/-- A record is read back, field by field, from a byte string that holds all of it. -/
theorem hasFields_record {b rest : Bytes} {off : ℕ} {l : List (ℕ × ℕ)}
    (hb : b.drop off <+: record l ++ rest) (hlen : off + (l.map Prod.fst).sum ≤ b.length) :
    HasFields b off l := by
  induction l generalizing off with
  | nil => exact trivial
  | cons p l ih =>
    rw [List.map_cons, List.sum_cons] at hlen
    have hcons : record (p :: l) ++ rest = leBytes p.1 p.2 ++ (record l ++ rest) := by
      rw [record, List.flatMap_cons, List.append_assoc]
      rfl
    rw [hcons] at hb
    constructor
    · intro hp
      have hroom : 0 + p.1 ≤ (b.drop off).length := by
        rw [List.length_drop]
        omega
      rw [← Nat.add_zero off, ← field_drop, field_of_isPrefix hb hroom]
      exact field_leBytes hp rfl
    · refine ih ?_ (by omega)
      have hdrop := hb.drop p.1
      rwa [List.drop_drop, List.drop_left' (length_leBytes p.1 p.2)] at hdrop

end LittleEndian
