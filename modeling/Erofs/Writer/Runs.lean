import Mathlib
import Erofs.Writer.Copy

/-!
# Runs of blocks

A `builder.Chunk` is a run of blocks on one device, or of holes, and a list of runs lays a file out
block by block.  `expand` is that layout; every function of the copy that emits runs is described by
what its list expands to.

The main results:

* `expand_deviceChunks` — `deviceChunks` lays out its blocks in order, whatever the number of runs
  it takes;
* `chunksFromRanges_exact_iff` — `chunksFromRanges` accepts the lists its contract admits, and
  covers the file, exactly when the sizes it adds up do not wrap around to the size of the file.
-/

namespace Erofs

/-! ## The layout of a list of runs -/

/-- The `k`-th block after `start` on `device`; from the null block, a hole. -/
def blockFrom (start device k : ℕ) : Option (ℕ × ℕ) :=
  if start = nullPhysicalBlock then none else some (device, start + k)

/-- The blocks of a file laid out by runs: the device and the block on it, or a hole. -/
def expand (cs : List Chunk) : List (Option (ℕ × ℕ)) :=
  cs.flatMap fun c => (List.range c.count).map (blockFrom c.physicalBlock c.deviceID)

@[simp] theorem expand_nil : expand [] = [] := rfl

@[simp] theorem expand_cons (c : Chunk) (cs : List Chunk) :
    expand (c :: cs) =
      (List.range c.count).map (blockFrom c.physicalBlock c.deviceID) ++ expand cs := rfl

@[simp] theorem expand_append (xs ys : List Chunk) : expand (xs ++ ys) = expand xs ++ expand ys :=
  List.flatMap_append

theorem blockFrom_null (device k : ℕ) : blockFrom nullPhysicalBlock device k = none := if_pos rfl

theorem blockFrom_of_lt {start : ℕ} (h : start < nullPhysicalBlock) (device k : ℕ) :
    blockFrom start device k = some (device, start + k) := if_neg h.ne

/-- A run cut in two. -/
theorem map_blockFrom_add {start m n : ℕ} (device : ℕ) (h : start + m < nullPhysicalBlock) :
    (List.range (m + n)).map (blockFrom start device) =
      (List.range m).map (blockFrom start device) ++
        (List.range n).map (blockFrom (start + m) device) := by
  rw [List.range_add, List.map_append, List.map_map]
  congr 1
  refine List.map_congr_left fun k _ => ?_
  rw [Function.comp_apply, blockFrom_of_lt (by omega), blockFrom_of_lt h, Nat.add_assoc]

/-- A run of holes cut in two. -/
theorem map_blockFrom_null (device device' m n : ℕ) :
    (List.range (m + n)).map (blockFrom nullPhysicalBlock device) =
      (List.range m).map (blockFrom nullPhysicalBlock device) ++
        (List.range n).map (blockFrom nullPhysicalBlock device') := by
  rw [List.range_add, List.map_append, List.map_map]
  congr 1

namespace Writer

/-! ## `deviceChunks` -/

theorem chunkRun_zero (device fuel start : ℕ) : chunkRun device fuel start 0 = [] := by
  cases fuel <;> simp [chunkRun]

theorem chunkRun_succ {device fuel start blocks : ℕ} (h : blocks ≠ 0) :
    chunkRun device (fuel + 1) start blocks =
      ⟨start, min blocks 65535, device⟩ ::
        chunkRun device fuel (if start = nullPhysicalBlock then start else start + min blocks 65535)
          (blocks - min blocks 65535) := by
  rw [chunkRun, if_neg h]

theorem length_expand_chunkRun {device fuel start blocks : ℕ} (hf : blocks ≤ fuel) :
    (expand (chunkRun device fuel start blocks)).length = blocks := by
  induction fuel generalizing start blocks with
  | zero =>
    obtain rfl : blocks = 0 := by omega
    rfl
  | succ fuel ih =>
    by_cases h0 : blocks = 0
    · simp [h0, chunkRun_zero]
    · rw [chunkRun_succ h0, expand_cons, List.length_append, ih (by omega), List.length_map,
        List.length_range]
      dsimp only
      omega

theorem expand_chunkRun_null {device fuel blocks : ℕ} (hf : blocks ≤ fuel) :
    expand (chunkRun device fuel nullPhysicalBlock blocks) =
      (List.range blocks).map (blockFrom nullPhysicalBlock device) := by
  induction fuel generalizing blocks with
  | zero =>
    obtain rfl : blocks = 0 := by omega
    rfl
  | succ fuel ih =>
    by_cases h0 : blocks = 0
    · simp [h0, chunkRun_zero]
    · have hmin : min blocks 65535 + (blocks - min blocks 65535) = blocks := by omega
      rw [chunkRun_succ h0, expand_cons, if_pos rfl, ih (by omega),
        ← map_blockFrom_null device device, hmin]

theorem expand_chunkRun {device fuel start blocks : ℕ} (hf : blocks ≤ fuel)
    (h : start + blocks ≤ nullPhysicalBlock) :
    expand (chunkRun device fuel start blocks) =
      (List.range blocks).map (blockFrom start device) := by
  induction fuel generalizing start blocks with
  | zero =>
    obtain rfl : blocks = 0 := by omega
    rfl
  | succ fuel ih =>
    by_cases h0 : blocks = 0
    · simp [h0, chunkRun_zero]
    · obtain ⟨m, n, rfl, hm⟩ : ∃ m n, blocks = m + n ∧ m = min blocks 65535 :=
        ⟨min blocks 65535, blocks - min blocks 65535, by omega, rfl⟩
      rw [chunkRun_succ h0, expand_cons, if_neg (by omega), ← hm, Nat.add_sub_cancel_left]
      dsimp only
      -- the last run may end at the null block, where the next would start
      by_cases hn : n = 0
      · subst hn
        rw [chunkRun_zero, expand_nil, List.append_nil, Nat.add_zero]
      · rw [ih (by omega) (by omega), ← map_blockFrom_add device (by omega)]

/-- **Layout of `deviceChunks`.**  The blocks from `start` on, in order; from the null block,
holes. -/
theorem expand_deviceChunks {start blocks device : ℕ}
    (h : start = nullPhysicalBlock ∨ start + blocks ≤ nullPhysicalBlock) :
    expand (deviceChunks start blocks device) =
      (List.range blocks).map (blockFrom start device) := by
  obtain rfl | h := h
  · exact expand_chunkRun_null le_rfl
  · exact expand_chunkRun le_rfl h

theorem length_expand_deviceChunks (start blocks device : ℕ) :
    (expand (deviceChunks start blocks device)).length = blocks :=
  length_expand_chunkRun le_rfl

/-- What the contract of `DataRange` asks of the entries themselves: positive sizes, whole blocks
except at the end of the file, and for data an offset at a block of the source's one device. -/
structure Admissible (blockSize : ℕ) (ranges : List DataRange) : Prop where
  positive : ∀ r ∈ ranges, 0 < r.size
  aligned : ∀ r ∈ ranges.dropLast, (blockSize : Int) ∣ r.size
  placed : ∀ r ∈ ranges, r.offset ≠ -1 → 0 ≤ r.offset ∧ (blockSize : Int) ∣ r.offset ∧ r.device = 0

/-- The sum of the sizes, as an integer. -/
def sizeSum (ranges : List DataRange) : Int := (ranges.map (·.size)).sum

/-- The blocks that `n` bytes take. -/
def blocksFor (blockSize n : ℕ) : ℕ := (n + blockSize - 1) / blockSize

variable {bs i : ℕ} {r : DataRange} {ranges : List DataRange} {cs : List Chunk}

/-- What is asked of one entry. -/
def AdmissibleEntry (blockSize : ℕ) (final : Bool) (r : DataRange) : Prop :=
  0 < r.size ∧ (final = false → (blockSize : Int) ∣ r.size) ∧
    (r.offset ≠ -1 → 0 ≤ r.offset ∧ (blockSize : Int) ∣ r.offset ∧ r.device = 0)

theorem toNat_mod_eq_zero {x : Int} (h : 0 ≤ x) (n : ℕ) : x.toNat % n = 0 ↔ (n : Int) ∣ x := by
  obtain ⟨k, rfl⟩ := Int.eq_ofNat_of_zero_le h
  rw [Int.toNat_natCast, Int.natCast_dvd_natCast, Nat.dvd_iff_mod_eq_zero]

/-- An entry that is accepted meets what is asked of it, and its runs cover its bytes. -/
theorem rangeChunks_ok {final : Bool} (h : rangeChunks bs i final r = .ok cs) :
    AdmissibleEntry bs final r ∧ (expand cs).length = blocksFor bs r.size.toNat := by
  unfold rangeChunks at h
  dsimp only at h
  split_ifs at h with hpos hal hhole hneg hoff hdev
  all_goals
    cases h
    rw [not_le] at hpos
    rw [not_and, not_ne_iff, toNat_mod_eq_zero hpos.le] at hal
    refine ⟨⟨hpos, hal, fun hne => ?_⟩, length_expand_deviceChunks _ _ _⟩
  · exact absurd hhole hne
  · rw [not_lt] at hneg
    rw [not_ne_iff, toNat_mod_eq_zero hneg] at hoff
    exact ⟨hneg, hoff, not_ne_iff.1 hdev⟩

theorem AdmissibleEntry.accepted {final : Bool} (h : AdmissibleEntry bs final r) :
    ∃ cs, rangeChunks bs i final r = .ok cs := by
  obtain ⟨hpos, hal, hplaced⟩ := h
  have hal : ¬ (final = false ∧ r.size.toNat % bs ≠ 0) := by
    rwa [not_and, not_ne_iff, toNat_mod_eq_zero hpos.le]
  unfold rangeChunks
  dsimp only
  rw [if_neg (not_le.2 hpos), if_neg hal]
  by_cases hhole : r.offset = -1
  · exact ⟨_, if_pos hhole⟩
  · obtain ⟨hnn, hoff, hdev⟩ := hplaced hhole
    rw [← toNat_mod_eq_zero hnn] at hoff
    rw [if_neg hhole, if_neg (not_lt.2 hnn), if_neg (not_ne_iff.2 hoff), if_neg (not_ne_iff.2 hdev)]
    exact ⟨_, rfl⟩

theorem admissible_nil : Admissible bs [] := ⟨by simp, by simp, by simp⟩

theorem admissible_cons :
    Admissible bs (r :: ranges) ↔ AdmissibleEntry bs ranges.isEmpty r ∧ Admissible bs ranges := by
  constructor
  · rintro ⟨hpos, hal, hplaced⟩
    refine ⟨⟨hpos r List.mem_cons_self, fun hne => ?_, hplaced r List.mem_cons_self⟩, ?_, ?_, ?_⟩
    · rw [List.isEmpty_eq_false_iff] at hne
      exact hal r (by simp [List.dropLast_cons_of_ne_nil hne])
    · exact fun x hx => hpos x (List.mem_cons_of_mem _ hx)
    · intro x hx
      have hne : ranges ≠ [] := by
        rintro rfl
        cases hx
      exact hal x (by simp [List.dropLast_cons_of_ne_nil hne, hx])
    · exact fun x hx => hplaced x (List.mem_cons_of_mem _ hx)
  · rintro ⟨⟨hpos, hal, hplaced⟩, h⟩
    refine ⟨List.forall_mem_cons.2 ⟨hpos, h.positive⟩, ?_,
      List.forall_mem_cons.2 ⟨hplaced, h.placed⟩⟩
    cases ranges with
    | nil => simp
    | cons y ys => exact List.forall_mem_cons.2 ⟨hal rfl, h.aligned⟩

theorem blocksFor_add {a b : ℕ} (hb : 0 < bs) (h : bs ∣ a) :
    blocksFor bs (a + b) = blocksFor bs a + blocksFor bs b := by
  have hrw : ∀ n, blocksFor bs n = (n + (bs - 1)) / bs := fun n => by
    rw [blocksFor, Nat.add_sub_assoc hb]
  obtain ⟨k, rfl⟩ := h
  rw [hrw, hrw, hrw, Nat.add_assoc, Nat.mul_add_div hb, Nat.mul_add_div hb,
    Nat.div_eq_of_lt (show bs - 1 < bs by omega), Nat.add_zero]

theorem lt_blocksFor_iff {j n : ℕ} (hb : 0 < bs) : j < blocksFor bs n ↔ j * bs < n := by
  rw [blocksFor, Nat.lt_iff_add_one_le, Nat.le_div_iff_mul_le hb, Nat.add_mul, Nat.one_mul]
  omega

theorem blocksFor_le (hb : 0 < bs) (n : ℕ) : blocksFor bs n ≤ n := by
  have hle := Nat.le_mul_of_pos_right n hb
  rw [blocksFor, ← Nat.lt_succ_iff, Nat.div_lt_iff_lt_mul hb, Nat.succ_mul]
  omega

theorem rangesChunks_cons_ok :
    rangesChunks bs i (r :: ranges) = .ok cs ↔
      ∃ xs ys, rangeChunks bs i ranges.isEmpty r = .ok xs ∧
        rangesChunks bs (i + 1) ranges = .ok ys ∧ cs = xs ++ ys := by
  rw [rangesChunks]
  cases rangeChunks bs i ranges.isEmpty r with
  | error e => simp
  | ok xs =>
    cases rangesChunks bs (i + 1) ranges with
    | error e => simp [Except.map]
    | ok ys => simp [Except.map, eq_comm]

/-- The loop accepts the admissible lists. -/
theorem rangesChunks_ok_iff :
    (∃ cs, rangesChunks bs i ranges = .ok cs) ↔ Admissible bs ranges := by
  induction ranges generalizing i with
  | nil => exact iff_of_true ⟨[], rfl⟩ admissible_nil
  | cons r ranges ih =>
    rw [admissible_cons, ← @ih (i + 1)]
    constructor
    · rintro ⟨cs, h⟩
      obtain ⟨xs, ys, hx, hy, -⟩ := rangesChunks_cons_ok.1 h
      exact ⟨(rangeChunks_ok hx).1, ys, hy⟩
    · rintro ⟨hr, ys, hy⟩
      obtain ⟨xs, hx⟩ := hr.accepted (i := i)
      exact ⟨_, rangesChunks_cons_ok.2 ⟨xs, ys, hx, hy, rfl⟩⟩

theorem sizeSum_cons (r : DataRange) (ranges : List DataRange) :
    sizeSum (r :: ranges) = r.size + sizeSum ranges := List.sum_cons

theorem Admissible.sizeSum_nonneg (h : Admissible bs ranges) : 0 ≤ sizeSum ranges := by
  refine List.sum_nonneg fun x hx => ?_
  obtain ⟨r, hr, rfl⟩ := List.mem_map.1 hx
  exact (h.positive r hr).le

/-- The runs of the accepted entries cover their bytes. -/
theorem rangesChunks_covers (hb : 0 < bs) (h : rangesChunks bs i ranges = .ok cs) :
    (expand cs).length = blocksFor bs (sizeSum ranges).toNat := by
  induction ranges generalizing i cs with
  | nil =>
    cases h
    exact (Nat.div_eq_of_lt (by simp [sizeSum, hb])).symm
  | cons r ranges ih =>
    have hall := rangesChunks_ok_iff.1 ⟨cs, h⟩
    have hrest := (admissible_cons.1 hall).2.sizeSum_nonneg
    obtain ⟨xs, ys, hx, hy, rfl⟩ := rangesChunks_cons_ok.1 h
    obtain ⟨⟨hpos, hal, -⟩, hlen⟩ := rangeChunks_ok hx
    rw [expand_append, List.length_append, hlen, ih hy, sizeSum_cons,
      Int.toNat_add hpos.le hrest]
    cases ranges with
    | nil => simp [sizeSum, blocksFor, Nat.div_eq_of_lt (show bs - 1 < bs by omega)]
    | cons y ys =>
      refine (blocksFor_add hb ?_).symm
      rw [Nat.dvd_iff_mod_eq_zero, toNat_mod_eq_zero hpos.le]
      exact hal rfl

/-! ## The sum that is checked -/

theorem foldl_int64 (ranges : List DataRange) (t : Int) :
    ranges.foldl (fun t r => int64 (t + r.size)) (int64 t) = int64 (t + sizeSum ranges) := by
  induction ranges generalizing t with
  | nil => simp [sizeSum]
  | cons r ranges ih =>
    have hstep : int64 (int64 t + r.size) = int64 (t + r.size) := Int.bmod_add_bmod
    rw [List.foldl_cons, hstep, ih, sizeSum_cons, add_assoc]

/-- The wrapped sum is a positive `int64` exactly when the sum is, modulo `2 ^ 64`. -/
theorem int64_eq_iff {x s : Int} (hs : 0 < s) (hmax : s < 2 ^ 63) :
    int64 x = s ↔ x % 2 ^ 64 = s := by
  unfold int64
  rw [Int.bmod_def]
  split_ifs <;> omega

variable {w : Writer} {s : Int}

theorem chunksFromRanges_ok (hs : 0 < s) (hmax : s < 2 ^ 63) :
    w.chunksFromRanges ranges s = .ok cs ↔
      sizeSum ranges % 2 ^ 64 = s ∧ rangesChunks w.blockSize 0 ranges = .ok cs := by
  have htotal := foldl_int64 ranges 0
  rw [show int64 0 = 0 from rfl, zero_add] at htotal
  unfold chunksFromRanges
  dsimp only
  rw [htotal, ← int64_eq_iff hs hmax]
  by_cases h : int64 (sizeSum ranges) = s
  · simp [h]
  · simp [h]

/-- **Acceptance of `DataRange` lists.**  The lists that are accepted are the admissible ones that
sum to the size of the file, and their runs cover the file, exactly when no admissible list wraps
around to that size. -/
theorem chunksFromRanges_exact_iff (hb : 0 < w.blockSize) (hs : 0 < s) (hmax : s < 2 ^ 63) :
    (((∃ cs, w.chunksFromRanges ranges s = .ok cs) ↔
          Admissible w.blockSize ranges ∧ sizeSum ranges = s) ∧
        ∀ cs, w.chunksFromRanges ranges s = .ok cs →
          (expand cs).length = blocksFor w.blockSize s.toNat) ↔
      (Admissible w.blockSize ranges → sizeSum ranges % 2 ^ 64 = s →
        sizeSum ranges < 2 ^ 64) := by
  have haccept : (∃ cs, w.chunksFromRanges ranges s = .ok cs) ↔
      Admissible w.blockSize ranges ∧ sizeSum ranges % 2 ^ 64 = s := by
    simp only [chunksFromRanges_ok hs hmax]
    rw [exists_and_left, rangesChunks_ok_iff, and_comm]
  constructor
  · rintro ⟨hexact, -⟩ hadm hmod
    have := (hexact.1 (haccept.2 ⟨hadm, hmod⟩)).2
    omega
  · intro hwrap
    have hsum : Admissible w.blockSize ranges → sizeSum ranges % 2 ^ 64 = s →
        sizeSum ranges = s := by
      intro hadm hmod
      have hlt := hwrap hadm hmod
      have hnn := hadm.sizeSum_nonneg
      omega
    refine ⟨haccept.trans ⟨fun h => ⟨h.1, hsum h.1 h.2⟩, fun h => ⟨h.1, ?_⟩⟩, fun cs h => ?_⟩
    · rw [h.2]
      omega
    · obtain ⟨hmod, hruns⟩ := (chunksFromRanges_ok hs hmax).1 h
      rw [rangesChunks_covers hb hruns, hsum (rangesChunks_ok_iff.1 ⟨cs, hruns⟩) hmod]

/-- A Writer with blocks of 64 KiB and no entries. -/
def blankWriter : Writer where
  ent _ := { path := [], mode := Mode.dir }
  next := 1
  root := 0
  byPath _ := none
  blockSize := 65536

/-- Four holes of `2 ^ 62` bytes, whose sizes add up to `2 ^ 64`, and one block after them. -/
def wrappedRanges : List DataRange :=
  List.replicate 4 { offset := -1, size := 2 ^ 62 } ++ [{ offset := -1, size := 65536 }]

theorem admissible_wrappedRanges : Admissible 65536 wrappedRanges := by
  constructor <;> decide

/-- The sum wraps around: the list is accepted for a file of one block. -/
theorem wrappedRanges_accepted :
    ¬ ((∃ cs, blankWriter.chunksFromRanges wrappedRanges 65536 = .ok cs) ↔
      Admissible blankWriter.blockSize wrappedRanges ∧ sizeSum wrappedRanges = 65536) := by
  intro h
  obtain ⟨cs, hcs⟩ : ∃ cs, rangesChunks 65536 0 wrappedRanges = .ok cs :=
    rangesChunks_ok_iff.2 admissible_wrappedRanges
  have hmod : sizeSum wrappedRanges % 2 ^ 64 = 65536 := by decide
  have hok := (chunksFromRanges_ok (by decide) (by decide) (w := blankWriter)).2 ⟨hmod, hcs⟩
  exact absurd (h.1 ⟨cs, hok⟩).2 (by decide)

/-- Two blocks of a device, a hole of one block, and the 100 bytes of the last block. -/
def threeRanges : List DataRange :=
  [{ offset := 0, size := 131072 }, { offset := -1, size := 65536 },
    { offset := 262144, size := 100 }]

/-- The ranges are accepted for the file they add up to, and their runs cover its four blocks. -/
theorem threeRanges_exact :
    ((∃ cs, blankWriter.chunksFromRanges threeRanges 196708 = .ok cs) ↔
        Admissible blankWriter.blockSize threeRanges ∧ sizeSum threeRanges = 196708) ∧
      (∀ cs, blankWriter.chunksFromRanges threeRanges 196708 = .ok cs →
        (expand cs).length = blocksFor blankWriter.blockSize 196708) ∧
      ∃ cs, blankWriter.chunksFromRanges threeRanges 196708 = .ok cs ∧ (expand cs).length = 4 := by
  obtain ⟨haccept, hcovers⟩ := (@chunksFromRanges_exact_iff threeRanges blankWriter 196708
    (by decide) (by decide) (by decide)).2 fun _ _ => by decide
  have hadm : Admissible blankWriter.blockSize threeRanges := by constructor <;> decide
  obtain ⟨cs, hcs⟩ := haccept.2 ⟨hadm, by decide⟩
  exact ⟨haccept, hcovers, cs, hcs, hcovers cs hcs⟩

end Writer

end Erofs
