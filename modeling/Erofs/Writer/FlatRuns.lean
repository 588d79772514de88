import Erofs.Reader.Place
import Erofs.Writer.ImageCopy
import Erofs.Writer.Runs

/-!
# The runs of a flat file

A flat file's blocks are numbered on the primary device, whose address space the extra devices are
mapped into.  `loadBlock` places every block by itself; the metadata copy cuts the file into the
longest runs on one device (`flatRun`).  The two agree block by block when no two devices are mapped
to the same address, wherever a mapped range begins or ends inside the file.

The main result is `flatChunks_placed`; `flatFileChunks_runs` says that the runs it is about are the
ones the copy gives a file, unless its size is within a block of 2⁶³ bytes, where the number of
blocks wraps (`flatBlocks_eq_int64`).
-/

namespace Erofs

open GoPath

/-- Block `s` of the primary device lies in the mapped range of `d`. -/
def DeviceInfo.Contains (d : DeviceInfo) (s : ℕ) : Prop :=
  d.mappedBlkAddr ≠ 0 ∧ d.mappedBlkAddr ≤ s ∧ s < d.mappedBlkAddr + d.blocks

instance (d : DeviceInfo) (s : ℕ) : Decidable (d.Contains s) :=
  inferInstanceAs (Decidable (_ ∧ _ ∧ _))

namespace Image

variable {img : Image} {ds : List DeviceInfo} {start blocks next k : ℕ}

/-- The mapped ranges of the devices are pairwise disjoint. -/
def Disjointed (ds : List DeviceInfo) : Prop :=
  ds.Pairwise fun d e => ∀ s, d.Contains s → ¬ e.Contains s

/-! ## Where a block is -/

/-- The device of block `s`, the first one of the table that is mapped there, counted from `k + 1`,
and the block on it; the image's own block, if there is none. -/
def blockHome (s : ℕ) : ℕ → List DeviceInfo → ℕ × ℕ
  | _, [] => (0, s)
  | k, d :: ds => if d.Contains s then (k + 1, s - d.mappedBlkAddr) else blockHome s (k + 1) ds

theorem blockHome_cons_pos {d : DeviceInfo} {s : ℕ} (h : d.Contains s) :
    blockHome s k (d :: ds) = (k + 1, s - d.mappedBlkAddr) := if_pos h

theorem blockHome_cons_neg {d : DeviceInfo} {s : ℕ} (h : ¬ d.Contains s) :
    blockHome s k (d :: ds) = blockHome s (k + 1) ds := if_neg h

/-- A block that is not the image's own is in a mapped range. -/
theorem exists_contains {s : ℕ} (h : (blockHome s k ds).1 ≠ 0) : ∃ d ∈ ds, d.Contains s := by
  induction ds generalizing k with
  | nil => exact absurd rfl h
  | cons d ds ih =>
    by_cases hd : d.Contains s
    · exact ⟨d, List.mem_cons_self, hd⟩
    · rw [blockHome_cons_neg hd] at h
      obtain ⟨e, he, hs⟩ := ih h
      exact ⟨e, List.mem_cons_of_mem _ he, hs⟩

theorem blockHome_le {s : ℕ} : (blockHome s k ds).2 ≤ s := by
  induction ds generalizing k with
  | nil => exact le_rfl
  | cons d ds ih =>
    by_cases hd : d.Contains s
    · rw [blockHome_cons_pos hd]
      exact Nat.sub_le _ _
    · rw [blockHome_cons_neg hd]
      exact ih

/-! ## One run -/

theorem flatRun_cons_pos {d : DeviceInfo} (h : d.Contains start) :
    flatRun start blocks k next (d :: ds) =
      (min blocks (d.mappedBlkAddr + d.blocks - start), k + 1, start - d.mappedBlkAddr) := by
  rw [flatRun, if_neg h.1, if_pos h.2]

theorem flatRun_cons_neg {d : DeviceInfo} (h : ¬ d.Contains start) :
    flatRun start blocks k next (d :: ds) =
      flatRun start blocks (k + 1)
        (if d.mappedBlkAddr ≠ 0 ∧ start < d.mappedBlkAddr then min next (d.mappedBlkAddr - start)
          else next) ds := by
  rw [flatRun]
  by_cases h0 : d.mappedBlkAddr = 0
  · rw [if_pos h0, if_neg (by simp [h0])]
  · rw [if_neg h0, if_neg fun hin => h ⟨h0, hin⟩]
    simp [h0]

/-- A run has at least one block and no more than are left, whatever the table. -/
theorem flatRun_pos (hnext : 0 < next) (hle : next ≤ blocks) :
    0 < (flatRun start blocks k next ds).1 ∧ (flatRun start blocks k next ds).1 ≤ blocks := by
  induction ds generalizing k next with
  | nil => exact ⟨hnext, hle⟩
  | cons d ds ih =>
    by_cases hd : d.Contains start
    · rw [flatRun_cons_pos hd]
      have := hd.2
      dsimp only
      omega
    · rw [flatRun_cons_neg hd]
      split_ifs with hlo
      · exact ih (by omega) (by omega)
      · exact ih hnext hle

/-- A run on the image ends before the next mapped range. -/
theorem flatRun_image (h : (flatRun start blocks k next ds).2.1 = 0) :
    (flatRun start blocks k next ds).1 ≤ next := by
  induction ds generalizing k next with
  | nil => exact le_rfl
  | cons d ds ih =>
    by_cases hd : d.Contains start
    · rw [flatRun_cons_pos hd] at h
      cases h
    · rw [flatRun_cons_neg hd] at h ⊢
      refine (ih h).trans ?_
      split_ifs <;> omega

/-- Every block of a run is where the table has it. -/
theorem flatRun_home (hdisj : Disjointed ds) {j : ℕ}
    (hj : j < (flatRun start blocks k next ds).1) :
    blockHome (start + j) k ds = ((flatRun start blocks k next ds).2.1,
      (flatRun start blocks k next ds).2.2 + j) := by
  induction ds generalizing k next with
  | nil => rfl
  | cons d ds ih =>
    obtain ⟨hd_disj, hds⟩ := List.pairwise_cons.1 hdisj
    by_cases hd : d.Contains start
    · rw [flatRun_cons_pos hd] at hj ⊢
      dsimp only at hj ⊢
      have hlo := hd.2
      have hin : d.Contains (start + j) := ⟨hd.1, by omega, by omega⟩
      rw [blockHome_cons_pos hin]
      exact Prod.ext rfl (by dsimp only; omega)
    · rw [flatRun_cons_neg hd] at hj ⊢
      have hrest := ih hds hj
      -- the run does not reach into the range of `d`
      have hout : ¬ d.Contains (start + j) := by
        intro hin
        by_cases himg : (flatRun start blocks (k + 1)
            (if d.mappedBlkAddr ≠ 0 ∧ start < d.mappedBlkAddr then
              min next (d.mappedBlkAddr - start) else next) ds).2.1 = 0
        · have hle := flatRun_image himg
          obtain ⟨h0, hlo, hhi⟩ := hin
          have hlt : start < d.mappedBlkAddr := by
            by_contra hge
            exact hd ⟨h0, by omega, by omega⟩
          rw [if_pos ⟨h0, hlt⟩] at hle hj
          omega
        · rw [← congrArg Prod.fst hrest] at himg
          obtain ⟨e, he, hs⟩ := exists_contains himg
          exact hd_disj e he _ hin hs
      rw [blockHome_cons_neg hout, hrest]

/-! ## The runs of the file -/

theorem flatRuns_succ (fuel : ℕ) (hb : blocks ≠ 0) :
    img.flatRuns (fuel + 1) start blocks =
      Writer.deviceChunks (flatRun start blocks 0 blocks img.devices).2.2
          (flatRun start blocks 0 blocks img.devices).1
          (flatRun start blocks 0 blocks img.devices).2.1 ++
        img.flatRuns fuel (start + (flatRun start blocks 0 blocks img.devices).1)
          (blocks - (flatRun start blocks 0 blocks img.devices).1) := by
  rw [flatRuns, if_neg hb]

theorem flatRuns_zero (fuel : ℕ) : img.flatRuns fuel start 0 = [] := by
  cases fuel <;> simp [flatRuns]

/-- The runs cover the blocks, whatever the table: the loop does not stop short. -/
theorem length_expand_flatRuns {fuel : ℕ} (hf : blocks ≤ fuel) :
    (expand (img.flatRuns fuel start blocks)).length = blocks := by
  induction fuel generalizing start blocks with
  | zero =>
    obtain rfl : blocks = 0 := by omega
    rfl
  | succ fuel ih =>
    by_cases hb : blocks = 0
    · rw [hb, flatRuns_zero, expand_nil, List.length_nil]
    · obtain ⟨hpos, hle⟩ := @flatRun_pos img.devices start blocks blocks 0 (by omega) le_rfl
      rw [flatRuns_succ fuel hb, expand_append, List.length_append,
        Writer.length_expand_deviceChunks, ih (by omega)]
      omega

/-- The runs have every block where the table has it. -/
theorem expand_flatRuns (hdisj : Disjointed img.devices) {fuel : ℕ} (hf : blocks ≤ fuel)
    (hend : start + blocks ≤ nullPhysicalBlock) :
    expand (img.flatRuns fuel start blocks) =
      (List.range blocks).map fun j => some (blockHome (start + j) 0 img.devices) := by
  induction fuel generalizing start blocks with
  | zero =>
    obtain rfl : blocks = 0 := by omega
    rfl
  | succ fuel ih =>
    by_cases hb : blocks = 0
    · rw [hb, flatRuns_zero]
      rfl
    · obtain ⟨hpos, hle⟩ := @flatRun_pos img.devices start blocks blocks 0 (by omega) le_rfl
      have hhome := fun j => @flatRun_home img.devices start blocks blocks 0 hdisj j
      rw [flatRuns_succ fuel hb]
      generalize flatRun start blocks 0 blocks img.devices = r at *
      obtain ⟨run, dev, phys⟩ := r
      obtain ⟨rest, rfl⟩ := Nat.exists_eq_add_of_le hle
      dsimp only at *
      have hphys : phys ≤ start := by
        have := @blockHome_le img.devices 0 start
        rwa [← Nat.add_zero start, hhome 0 hpos, Nat.add_zero] at this
      rw [expand_append, Nat.add_sub_cancel_left, ih (by omega) (by omega),
        Writer.expand_deviceChunks (.inr (by omega)), List.range_add, List.map_append, List.map_map]
      congr 1
      · refine List.map_congr_left fun j hj => ?_
        rw [hhome j (List.mem_range.1 hj), blockFrom_of_lt (by omega)]
      · exact List.map_congr_left fun j _ => by rw [Function.comp_apply, Nat.add_assoc]

/-! ## Against the block path -/

variable {s n : ℕ}

/-- Addresses of blocks are in a mapped range as the blocks are. -/
theorem mapsTo_block {d : DeviceInfo} :
    img.mapsTo d (s * img.blockSize : ℕ) = true ↔ d.Contains s := by
  have hbs := img.blockSize_pos
  rw [mapsTo_iff, mappedStart, mappedLength, DeviceInfo.Contains, ← Nat.cast_add, ← Nat.add_mul,
    Nat.cast_le, Nat.cast_lt, Nat.mul_le_mul_right_iff hbs, Nat.mul_lt_mul_right hbs]

theorem findMapped_home :
    (∃ d ∈ ds, d.Contains s ∧
        img.findMapped (s * img.blockSize : ℕ) k ds = some ((blockHome s k ds).1, d) ∧
        (blockHome s k ds).2 = s - d.mappedBlkAddr) ∨
      ((∀ d ∈ ds, ¬ d.Contains s) ∧ img.findMapped (s * img.blockSize : ℕ) k ds = none ∧
        blockHome s k ds = (0, s)) := by
  induction ds generalizing k with
  | nil => exact .inr ⟨by simp, rfl, rfl⟩
  | cons d ds ih =>
    by_cases hd : d.Contains s
    · refine .inl ⟨d, List.mem_cons_self, hd, ?_, by rw [blockHome_cons_pos hd]⟩
      rw [findMapped, if_pos (mapsTo_block.2 hd), blockHome_cons_pos hd]
    · rw [findMapped, if_neg fun h => hd (mapsTo_block.1 h), blockHome_cons_neg hd]
      obtain ⟨e, he, hall⟩ | ⟨hnone, hall⟩ := @ih (k + 1)
      · exact .inl ⟨e, List.mem_cons_of_mem _ he, hall⟩
      · exact .inr ⟨List.forall_mem_cons.2 ⟨hd, hnone⟩, hall⟩

/-- `locateRange` has a block, or the first bytes of one, where the table has it. -/
theorem locateRange_block (hn : n ≤ img.blockSize)
    (hmax : ((s * img.blockSize : ℕ) : Int) + n ≤ maxInt64)
    (himg : (∀ d ∈ img.devices, ¬ d.Contains s) →
      img.checkImageRange (s * img.blockSize : ℕ) n = .ok ()) :
    img.locateRange (s * img.blockSize : ℕ) n =
      .ok ((blockHome s 0 img.devices).1,
        ((blockHome s 0 img.devices).2 * img.blockSize : ℕ)) := by
  unfold locateRange
  rw [if_neg (by omega)]
  obtain ⟨d, -, hd, hfind, hblk⟩ | ⟨hnone, hfind, hhome⟩ := @findMapped_home img img.devices 0 s
  · obtain ⟨-, hlo, hhi⟩ := hd
    have hroom : (s + 1) * img.blockSize ≤ (d.mappedBlkAddr + d.blocks) * img.blockSize :=
      Nat.mul_le_mul_right _ hhi
    rw [Nat.add_mul, Nat.add_mul, Nat.one_mul] at hroom
    rw [hfind]
    dsimp only
    rw [if_neg (by unfold mappedStart mappedLength; omega), hblk, mappedStart, Nat.sub_mul,
      Nat.cast_sub (Nat.mul_le_mul_right _ hlo)]
  · rw [hfind, hhome]
    dsimp only
    rw [himg hnone]
    rfl

/-- Part of a range of the image is one. -/
theorem checkImageRange_part {off len off' len' : Int} (h : img.checkImageRange off len = .ok ())
    (hlo : off ≤ off') (hlen : 0 ≤ len') (hhi : off' + len' ≤ off + len) :
    img.checkImageRange off' len' = .ok () := by
  unfold checkImageRange at *
  split_ifs at h with h₁ h₂
  rw [if_neg (by omega), if_neg (by omega)]

theorem locateRange_max {pa len : Int} {q : ℕ × Int} (h : img.locateRange pa len = .ok q) :
    pa + len ≤ maxInt64 := by
  unfold locateRange at h
  by_cases hr : pa < 0 ∨ len < 0 ∨ maxInt64 - len < pa
  · rw [if_pos hr] at h
    cases h
  · omega

/-- A range that is placed as a whole has every block of it placed. -/
theorem locateRange_blocks {len j : ℕ} {q : ℕ × Int}
    (h : img.locateRange (s * img.blockSize : ℕ) len = .ok q) (hpos : 0 < n)
    (hn : n ≤ img.blockSize) (hj : j * img.blockSize + n ≤ len) :
    img.locateRange ((s + j) * img.blockSize : ℕ) n =
      .ok ((blockHome (s + j) 0 img.devices).1,
        ((blockHome (s + j) 0 img.devices).2 * img.blockSize : ℕ)) := by
  have hmax := locateRange_max h
  unfold locateRange at h
  rw [if_neg (by omega)] at h
  have hadd := Nat.add_mul s j img.blockSize
  refine locateRange_block hn (by omega) fun hout => ?_
  obtain ⟨d, hmem, hd, hfind, -⟩ | ⟨-, hfind, -⟩ := @findMapped_home img img.devices 0 s
  · -- the range ends inside the device's, so the block is inside it too
    rw [hfind] at h
    dsimp only at h
    split_ifs at h with hend
    unfold mappedStart mappedLength at hend
    have hlt : (s + j) * img.blockSize < (d.mappedBlkAddr + d.blocks) * img.blockSize := by
      rw [Nat.add_mul d.mappedBlkAddr]
      omega
    have hlt := Nat.lt_of_mul_lt_mul_right hlt
    exact absurd ⟨hd.1, le_add_right hd.2.1, hlt⟩ (hout d hmem)
  · rw [hfind] at h
    cases hc : img.checkImageRange (s * img.blockSize : ℕ) len with
    | error e =>
      dsimp only at h
      rw [hc] at h
      cases h
    | ok u => exact checkImageRange_part hc (by omega) (by omega) (by omega)

end Image

namespace Writer

variable {w : Writer} {img : Image} {p : Path} {ino : Inode} {d : FileData}

/-- The blocks of a flat file that stay where they are: all but an inline tail. -/
def wholeBlocks (img : Image) (ino : Inode) : ℕ :=
  blocksFor img.blockSize (ino.size - img.inlineTail ino)

/-- The number the copy computes is the quotient of the wrapped sum, as a `uint64`. -/
theorem flatBlocks_eq_int64 {bits n : ℕ} (hbits : bits ≤ 16) (hn : n < 2 ^ 63) :
    (flatBlocks (2 ^ bits) n : Int) =
      Erofs.int64 ((n + 2 ^ bits : ℕ) - 1) / (2 ^ bits : ℕ) % 2 ^ 64 := by
  have hpos : 0 < 2 ^ bits := Nat.two_pow_pos _
  have hle : 2 ^ bits ≤ 2 ^ 16 := Nat.pow_le_pow_right (by decide) hbits
  obtain ⟨k, hk⟩ : 2 ^ bits ∣ 2 ^ 64 := pow_dvd_pow 2 (by omega)
  have hcast : ((n + 2 ^ bits : ℕ) - 1 : Int) = ((n + 2 ^ bits - 1 : ℕ) : Int) := by omega
  have hlt : n + 2 ^ bits - 1 < 2 ^ 64 := by omega
  rw [hcast, flatBlocks]
  generalize n + 2 ^ bits - 1 = sum at hlt ⊢
  have hquot : sum / 2 ^ bits ≤ sum := Nat.div_le_self ..
  split_ifs with hsum
  · rw [int64_of (by omega) (by rw [maxInt64]; omega), ← Int.natCast_ediv]
    generalize sum / 2 ^ bits = q at hquot ⊢
    omega
  · -- the divisor divides 2⁶⁴, so that the wrap takes a whole number from the quotient
    have hwrap : (2 ^ 64 : Int) = k * (2 ^ bits : ℕ) := by
      rw [mul_comm]
      exact_mod_cast hk
    have hdiv : 2 ^ 64 / 2 ^ bits = k := Nat.div_eq_of_eq_mul_right hpos hk
    have hkle : k ≤ 2 ^ 64 := hdiv ▸ Nat.div_le_self ..
    have hlow : sum / 2 ^ bits < k := by
      rw [Nat.div_lt_iff_lt_mul hpos, mul_comm, ← hk]
      exact hlt
    have hneg : ((sum : Int) - 2 ^ 64) / (2 ^ bits : ℕ) = (sum / 2 ^ bits : ℕ) - k := by
      rw [hwrap, Int.sub_mul_ediv_right _ _ (by omega), Int.natCast_ediv]
    rw [int64_wraps (by omega) (by omega), hneg, hdiv]
    generalize sum / 2 ^ bits = q at *
    omega

theorem flatBlocks_eq {blockSize n : ℕ} (h : n + blockSize ≤ 2 ^ 63) :
    flatBlocks blockSize n = blocksFor blockSize n := by
  rw [flatBlocks, blocksFor]
  rw [if_pos (by omega)]

/-- A file with blocks has some for the copy. -/
theorem blocksFor_le_flatBlocks (blockSize n : ℕ) :
    blocksFor blockSize n ≤ flatBlocks blockSize n := by
  rw [flatBlocks, blocksFor]
  split_ifs <;> omega

/-- What the copy has checked of a flat file with blocks, and the runs it gives the file. -/
theorem flatFileChunks_ok (h : w.flatFileChunks img p ino = .ok d)
    (hwhole : wholeBlocks img ino ≠ 0) (hnull : ino.nullAddress = false) :
    (∃ q, img.locateRange (ino.startBlock * img.blockSize : ℕ)
        (ino.size - img.inlineTail ino : ℕ) = .ok q) ∧
      w.remapped p (img.flatChunks ino.startBlock
        (flatBlocks img.blockSize (ino.size - img.inlineTail ino))) = .ok d.chunks := by
  have hle : wholeBlocks img ino ≤ _ :=
    blocksFor_le_flatBlocks img.blockSize (ino.size - img.inlineTail ino)
  unfold flatFileChunks at h
  dsimp only at h
  rw [if_neg (by omega), if_neg (by simpa [Inode.nullAddress] using hnull)] at h
  obtain ⟨pa, hpa, h⟩ := except_bind_ok h
  obtain ⟨q, hq, h⟩ := except_bind_ok h
  obtain ⟨chunks, hchunks, h⟩ := except_bind_ok h
  cases h
  have hpa := mapError_ok hpa
  unfold Image.blockAddr at hpa
  split_ifs at hpa
  cases hpa
  exact ⟨⟨q, mapError_ok hq⟩, hchunks⟩

/-- Up to a block below 2⁶³ bytes nothing wraps: the runs are those of the whole blocks. -/
theorem flatFileChunks_runs (h : w.flatFileChunks img p ino = .ok d)
    (hwhole : wholeBlocks img ino ≠ 0) (hnull : ino.nullAddress = false)
    (hsize : ino.size - img.inlineTail ino + img.blockSize ≤ 2 ^ 63) :
    w.remapped p (img.flatChunks ino.startBlock (wholeBlocks img ino)) = .ok d.chunks := by
  rw [wholeBlocks, ← flatBlocks_eq hsize]
  exact (flatFileChunks_ok h hwhole hnull).2

/-- A whole block of a flat file ends where its blocks do, or before; a block that is not the last
is read in one piece. -/
theorem blockLen_whole (hlay : ino.inodeLayout = .flatPlain ∨ ino.inodeLayout = .flatInline) {j : ℕ}
    (hj : j < wholeBlocks img ino) :
    j * img.blockSize < ino.size ∧
      j * img.blockSize + img.blockLen ino.size (j * img.blockSize) ≤
        ino.size - img.inlineTail ino ∧
      (ino.inodeLayout = .flatInline → j * img.blockSize + img.blockSize < ino.size) := by
  have hbs := img.blockSize_pos
  have hlt := (lt_blocksFor_iff hbs).1 hj
  rw [Image.blockLen, Nat.mul_mod_left, Nat.sub_zero]
  obtain hlay | hlay := hlay
  · have htail : img.inlineTail ino = 0 := by simp [Image.inlineTail, hlay]
    exact ⟨by omega, by omega, by simp [hlay]⟩
  · have hsize : 0 < ino.size := by omega
    have hlast := Nat.div_mul_le_self (ino.size - 1) img.blockSize
    rw [Image.inlineTail, if_pos ⟨hlay, hsize⟩] at hlt ⊢
    generalize (ino.size - 1) / img.blockSize = q at *
    have hnext : (j + 1) * img.blockSize ≤ q * img.blockSize :=
      Nat.mul_le_mul_right _ (Nat.lt_of_mul_lt_mul_right (a := img.blockSize) (by omega))
    rw [Nat.add_mul, Nat.one_mul] at hnext
    exact ⟨by omega, by omega, fun _ => by omega⟩

/-- `loadBlock` places a whole block of an accepted file where the device table has it. -/
theorem blockPlace_whole (hlay : ino.inodeLayout = .flatPlain ∨ ino.inodeLayout = .flatInline)
    (hnull : ino.nullAddress = false) (h : w.flatFileChunks img p ino = .ok d) (b : Bytes) {j : ℕ}
    (hj : j < wholeBlocks img ino) :
    img.blockPlace b ino (j * img.blockSize) =
      some (.data (Image.blockHome (ino.startBlock + j) 0 img.devices).1
        ((Image.blockHome (ino.startBlock + j) 0 img.devices).2 * img.blockSize : ℕ)) := by
  have hbs := img.blockSize_pos
  obtain ⟨hlt, hend, hinner⟩ := blockLen_whole hlay hj
  obtain ⟨⟨q, hq⟩, -⟩ := flatFileChunks_ok h (by omega) hnull
  have hpos := img.blockLen_pos hlt
  have hlen : img.blockLen ino.size (j * img.blockSize) ≤ img.blockSize := by
    unfold Image.blockLen
    omega
  have hplace := Image.locateRange_blocks hq hpos hlen hend
  have hflat : img.flatPlace ino (j * img.blockSize) =
      some (.data (Image.blockHome (ino.startBlock + j) 0 img.devices).1
        ((Image.blockHome (ino.startBlock + j) 0 img.devices).2 * img.blockSize : ℕ)) := by
    have hmax := Image.locateRange_max hplace
    have haddr : ((ino.startBlock + j : ℕ) : Int) ≤ maxInt64 / img.blockSize := by
      rw [Int.le_ediv_iff_mul_le (by omega), ← Nat.cast_mul]
      omega
    rw [Image.flatPlace, Nat.mul_div_cancel _ hbs, Nat.mul_mod_left, Image.blockAddr,
      if_neg (not_lt.2 haddr)]
    dsimp only
    rw [Nat.cast_zero, add_zero, hplace]
  unfold Image.blockPlace
  obtain hlay | hlay := hlay
  · rw [hlay]
    dsimp only
    rw [hnull, if_neg (by decide), hflat]
  · rw [hlay]
    dsimp only
    unfold Image.inlinePlace
    dsimp only
    rw [Nat.mul_div_cancel _ hbs, if_neg (by have := hinner hlay; omega), hflat]

/-- **Flat data placement survives the copy.**  Every run has a block, whatever the device table;
and when no two devices are mapped to the same address, the runs of a file that is accepted cover
its whole blocks and have each one at the device and block `loadBlock` reads it at. -/
theorem flatChunks_placed (img : Image) :
    (∀ start blocks, 0 < blocks →
        0 < (Image.flatRun start blocks 0 blocks img.devices).1 ∧
          (Image.flatRun start blocks 0 blocks img.devices).1 ≤ blocks) ∧
      (Image.Disjointed img.devices → ∀ (w : Writer) (p : Path) (ino : Inode) (d : FileData)
        (b : Bytes), ino.inodeLayout = .flatPlain ∨ ino.inodeLayout = .flatInline →
        ino.nullAddress = false → w.flatFileChunks img p ino = .ok d →
        (expand (img.flatChunks ino.startBlock (wholeBlocks img ino))).length =
            wholeBlocks img ino ∧
          ∀ j < wholeBlocks img ino, ∃ dev blk,
            (expand (img.flatChunks ino.startBlock (wholeBlocks img ino)))[j]? =
                some (some (dev, blk)) ∧
              img.blockPlace b ino (j * img.blockSize) =
                some (.data dev (blk * img.blockSize : ℕ))) := by
  refine ⟨fun start blocks hb => Image.flatRun_pos hb le_rfl, ?_⟩
  intro hdisj w p ino d b hlay hnull h
  refine ⟨Image.length_expand_flatRuns le_rfl, fun j hj => ?_⟩
  have hbs := img.blockSize_pos
  obtain ⟨⟨q, hq⟩, -⟩ := flatFileChunks_ok h (by omega) hnull
  have hmax := Image.locateRange_max hq
  -- addresses are far below the null block
  have hend : ino.startBlock + wholeBlocks img ino ≤ nullPhysicalBlock := by
    have hstart := Nat.le_mul_of_pos_right ino.startBlock hbs
    have hblocks := blocksFor_le hbs (ino.size - img.inlineTail ino)
    unfold wholeBlocks nullPhysicalBlock
    unfold maxInt64 at hmax
    omega
  refine ⟨_, _, ?_, blockPlace_whole hlay hnull h b hj⟩
  rw [Image.flatChunks, Image.expand_flatRuns hdisj le_rfl hend, List.getElem?_map,
    List.getElem?_range hj]
  rfl

/-- An image with a device mapped at its blocks 8 and 9, and an empty range at block 10. -/
def mappedImage : Image where
  sb := { blkSizeBits := 9, rootNid := 0, blocks := 0, metaBlkAddr := 0 }
  size := 0
  devices := [{ mappedBlkAddr := 8, blocks := 2 }, { mappedBlkAddr := 10, blocks := 0 }]

/-- A flat file of the blocks 7 to 10, which starts and ends on the image. -/
def mappedFile : Inode where
  nid := 0
  icsize := 32
  inodeLayout := .flatPlain
  inodeData := 7
  size := 2000
  mode := 0
  rawMode := 0

theorem mappedFile_placed :
    (expand (mappedImage.flatChunks 7 4)).length = 4 ∧
      ∀ j < 4, ∃ dev blk, (expand (mappedImage.flatChunks 7 4))[j]? = some (some (dev, blk)) ∧
        mappedImage.blockPlace [] mappedFile (j * 512) = some (.data dev (blk * 512 : ℕ)) :=
  (flatChunks_placed mappedImage).2
    (by simp [Image.Disjointed, mappedImage, DeviceInfo.Contains])
    blankWriter [] mappedFile _ [] (.inl rfl) rfl rfl

end Writer

end Erofs
