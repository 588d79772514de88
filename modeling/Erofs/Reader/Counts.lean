import Erofs.Reader.Lookup
import Erofs.Reader.Stat

/-!
# Counts of blocks and chunks

`lookup`, `ReadDir`, `loadBlock` and the two functions that build data ranges each round a size to
blocks or chunks in their own way, in `int64` arithmetic.  `readInfo` lets every size below 2⁶³
through, and so the sums and products come close to the end of that range.

The main results:

* `searchBlocks_covers` — the search of `lookup` ends at a boundary between two blocks;
* `countsExact_iff` — every count and position is exact, and `lookup` searches all of a directory,
  exactly when the size is at least a block short of 2⁶³.
-/

namespace Erofs

open GoPath Oracle

/-- The number is stored in an `int64` as it is. -/
def Stored64 (n : ℕ) : Prop := int64 n = n

theorem stored64_of {n : ℕ} (h : n < 2 ^ 63) : Stored64 n :=
  int64_of (Int.natCast_nonneg n) (by rw [maxInt64]; omega)

namespace Image

section Search

variable (img : Image) (o : Req → Answer) (fi : Inode) (target : Bytes)

/-- The target is not before block `c`: there is no block before it, or `last`, whose first name is
no later than the target. -/
def NotBefore (c : ℕ) (last : Option Bytes) : Prop :=
  c = 0 ∧ last = none ∨ ∃ b buf first, c = b + 1 ∧ last = some buf ∧ img.dirBlock o fi b = .ok buf ∧
    blockFirstName buf = .ok first ∧ first ≤ target

/-- The target is not from block `c` on, of `n`: it is the end, a block that is not there, or one
that begins with a later name. -/
def NotFrom (n c : ℕ) : Prop :=
  c = n ∨ (∃ e, img.dirBlock o fi c = .error e ∧ e.is .eof = true) ∨
    ∃ buf first, img.dirBlock o fi c = .ok buf ∧ blockFirstName buf = .ok first ∧ target < first

/-- A search of `n` blocks that has found nothing: it came down to a boundary, and the block before
the boundary does not have the target. -/
def Searched (n : ℕ) : Prop :=
  ∃ c ≤ n, ∃ last, img.NotBefore o fi target c last ∧ img.NotFrom o fi target n c ∧
    ∀ buf, last = some buf → lookupBlock buf target = .error errNotExist

/-- A block of `n` that could not be searched, `e` being why. -/
def Unreadable (n : ℕ) (e : GoError) : Prop :=
  ∃ b < n, img.dirBlock o fi b = .error e ∨
    ∃ buf, img.dirBlock o fi b = .ok buf ∧ blockFirstName buf = .error e

end Search

variable {img : Image} {o : Req → Answer} {fi : Inode} {target : Bytes} {n fuel lo hi : ℕ}
  {last : Option Bytes}

/-- **The search of `lookup`**, over any blocks: it fails with a block's own error, or ends at a
boundary. -/
theorem searchBlocks_covers (hhi : hi ≤ n) (hle : lo ≤ hi) (hfuel : hi < lo + fuel)
    (hlo : img.NotBefore o fi target lo last) (hfrom : img.NotFrom o fi target n hi) :
    (∃ e, (searchBlocks img fi target fuel lo hi last).run o = .error e ∧
        img.Unreadable o fi n e) ∨
      ∃ c ≤ n, ∃ r, (searchBlocks img fi target fuel lo hi last).run o = .ok r ∧
        img.NotBefore o fi target c r ∧ img.NotFrom o fi target n c := by
  -- the interval shrinks from one side at each turn, and keeps both invariants
  induction fuel generalizing lo hi last with
  | zero => omega
  | succ fuel ih =>
    rw [searchBlocks]
    by_cases hend : hi ≤ lo
    · obtain rfl : lo = hi := by omega
      rw [if_pos hend]
      exact .inr ⟨lo, hhi, last, rfl, hlo, hfrom⟩
    rw [if_neg hend, Prog.run_bind]
    generalize hmid : lo + (hi - lo) / 2 = mid
    have hlm : lo ≤ mid := by omega
    have hmh : mid < hi := by omega
    cases hload : (img.loadBlock fi (mid * img.blockSize)).run o with
    | error e =>
      dsimp only
      split_ifs with heof
      · exact ih (by omega) hlm (by omega) hlo (.inr (.inl ⟨e, hload, heof⟩))
      · exact .inl ⟨e, rfl, mid, by omega, .inl hload⟩
    | ok buf =>
      dsimp only
      cases hfirst : blockFirstName buf with
      | error e => exact .inl ⟨e, rfl, mid, by omega, .inr ⟨buf, hload, hfirst⟩⟩
      | ok first =>
        dsimp only
        split_ifs with hcmp
        · exact ih hhi (by omega) (by omega) (.inr ⟨mid, buf, first, rfl, rfl, hload, hfirst, hcmp⟩)
            hfrom
        · exact ih (by omega) hlm (by omega) hlo
            (.inr (.inr ⟨buf, first, hload, hfirst, not_le.1 hcmp⟩))

/-- What `lookup` has done when it answers that there is no such name. -/
theorem lookupIn_notExist {nm : Bytes} {nid : ℕ} {ftype : FileMode}
    (hino : (img.readInfo nm nid ftype).run o = .ok fi)
    (h : (lookupIn img nm nid ftype target).run o = .error errNotExist) :
    img.Searched o fi target (lookupBlocks fi.size img.blockSize) ∨
      img.Unreadable o fi (lookupBlocks fi.size img.blockSize) errNotExist := by
  rw [lookupIn_run hino] at h
  generalize lookupBlocks fi.size img.blockSize = n at h ⊢
  obtain ⟨e, hrun, hbad⟩ | ⟨c, hc, r, hrun, hbefore, hfrom⟩ :=
    @searchBlocks_covers img o fi target n (n + 1) 0 n none le_rfl (Nat.zero_le _) (by omega)
      (.inl ⟨rfl, rfl⟩) (.inl rfl)
  · rw [hrun] at h
    cases h
    exact .inr hbad
  · rw [hrun] at h
    refine .inl ⟨c, hc, r, hbefore, hfrom, ?_⟩
    rintro buf rfl
    exact h

/-! ## Every count -/

variable (img fi) in
/-- The counts and positions computed for an inode are exact, and `lookup` searches all the blocks
that `loadBlock` and `ReadDir` have. -/
structure CountsExact : Prop where
  lookup : lookupBlocks fi.size img.blockSize = calculateBlocks img.sb.blkSizeBits fi.size
  /-- `lookup` answers that a name does not exist only after a search of the declared blocks. -/
  searched : ∀ o nm nid ftype target, (img.readInfo nm nid ftype).run o = .ok fi →
    (lookupIn img nm nid ftype target).run o = .error errNotExist →
    img.Searched o fi target (calculateBlocks img.sb.blkSizeBits fi.size) ∨
      img.Unreadable o fi (calculateBlocks img.sb.blkSizeBits fi.size) errNotExist
  /-- The position of each block, and the one `ReadDir` ends at. -/
  positions : ∀ b ≤ calculateBlocks img.sb.blkSizeBits fi.size, Stored64 (b * img.blockSize)
  blocks : Stored64 (calculateBlocks img.sb.blkSizeBits fi.size)
  /-- `headSize` of `buildDataRanges`. -/
  head : Stored64 ((fi.size - 1) / img.blockSize * img.blockSize)
  chunks : Stored64 (img.chunkCount fi)
  /-- `needed` of `buildChunkDataRanges`. -/
  map : Stored64 (img.chunkCount fi * chunkUnit fi)
  chunkPositions : ∀ c < img.chunkCount fi, Stored64 (c * 2 ^ img.chunkBits fi)

theorem chunkCount_le (hbits : 9 ≤ img.sb.blkSizeBits) (hsize : fi.size < 2 ^ 63) :
    img.chunkCount fi ≤ 2 ^ 54 := by
  have hpow : 2 ^ 9 ≤ 2 ^ img.chunkBits fi :=
    Nat.pow_le_pow_right (by decide) (hbits.trans (Nat.le_add_right _ _))
  rw [chunkCount]
  split_ifs
  · exact Nat.zero_le _
  · have hlt : (fi.size - 1) / 2 ^ img.chunkBits fi < 2 ^ 54 := by
      refine Nat.div_lt_of_lt_mul ?_
      calc fi.size - 1 < 2 ^ 9 * 2 ^ 54 := by omega
        _ ≤ 2 ^ img.chunkBits fi * 2 ^ 54 := Nat.mul_le_mul_right _ hpow
    omega

theorem chunk_pos_lt {c : ℕ} (hc : c < img.chunkCount fi) : c * 2 ^ img.chunkBits fi < fi.size := by
  rw [chunkCount] at hc
  split_ifs at hc with hzero
  · exact absurd hc (Nat.not_lt_zero c)
  · have hle : c * 2 ^ img.chunkBits fi ≤ fi.size - 1 :=
      (Nat.mul_le_mul_right _ (Nat.lt_succ_iff.1 hc)).trans (Nat.div_mul_le_self _ _)
    omega

/-- A size that is a block short of 2⁶³ ends in a block that is. -/
theorem block_pos_lt (h : fi.size + img.blockSize ≤ 2 ^ 63) {b : ℕ}
    (hb : b ≤ calculateBlocks img.sb.blkSizeBits fi.size) : b * img.blockSize < 2 ^ 63 := by
  rcases Nat.eq_zero_or_pos b with rfl | hpos
  · rw [Nat.zero_mul]
    decide
  · obtain ⟨b, rfl⟩ : ∃ m, b = m + 1 := ⟨b - 1, by omega⟩
    have hlt : b * img.blockSize < fi.size := lt_calculateBlocks_iff.1 hb
    rw [Nat.add_mul]
    omega

/-- **Counts.**  For every block size and every size `readInfo` admits, all counts and positions are
exact and `lookup` searches the blocks the directory declares, exactly when the size and a block
come to no more than 2⁶³. -/
theorem countsExact_iff (hlo : 9 ≤ img.sb.blkSizeBits) (hhi : img.sb.blkSizeBits ≤ 16)
    (hsize : fi.size < 2 ^ 63) : img.CountsExact fi ↔ fi.size + img.blockSize ≤ 2 ^ 63 := by
  constructor
  · intro h
    by_contra hbig
    have hzero : lookupBlocks fi.size img.blockSize = 0 :=
      lookupBlocks_wraps hhi hsize (not_le.1 hbig)
    have hle : img.blockSize ≤ 2 ^ 16 := Nat.pow_le_pow_right (by decide) hhi
    have hpos : 0 < calculateBlocks img.sb.blkSizeBits fi.size :=
      lt_calculateBlocks_iff.2 (by rw [Nat.zero_mul]; omega)
    rw [← h.lookup, hzero] at hpos
    exact absurd hpos (Nat.lt_irrefl 0)
  · intro h
    have hblocks : lookupBlocks fi.size img.blockSize =
        calculateBlocks img.sb.blkSizeBits fi.size :=
      lookupBlocks_eq h
    have hcount := chunkCount_le hlo hsize
    have hunit : chunkUnit fi ≤ 8 := by
      unfold chunkUnit
      split_ifs <;> decide
    refine ⟨hblocks, ?_, fun b hb => stored64_of (block_pos_lt h hb), stored64_of ?_,
      stored64_of ?_, stored64_of (by omega), stored64_of ?_,
      fun c hc => stored64_of ((chunk_pos_lt hc).trans hsize)⟩
    · intro o nm nid ftype target hino hans
      rw [← hblocks]
      exact lookupIn_notExist hino hans
    · exact lt_of_le_of_lt (Nat.le_mul_of_pos_right _ img.blockSize_pos) (block_pos_lt h le_rfl)
    · exact lt_of_le_of_lt (Nat.div_mul_le_self _ _) (by omega)
    · calc img.chunkCount fi * chunkUnit fi ≤ 2 ^ 54 * 8 := Nat.mul_le_mul hcount hunit
        _ < 2 ^ 63 := by decide

/-- A directory of 2⁶³ - 1 bytes in blocks of 2048 bytes has 2⁵² blocks, of which `lookup` searches
none. -/
theorem wideRoot_unsearched :
    lookupBlocks wideRoot.size wideFS.blockSize = 0 ∧
      calculateBlocks wideFS.sb.blkSizeBits wideRoot.size = 2 ^ 52 ∧
      ¬ Stored64 (2 ^ 52 * wideFS.blockSize) ∧ ¬ wideFS.CountsExact wideRoot := by
  have hlookup : lookupBlocks wideRoot.size wideFS.blockSize = 0 := by decide
  have hblocks : calculateBlocks wideFS.sb.blkSizeBits wideRoot.size = 2 ^ 52 := by decide
  have hpos : ¬ Stored64 (2 ^ 52 * wideFS.blockSize) := by
    unfold Stored64
    decide
  exact ⟨hlookup, hblocks, hpos, fun h => hpos (h.positions _ hblocks.ge)⟩

/-- With one block less, everything is exact. -/
theorem narrowRoot_exact :
    wideFS.CountsExact { wideRoot with size := 2 ^ 63 - 2048 } := by
  have hlo : 9 ≤ wideFS.sb.blkSizeBits := by decide
  have hhi : wideFS.sb.blkSizeBits ≤ 16 := by decide
  exact (countsExact_iff hlo hhi (by decide)).2 (by decide)

end Image

end Erofs
