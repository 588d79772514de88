import Erofs.Reader.Pages

/-!
# Lookup in sorted directories

`lookup` finds a name by two binary searches: over the blocks, comparing the target with each
block's first name, and over the dirents of the one block that can hold it.  The names come from
three decoders, of the first name, of a dirent by its number and of the last name in a block, which
agree with the grammar of `DirBlock` on every well-formed block.

The main results:

* `blockFirstName_eq`, `blockDirent_eq` — the decoders give the names of the grammar;
* `searchBlock_spec`, `searchBlocks_spec` — the two searches;
* `lookupExact_iff` — on a sorted directory `lookup` is exact, exactly when the directory is more
  than a block short of 2⁶³ bytes: beyond that its number of blocks wraps to a negative one.
-/

namespace Erofs

open GoPath Oracle DirBlock

/-! ## The decoders of `lookup` -/

section Decoders

variable {buf : Bytes} {i : ℕ}

theorem nextNameOff_eq {err : GoError} (h : Head buf) :
    nextNameOff buf (count buf) i err = .ok (sliceEnd buf i) := by
  unfold nextNameOff sliceEnd
  by_cases hi : i + 1 < count buf
  · have hin := h.dirent_inside hi
    rw [if_pos hi, if_pos hi, if_neg (by omega)]
    rfl
  · rw [if_neg hi, if_neg hi]

theorem sliceEnd_bounds (hs : DirBlock.Sound buf) (hi : i < count buf) :
    off buf i ≤ sliceEnd buf i ∧ sliceEnd buf i ≤ buf.length :=
  sliceEnd_bounds_iff.2 ⟨(hs.entry i hi).ordered, (hs.entry i hi).inside⟩

/-- The name of a dirent is its slice, cut at a NUL; only the last one needs the cut. -/
theorem untilNul_slice (hs : DirBlock.Sound buf) (hi : i < count buf) :
    untilNul (slice buf (off buf i) (sliceEnd buf i)) = name buf i := by
  by_cases hlast : i + 1 < count buf
  · rw [slice_next hlast]
    exact untilNul_eq_self (hs.entry i hi).valid.noNul
  · exact untilNul_slice_last hlast

theorem checkDirentName_name (hs : DirBlock.Sound buf) (hi : i < count buf) :
    checkDirentName (name buf i) = .ok () :=
  checkDirentName_ok_iff.2 (hs.entry i hi).valid

theorem blockFirstName_eq (hs : DirBlock.Sound buf) : blockFirstName buf = .ok (name buf 0) := by
  have hoff : (direntAt buf 0).nameOff = off buf 0 := rfl
  have hcount : off buf 0 / 12 = count buf := rfl
  have hpos := hs.head.count_pos
  have hin := hs.head.dirent_inside hpos
  have hlt := hs.head.inside
  obtain ⟨hlo, hhi⟩ := sliceEnd_bounds hs hpos
  simp only [blockFirstName, hoff, hcount, nextNameOff_eq hs.head, Disk.sizeDirent, bind,
    Except.bind, pure, Except.pure]
  rw [if_neg (by omega), if_neg (by omega), if_neg (by omega), untilNul_slice hs hpos,
    checkDirentName_name hs hpos]

theorem blockDirent_eq (hs : DirBlock.Sound buf) (hi : i < count buf) :
    blockDirent buf i (count buf) = .ok (direntAt buf i, name buf i) := by
  have hoff : (direntAt buf i).nameOff = off buf i := rfl
  have hin := hs.head.dirent_inside hi
  obtain ⟨hlo, hhi⟩ := sliceEnd_bounds hs hi
  have hname : (if i + 1 = count buf then untilNul (slice buf (off buf i) (sliceEnd buf i))
      else slice buf (off buf i) (sliceEnd buf i)) = name buf i := by
    split_ifs with hlast
    · exact untilNul_slice hs hi
    · exact slice_next (by omega)
  simp only [blockDirent, hoff, nextNameOff_eq hs.head, bind, Except.bind, pure, Except.pure]
  rw [if_neg (by omega), if_neg (by omega), hname, checkDirentName_name hs hi]

end Decoders

/-! ## The search in a block -/

section Block

variable {buf target : Bytes} {fuel lo hi : ℕ}

/-- The names of a block ascend. -/
def Ascending (buf : Bytes) : Prop := ∀ i j, i < j → j < count buf → name buf i < name buf j

theorem Ascending.first_le {buf : Bytes} {i : ℕ} (h : Ascending buf) (hi : i < count buf) :
    name buf 0 ≤ name buf i := by
  rcases Nat.eq_zero_or_pos i with rfl | hpos
  · exact le_rfl
  · exact (h 0 i hpos hi).le

/-- What a search for `target` in a block is to return. -/
def FoundIn (buf target : Bytes) (r : Except GoError (ℕ × FileMode)) : Prop :=
  (∀ i < count buf, name buf i = target → r = .ok ((entry buf i).nid, (entry buf i).ftype)) ∧
    ((∀ i < count buf, name buf i ≠ target) → r = .error errNotExist)

/-- A search that has come down to no dirent has looked at all of them. -/
theorem foundIn_none (hend : hi ≤ lo) (hlow : ∀ j < lo, name buf j < target)
    (hhigh : ∀ j, hi ≤ j → j < count buf → target < name buf j) :
    FoundIn buf target (.error errNotExist) := by
  refine ⟨fun i hi' he => ?_, fun _ => rfl⟩
  rcases lt_or_ge i lo with h | h
  · exact absurd he (hlow i h).ne
  · exact absurd he (hhigh i (by omega) hi').ne'

/-- The names before `lo` are smaller than the target and those from `hi` on are larger. -/
theorem searchBlock_spec (hs : DirBlock.Sound buf) (hasc : Ascending buf) (hhi : hi ≤ count buf)
    (hfuel : hi < lo + fuel) (hlow : ∀ j < lo, name buf j < target)
    (hhigh : ∀ j, hi ≤ j → j < count buf → target < name buf j) :
    FoundIn buf target (searchBlock buf target (count buf) fuel lo hi) := by
  induction fuel generalizing lo hi with
  | zero => exact foundIn_none (by omega) hlow hhigh
  | succ fuel ih =>
    rw [searchBlock]
    by_cases hend : hi ≤ lo
    · rw [if_pos hend]
      exact foundIn_none hend hlow hhigh
    rw [if_neg hend]
    generalize hmid : lo + (hi - lo) / 2 = mid
    have hlo : lo ≤ mid := by omega
    have hmh : mid < hi := by omega
    have hmc : mid < count buf := by omega
    dsimp only
    rw [blockDirent_eq hs hmc]
    dsimp only
    split_ifs with heq hlt
    · refine ⟨fun i hi' he => ?_, fun h => absurd heq (h mid (by omega))⟩
      have hne : i = mid := by
        rcases lt_trichotomy i mid with h | h | h
        · exact absurd (hasc i mid h (by omega)) (by rw [he, heq]; exact lt_irrefl _)
        · exact h
        · exact absurd (hasc mid i h hi') (by rw [he, heq]; exact lt_irrefl _)
      rw [hne]
      rfl
    · refine ih hhi (by omega) (fun j hj => ?_) hhigh
      rcases Nat.lt_succ_iff_lt_or_eq.1 hj with hj | rfl
      · exact (hasc j mid hj (by omega)).trans hlt
      · exact hlt
    · have hgt : target < name buf mid := lt_of_le_of_ne (not_lt.1 hlt) (Ne.symm heq)
      refine ih (by omega) (by omega) hlow fun j h1 h2 => ?_
      rcases h1.eq_or_lt with rfl | h1
      · exact hgt
      · exact hgt.trans (hasc mid j h1 h2)

theorem lookupBlock_spec (hs : DirBlock.Sound buf) (hasc : Ascending buf) :
    FoundIn buf target (lookupBlock buf target) := by
  have hoff : (direntAt buf 0).nameOff = off buf 0 := rfl
  have hcount : off buf 0 / 12 = count buf := rfl
  have hpos := hs.head.count_pos
  have hal := hs.head.aligned
  have hlt := hs.head.inside
  simp only [lookupBlock, hoff, hcount, Disk.sizeDirent]
  rw [if_neg (by omega), if_neg (by omega), if_neg (by omega)]
  exact searchBlock_spec hs hasc le_rfl (by omega) (fun j hj => absurd hj (Nat.not_lt_zero j))
    fun j h1 h2 => absurd h1 (by omega)

end Block

/-! ## The search over the blocks -/

namespace Image

section Blocks

variable (img : Image) (o : Req → Answer) (fi : Inode)

/-- A directory all of whose blocks are well formed and whose names, `"."` and `".."` among them,
strictly ascend within and across blocks. -/
structure SortedDir : Prop where
  sound : ∀ b < img.dirBlocks fi, img.SoundAt o fi b
  within : ∀ b < img.dirBlocks fi, ∀ buf, img.dirBlock o fi b = .ok buf → Ascending buf
  across : ∀ b b', b < b' → b' < img.dirBlocks fi → ∀ buf buf', img.dirBlock o fi b = .ok buf →
    img.dirBlock o fi b' = .ok buf' →
    ∀ i < DirBlock.count buf, ∀ j < DirBlock.count buf', name buf i < name buf' j

/-- What `lookup` of `target` is to return: the entry of that name, or that there is none. -/
structure LookupExact (lookup : Bytes → Except GoError (ℕ × FileMode)) : Prop where
  found : ∀ b < img.dirBlocks fi, ∀ buf, img.dirBlock o fi b = .ok buf →
    ∀ i < DirBlock.count buf,
      lookup (name buf i) = .ok ((entry buf i).nid, (entry buf i).ftype)
  absent : ∀ target, (∀ b < img.dirBlocks fi, ∀ buf, img.dirBlock o fi b = .ok buf →
    ∀ i < DirBlock.count buf, name buf i ≠ target) → lookup target = .error errNotExist

end Blocks

variable {img : Image} {o : Req → Answer} {fi : Inode} {target : Bytes} {fuel lo hi : ℕ}
  {last : Option Bytes}

/-- `last` is the block before `lo`, and its first name is no later than the target. -/
def Candidate (img : Image) (o : Req → Answer) (fi : Inode) (target : Bytes) (lo : ℕ)
    (last : Option Bytes) : Prop :=
  lo = 0 ∧ last = none ∨ ∃ b buf, lo = b + 1 ∧ last = some buf ∧ img.dirBlock o fi b = .ok buf ∧
    name buf 0 ≤ target

/-- From block `hi` on every first name is later than the target. -/
def LaterFrom (img : Image) (o : Req → Answer) (fi : Inode) (target : Bytes) (hi : ℕ) : Prop :=
  ∀ b, hi ≤ b → b < img.dirBlocks fi → ∀ buf, img.dirBlock o fi b = .ok buf → target < name buf 0

theorem searchBlocks_spec (hd : img.SortedDir o fi) (hhi : hi ≤ img.dirBlocks fi) (hle : lo ≤ hi)
    (hfuel : hi < lo + fuel) (hlast : img.Candidate o fi target lo last)
    (hlater : img.LaterFrom o fi target hi) :
    ∃ b r, (searchBlocks img fi target fuel lo hi last).run o = .ok r ∧ b ≤ img.dirBlocks fi ∧
      img.Candidate o fi target b r ∧ img.LaterFrom o fi target b := by
  induction fuel generalizing lo hi last with
  | zero => omega
  | succ fuel ih =>
    rw [searchBlocks]
    by_cases hend : hi ≤ lo
    · rw [if_pos hend]
      obtain rfl : lo = hi := by omega
      exact ⟨lo, last, rfl, hhi, hlast, hlater⟩
    rw [if_neg hend, Prog.run_bind]
    generalize hmid : lo + (hi - lo) / 2 = mid
    have hlo : lo ≤ mid := by omega
    have hmh : mid < hi := by omega
    obtain ⟨buf, hload, hs⟩ := hd.sound mid (by omega)
    have hload' : (img.loadBlock fi (mid * img.blockSize)).run o = .ok buf := hload
    rw [hload']
    dsimp only
    rw [blockFirstName_eq hs]
    dsimp only
    split_ifs with hfirst
    · exact ih hhi (by omega) (by omega) (.inr ⟨mid, buf, rfl, rfl, hload, hfirst⟩) hlater
    · have hgt : target < name buf 0 := not_le.1 hfirst
      refine ih (by omega) (by omega) (by omega) hlast fun b h1 h2 buf' hload'' => ?_
      rcases h1.eq_or_lt with rfl | h1
      · cases hload.symm.trans hload''
        exact hgt
      · obtain ⟨buf'', hb, hs'⟩ := hd.sound b h2
        cases hb.symm.trans hload''
        exact hgt.trans (hd.across mid b h1 h2 buf buf' hload hload'' 0 hs.head.count_pos 0
          hs'.head.count_pos)

/-! ## `lookup` -/

theorem lookupBlocks_eq {size bits : ℕ} (h : size + 2 ^ bits ≤ 2 ^ 63) :
    lookupBlocks size (2 ^ bits) = calculateBlocks bits size := by
  have hpos : 0 < 2 ^ bits := Nat.two_pow_pos _
  have hint : int64 ((size + 2 ^ bits : ℕ) - 1) = ((size + 2 ^ bits - 1 : ℕ) : Int) := by
    rw [int64_of (by omega) (by rw [maxInt64]; omega)]
    omega
  have hdiv : lookupBlocks size (2 ^ bits) = (size + 2 ^ bits - 1) / 2 ^ bits := by
    rw [lookupBlocks, hint, ← Int.ofNat_tdiv, Int.toNat_natCast]
  rw [hdiv]
  refine eq_of_forall_lt_iff fun b => ?_
  rw [lt_calculateBlocks_iff, Nat.lt_iff_add_one_le, Nat.le_div_iff_mul_le hpos, Nat.add_mul]
  omega

/-- Within a block of 2⁶³ bytes the number of blocks wraps. -/
theorem lookupBlocks_wraps {size bits : ℕ} (hbits : bits ≤ 16) (hsize : size < 2 ^ 63)
    (h : 2 ^ 63 < size + 2 ^ bits) : lookupBlocks size (2 ^ bits) = 0 := by
  have hle : 2 ^ bits ≤ 2 ^ 16 := Nat.pow_le_pow_right (by decide) hbits
  obtain ⟨k, hk⟩ : ∃ k : ℕ, int64 ((size + 2 ^ bits : ℕ) - 1) = -k := by
    refine ⟨2 ^ 64 - (size + 2 ^ bits - 1), ?_⟩
    rw [int64_wraps (by omega) (by omega)]
    omega
  rw [lookupBlocks, hk, Int.neg_tdiv, ← Int.ofNat_tdiv]
  exact Int.toNat_of_nonpos (neg_nonpos.2 (Int.natCast_nonneg _))

variable {nm : Bytes} {nid : ℕ} {ftype : FileMode}

theorem lookupIn_run (hino : (img.readInfo nm nid ftype).run o = .ok fi) (target : Bytes) :
    (lookupIn img nm nid ftype target).run o =
      ((searchBlocks img fi target (lookupBlocks fi.size img.blockSize + 1) 0
        (lookupBlocks fi.size img.blockSize) none).run o).bind fun last =>
          last.elim (.error errNotExist) (lookupBlock · target) := by
  rw [lookupIn, Prog.run_bind, hino]
  dsimp only
  rw [Prog.exec_bind]
  cases (searchBlocks img fi target (lookupBlocks fi.size img.blockSize + 1) 0
    (lookupBlocks fi.size img.blockSize) none).run o with
  | error e => rfl
  | ok last => cases last <;> rfl

theorem lookupExact_of (hino : (img.readInfo nm nid ftype).run o = .ok fi)
    (hd : img.SortedDir o fi) (hsize : fi.size + img.blockSize ≤ 2 ^ 63) :
    img.LookupExact o fi fun target => (lookupIn img nm nid ftype target).run o := by
  have hblocks : lookupBlocks fi.size img.blockSize = img.dirBlocks fi := lookupBlocks_eq hsize
  -- the one block that can hold a target, and what is found in it
  have hsearch : ∀ target, ∃ b r, b ≤ img.dirBlocks fi ∧ img.Candidate o fi target b r ∧
      img.LaterFrom o fi target b ∧ (lookupIn img nm nid ftype target).run o =
        r.elim (.error errNotExist) (lookupBlock · target) := by
    intro target
    obtain ⟨b, r, hrun, hb, hcand, hlater⟩ := @searchBlocks_spec img o fi target
      (img.dirBlocks fi + 1) 0 (img.dirBlocks fi) none hd le_rfl (Nat.zero_le _) (by omega)
      (.inl ⟨rfl, rfl⟩) fun b h1 h2 => absurd h1 (by omega)
    refine ⟨b, r, hb, hcand, hlater, ?_⟩
    rw [lookupIn_run hino, hblocks, hrun]
    rfl
  constructor
  · intro b hb buf hload i hi
    obtain ⟨c, r, hc, hcand, hlater, hrun⟩ := hsearch (name buf i)
    have hfirst := (hd.within b hb buf hload).first_le hi
    have hbc : b < c := not_le.1 fun hle => not_lt.2 hfirst (hlater b hle hb buf hload)
    rcases hcand with ⟨rfl, -⟩ | ⟨c, buf', rfl, rfl, hload', hle⟩
    · omega
    rw [hrun]
    rcases (Nat.lt_succ_iff_lt_or_eq.1 hbc) with hbc | rfl
    · obtain ⟨buf'', hload'', hs⟩ := hd.sound c (by omega)
      cases hload'.symm.trans hload''
      exact absurd hle (not_le.2 (hd.across b c hbc (by omega) buf buf' hload hload' i hi 0
        hs.head.count_pos))
    · cases hload.symm.trans hload'
      obtain ⟨buf'', hload'', hs⟩ := hd.sound b hb
      cases hload'.symm.trans hload''
      exact (lookupBlock_spec hs (hd.within b hb buf hload)).1 i hi rfl
  · intro target habsent
    obtain ⟨c, r, hc, hcand, -, hrun⟩ := hsearch target
    rw [hrun]
    rcases hcand with ⟨-, rfl⟩ | ⟨c, buf, rfl, rfl, hload, -⟩
    · rfl
    · obtain ⟨buf', hload', hs⟩ := hd.sound c (by omega)
      cases hload.symm.trans hload'
      exact (lookupBlock_spec hs (hd.within c (by omega) buf hload)).2
        (habsent c (by omega) buf hload)

/-- **Lookup.**  In a sorted directory `lookup` returns the entry of every name that it holds and
`fs.ErrNotExist` for every other, exactly when the directory's size and a block come to no more than
2⁶³ bytes. -/
theorem lookupExact_iff (hbits : img.sb.blkSizeBits ≤ 16)
    (hino : (img.readInfo nm nid ftype).run o = .ok fi) (hd : img.SortedDir o fi) :
    (img.LookupExact o fi fun target => (lookupIn img nm nid ftype target).run o) ↔
      fi.size + img.blockSize ≤ 2 ^ 63 := by
  refine ⟨fun h => ?_, lookupExact_of hino hd⟩
  by_contra hbig
  have hle : img.blockSize ≤ 2 ^ 16 := Nat.pow_le_pow_right (by decide) hbits
  have hlt : 0 < img.dirBlocks fi := lt_dirBlocks_iff.2 (by omega)
  obtain ⟨buf, hload, hs⟩ := hd.sound 0 hlt
  have hfound := h.found 0 hlt buf hload 0 hs.head.count_pos
  rw [lookupIn_run hino, blockSize,
    lookupBlocks_wraps hbits (readInfo_ok hino).2.size_lt (not_le.1 hbig)] at hfound
  cases hfound

/-- The names of the image with one file are found, and no others. -/
theorem oneFile_lookup :
    oneFileFS.sb.blkSizeBits ≤ 16 ∧
      (oneFileFS.readInfo [] 0 FileMode.dir).run (oneFileReader [0, 0]) = .ok oneFileRoot ∧
      oneFileFS.SortedDir (oneFileReader [0, 0]) oneFileRoot ∧
      oneFileFS.LookupExact (oneFileReader [0, 0]) oneFileRoot fun target =>
        (lookupIn oneFileFS [] 0 FileMode.dir target).run (oneFileReader [0, 0]) := by
  have hblocks : oneFileFS.dirBlocks oneFileRoot = 1 := by decide
  obtain ⟨buf, hload, hs, hasc⟩ : ∃ buf,
      oneFileFS.dirBlock (oneFileReader [0, 0]) oneFileRoot 0 = .ok buf ∧ DirBlock.Sound buf ∧
        ∀ j < DirBlock.count buf, ∀ i < j, name buf i < name buf j :=
    ⟨_, oneFile_dirBlock, by decide +kernel, by decide +kernel⟩
  have hd : oneFileFS.SortedDir (oneFileReader [0, 0]) oneFileRoot := by
    refine ⟨fun b hb => ?_, fun b hb buf' hbuf => ?_, fun b b' hlt hb' => by omega⟩ <;>
      obtain rfl : b = 0 := by omega
    · exact ⟨buf, hload, hs⟩
    · cases hload.symm.trans hbuf
      exact fun i j hij hj => hasc j hj i hij
  have hbits : oneFileFS.sb.blkSizeBits ≤ 16 := by decide
  exact ⟨hbits, oneFile_root, hd, (lookupExact_iff hbits oneFile_root hd).2 (by decide)⟩

/-! ## A directory of 2⁵² blocks -/

/-- A reader of `size` bytes, each given by its place. -/
def spelling (byte : ℕ → Byte) (size : ℕ) (q : Req) : Answer :=
  if q.off < 0 then ⟨[], some ⟨"negative offset", [], .external⟩⟩
  else
    let n := min q.len (size - q.off.toNat)
    ⟨(List.range n).map fun i => byte (q.off.toNat + i), if n < q.len then some eofError else none⟩

/-- The number `b` in `k` digits of base 128, each written as a byte over 127. -/
def key : ℕ → ℕ → Bytes
  | 0, _ => []
  | k + 1, b => key k (b / 128) ++ [Fin.ofNat 256 (128 + b % 128)]

/-- The first bytes of block `b`: a dirent, and the key of `b` as its name. -/
def wideHead (b : ℕ) : Bytes := [1, 0, 0, 0, 0, 0, 0, 0, 12, 0, 1, 0] ++ key 8 b

/-- The superblock: block size bits 11, root 62, one block. -/
def wideSuper : Bytes :=
  [0xe2, 0xe1, 0xf5, 0xe0] ++ zeros 8 ++ [11, 0, 62, 0] ++ zeros 20 ++ [1]

/-- Inode 62: extended, flat-plain, a directory of 2⁶³ - 1 bytes from block 0 on. -/
def wideInode : Bytes :=
  [1, 0, 0, 0, 0xed, 0x41, 0, 0, 0xff, 0xff, 0xff, 0xff, 0xff, 0xff, 0xff, 0x7f] ++ zeros 28 ++ [2]

/-- The byte at `a`: every block begins with its head and is padded with zeros, and the superblock
and the root's inode are in the padding of the first. -/
def wideByte (a : ℕ) : Byte :=
  if a % 2048 < 20 then (wideHead (a / 2048)).getD (a % 2048) 0
  else if a < 1024 ∨ 2048 ≤ a then 0
  else if a < 1984 then wideSuper.getD (a - 1024) 0
  else wideInode.getD (a - 1984) 0

/-- The reader of the image. -/
def wideReader : Req → Answer := spelling wideByte (2 ^ 63 - 1)

/-- What `Open` makes of it. -/
def wideFS : Image where
  sb := { blkSizeBits := 11, rootNid := 62, blocks := 1, metaBlkAddr := 0 }
  size := 2 ^ 63 - 1

/-- Its root directory. -/
def wideRoot : Inode where
  nid := 62
  icsize := 64
  inodeLayout := .flatPlain
  inodeData := 0
  addr48 := true
  size := 2 ^ 63 - 1
  mode := FileMode.dir ||| 0o755
  rawMode := 0o40755
  nlink := 2

theorem length_key (k b : ℕ) : (key k b).length = k := by
  induction k generalizing b with
  | zero => rfl
  | succ k ih => rw [key, List.length_append, ih, List.length_singleton]

theorem lt_of_mem_key {k b : ℕ} {x : Byte} (h : x ∈ key k b) : 127 < x.val := by
  induction k generalizing b with
  | zero => cases h
  | succ k ih =>
    rcases List.mem_append.1 h with h | h
    · exact ih h
    · rw [List.mem_singleton.1 h, Fin.val_ofNat]
      omega

theorem key_valid {k b : ℕ} (hk : 0 < k) : ValidName (key k b) := by
  refine ⟨fun h => ?_, fun h => ?_, fun h => ?_⟩
  · have hlen := length_key k b
    rw [h] at hlen
    exact absurd hlen hk.ne
  · exact absurd (lt_of_mem_key h) (by decide)
  · exact absurd (lt_of_mem_key h) (by decide)

theorem append_lt_append {a b : Bytes} (c d : Bytes) (hlen : a.length = b.length) (h : a < b) :
    a ++ c < b ++ d := by
  induction a generalizing b with
  | nil =>
    obtain rfl := List.length_eq_zero_iff.1 hlen.symm
    cases h
  | cons x a ih =>
    cases b with
    | nil => cases hlen
    | cons y b =>
      rw [List.cons_append, List.cons_append, List.cons_lt_cons_iff]
      rcases List.cons_lt_cons_iff.1 h with hxy | ⟨rfl, hab⟩
      · exact .inl hxy
      · exact .inr ⟨rfl, ih (Nat.succ.inj hlen) hab⟩

/-- Keys are in the order of their numbers. -/
theorem key_lt {k b b' : ℕ} (hlt : b < b') (hb' : b' < 128 ^ k) : key k b < key k b' := by
  induction k generalizing b b' with
  | zero => omega
  | succ k ih =>
    rw [key, key]
    rcases Nat.lt_or_ge (b / 128) (b' / 128) with h | h
    · exact append_lt_append _ _ (by rw [length_key, length_key]) (ih h (by omega))
    · have heq : b / 128 = b' / 128 := by omega
      rw [heq]
      refine List.append_left_lt (List.cons_lt_cons_iff.2 (.inl ?_))
      rw [Fin.lt_def, Fin.val_ofNat, Fin.val_ofNat]
      omega

/-- A block of one dirent. -/
theorem single_block {nm : Bytes} (rest : Bytes) (h : ValidName nm) :
    let buf := [1, 0, 0, 0, 0, 0, 0, 0, 12, 0, 1, 0] ++ nm ++ nulByte :: rest
    DirBlock.Sound buf ∧ DirBlock.count buf = 1 ∧ name buf 0 = nm := by
  intro buf
  have hoff : off buf 0 = 12 := rfl
  have hcount : DirBlock.count buf = 1 := by rw [DirBlock.count, hoff]
  have hdrop : buf.drop 12 = nm ++ nulByte :: rest := rfl
  have hlen : buf.length = 12 + (nm.length + (rest.length + 1)) := by
    simp [buf]
    omega
  have hname : name buf 0 = nm := by
    rw [name_last (by rw [hcount]; omega), hoff, hdrop, untilNul_append rest h.noNul]
  have hend : nameEnd buf 0 = 12 + nm.length := by
    rw [nameEnd_last (by rw [hcount]; omega), hoff, hdrop, untilNul_append rest h.noNul]
  refine ⟨⟨⟨by omega, by omega, by omega⟩, fun i hi => ?_⟩, hcount, hname⟩
  obtain rfl : i = 0 := by omega
  exact ⟨le_rfl, by omega, by omega, hname ▸ h⟩

/-- The length of block `b` of the directory. -/
def wideLen (b : ℕ) : ℕ := if b = 2 ^ 52 - 1 then 2047 else 2048

/-- The first `n` bytes of block `b`. -/
def wideSpan (b n : ℕ) : Bytes := (List.range n).map fun i => wideByte (b * 2048 + i)

theorem wideSpan_head (b : ℕ) : wideSpan b 20 = wideHead b := by
  refine List.ext_getElem? fun i => ?_
  have hlen : (wideHead b).length = 20 := by simp [wideHead, length_key]
  by_cases hi : i < 20
  · have hdiv : (b * 2048 + i) / 2048 = b := by omega
    have hmod : (b * 2048 + i) % 2048 = i := by omega
    rw [wideSpan, List.getElem?_map, List.getElem?_range hi, Option.map_some, wideByte, hdiv, hmod,
      if_pos hi, List.getD_eq_getElem?_getD, List.getElem?_eq_getElem (by omega)]
    rfl
  · rw [List.getElem?_eq_none (by simpa [wideSpan] using hi), List.getElem?_eq_none (by omega)]

/-- After the head of a block comes a NUL. -/
theorem wideSpan_eq (b k : ℕ) : ∃ rest, wideSpan b (21 + k) = wideHead b ++ nulByte :: rest := by
  have hnul : wideByte (b * 2048 + 20) = nulByte := by
    have hmod : (b * 2048 + 20) % 2048 = 20 := by omega
    rw [wideByte, hmod, if_neg (by decide)]
    rw [if_pos (by omega)]
    rfl
  have hsplit : wideSpan b (21 + k) = wideSpan b 20 ++ wideByte (b * 2048 + 20) ::
      (List.range k).map fun i => wideByte (b * 2048 + (21 + i)) := by
    rw [wideSpan, List.range_add, List.map_append, List.range_succ, List.map_append, List.map_map,
      List.append_assoc]
    rfl
  rw [hsplit, wideSpan_head, hnul]
  exact ⟨_, rfl⟩

theorem wideBlocks : wideFS.dirBlocks wideRoot = 2 ^ 52 := by decide

theorem wide_end (b : ℕ) :
    wideFS.blockEnd wideRoot.size b (2 ^ 52) = (wideLen b : Int) := by
  unfold blockEnd wideLen
  have hbs : wideFS.blockSize = 2048 := rfl
  have hsize : wideRoot.size = 2 ^ 63 - 1 := rfl
  rw [hbs, hsize]
  split_ifs with hlast
  · rw [hlast]
    norm_num
  · rfl

theorem wide_read {b n : ℕ} (hin : b * 2048 + n ≤ 2 ^ 63 - 1) :
    (wideFS.deviceReader 0 (b * 2048 : ℕ) n).run wideReader =
      ⟨wideSpan b n, none⟩ := by
  have hmin : min n (2 ^ 63 - 1 - b * 2048) = n := by omega
  rw [deviceReader, if_pos rfl, readerAt, Prog.run_ask, Prog.run_done, wideReader, spelling,
    if_neg (by simp)]
  simp only [Int.toNat_natCast, hmin, lt_irrefl, if_false]
  rw [List.take_of_length_le (by simp)]
  rfl

theorem wide_load {b : ℕ} (hb : b < 2 ^ 52) :
    wideFS.dirBlock wideReader wideRoot b =
      .ok (wideSpan b (wideLen b)) := by
  have hbs : wideFS.blockSize = 2048 := rfl
  have hlen : wideLen b ≤ 2048 ∧ 2047 ≤ wideLen b ∧ b * 2048 + wideLen b ≤ 2 ^ 63 - 1 := by
    unfold wideLen
    split_ifs <;> omega
  obtain ⟨hle, hge, hin⟩ := hlen
  have hnb : calculateBlocks wideFS.sb.blkSizeBits wideRoot.size = 2 ^ 52 := wideBlocks
  have hdiv : b * 2048 / 2048 = b := Nat.mul_div_cancel b (by decide)
  have hmod : b * 2048 % 2048 = 0 := Nat.mul_mod_left b 2048
  have hnull : wideRoot.nullAddress = false := by decide
  have haddr : wideFS.blockAddr wideRoot.nid (wideRoot.startBlock + b) = .ok (b * 2048 : ℕ) := by
    have hstart : wideRoot.startBlock + b = b := Nat.zero_add b
    rw [hstart, blockAddr, hbs, if_neg (by unfold maxInt64; omega)]
  have hplace : wideFS.placeBlock true (b * 2048 : ℕ) (wideLen b) = .ok (0, (b * 2048 : ℕ)) := by
    have hcheck : wideFS.checkImageRange (b * 2048 : ℕ) (wideLen b) = .ok () := by
      have hsize : wideFS.size = 2 ^ 63 - 1 := rfl
      rw [checkImageRange, hsize, if_neg (by unfold maxInt64; omega), if_neg (by omega)]
    rw [placeBlock, if_pos rfl, locateRange, if_neg (by unfold maxInt64; omega)]
    show ((wideFS.checkImageRange (b * 2048 : ℕ) (wideLen b)).map fun _ => (0, _)) = _
    rw [hcheck]
    rfl
  have hbounds : wideFS.boundsOk 0 (wideLen b) = true := by
    rw [boundsOk, hbs]
    simp
    omega
  have hlayout : wideRoot.inodeLayout = .flatPlain := rfl
  rw [dirBlock, loadBlock, hbs, hnb, hdiv, if_neg (by omega), hlayout, loadFlatPlain, hnull, hbs,
    hmod, wide_end b, loadFlat, haddr]
  simp only [Bool.false_eq_true, if_false, loadPlaced, Nat.cast_zero, hbounds, Bool.not_true,
    add_zero, Int.sub_zero, Int.toNat_natCast, hplace]
  rw [readWindow, Prog.run_bind, wide_read hin, Prog.run_done, windowOf, if_pos]
  simp [wideSpan]

/-- The blocks of the directory hold one entry each, named by the block's key. -/
theorem wide_block {b : ℕ} (hb : b < 2 ^ 52) :
    ∃ buf, wideFS.dirBlock wideReader wideRoot b = .ok buf ∧ DirBlock.Sound buf ∧
      DirBlock.count buf = 1 ∧ name buf 0 = key 8 b := by
  refine ⟨_, wide_load hb, ?_⟩
  obtain ⟨k, hk⟩ : ∃ k, wideLen b = 21 + k := by
    refine ⟨wideLen b - 21, ?_⟩
    unfold wideLen
    split_ifs <;> omega
  obtain ⟨rest, hrest⟩ := wideSpan_eq b k
  rw [hk, hrest]
  exact single_block rest (key_valid (by decide))

theorem wide_sorted : wideFS.SortedDir wideReader wideRoot := by
  refine ⟨fun b hb => ?_, fun b hb buf hload => ?_, fun b b' hlt hb' buf buf' hload hload' => ?_⟩
  · rw [wideBlocks] at hb
    obtain ⟨buf, hload, hs, -⟩ := wide_block hb
    exact ⟨buf, hload, hs⟩
  · rw [wideBlocks] at hb
    obtain ⟨buf', hload', -, hcount, -⟩ := wide_block hb
    cases hload.symm.trans hload'
    intro i j hij hj
    omega
  · rw [wideBlocks] at hb'
    obtain ⟨_, h1, -, hcount, hname⟩ := wide_block (hlt.trans hb')
    obtain ⟨_, h2, -, hcount', hname'⟩ := wide_block hb'
    cases hload.symm.trans h1
    cases hload'.symm.trans h2
    intro i hi j hj
    obtain rfl : i = 0 := by omega
    obtain rfl : j = 0 := by omega
    rw [hname, hname']
    exact key_lt hlt (hb'.trans (by decide))

/-- `Open` accepts the image, every block of its root directory is well formed and the names ascend,
and `lookup` finds none of them: `(2⁶³ - 1) + 2047` is negative as an `int64`. -/
theorem wide_notFound :
    (openImage 0 fun _ => some (2 ^ 63 - 1)).run wideReader = .ok wideFS ∧
      (wideFS.readInfo [] 62 FileMode.dir).run wideReader = .ok wideRoot ∧
      wideFS.SortedDir wideReader wideRoot ∧
      (lookupIn wideFS [] 62 FileMode.dir (key 8 0)).run wideReader = .error errNotExist ∧
      ¬ wideFS.LookupExact wideReader wideRoot fun target =>
        (lookupIn wideFS [] 62 FileMode.dir target).run wideReader := by
  have hlookup : (lookupIn wideFS [] 62 FileMode.dir (key 8 0)).run wideReader =
      .error errNotExist := by
    decide +kernel
  refine ⟨by decide +kernel, by decide +kernel, wide_sorted, hlookup, fun h => ?_⟩
  have hlt : 0 < wideFS.dirBlocks wideRoot := by rw [wideBlocks]; decide
  obtain ⟨buf, hload, -, hcount, hname⟩ := wide_block (by decide : 0 < 2 ^ 52)
  have hfound := h.found 0 hlt buf hload 0 (by omega)
  rw [hname, hlookup] at hfound
  cases hfound

end Image

end Erofs
