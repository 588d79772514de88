import Erofs.Reader.Place

/-!
# What is looked up in the device table

A byte of a file has an address, and an address of the primary device is looked up in the device
table, where the first device whose mapped range has it gets it.  The block path looks up every
block, `openDirect` the first address of a run, `Stat` the first address of an extent: three ways to
place a byte that differ in the one address that is looked up (`spot`).

The main results:

* `blockPlace_start` — the place at a position is the block's, as far on as the position is;
* `locateRange_iff`, `locate_iff`, `boundOnDevice_iff` — the three functions in terms of the first
  match and of the room a device has;
* `flatPlace_iff`, `chunkPlace_iff` — the block path has a block where the table puts it, and
  refuses it just when there is no room.
-/

namespace Erofs

open GoPath LittleEndian Oracle

namespace Image

variable {img : Image} {b : Bytes} {ino : Inode} {dev n k pos : ℕ} {off pa : Int}

/-! ## The block of a position -/

/-- Where the block of a position starts. -/
def blockStart (img : Image) (pos : ℕ) : ℕ := pos / img.blockSize * img.blockSize

theorem blockStart_add (pos : ℕ) : img.blockStart pos + pos % img.blockSize = pos :=
  Nat.div_add_mod' pos img.blockSize

theorem blockStart_le (pos : ℕ) : img.blockStart pos ≤ pos := Nat.div_mul_le_self _ _

@[simp] theorem blockStart_div (pos : ℕ) :
    img.blockStart pos / img.blockSize = pos / img.blockSize :=
  Nat.mul_div_cancel _ img.blockSize_pos

@[simp] theorem blockStart_mod (pos : ℕ) : img.blockStart pos % img.blockSize = 0 :=
  Nat.mul_mod_left _ _

@[simp] theorem blockStart_blockStart (pos : ℕ) :
    img.blockStart (img.blockStart pos) = img.blockStart pos := by
  rw [blockStart, blockStart_div, blockStart]

/-- The positions of a block start where it does. -/
theorem blockStart_within {q : ℕ} (hq : q % img.blockSize = 0) (hk : k < img.blockSize) :
    img.blockStart (q + k) = q := by
  obtain ⟨m, rfl⟩ := Nat.dvd_of_mod_eq_zero hq
  rw [blockStart, Nat.mul_add_div img.blockSize_pos, Nat.div_eq_of_lt hk, Nat.add_zero,
    Nat.mul_comm]

theorem blockLen_rest (size pos : ℕ) :
    img.blockLen size pos = img.blockLen size (img.blockStart pos) - pos % img.blockSize := by
  have hadd := img.blockStart_add pos
  unfold blockLen
  rw [blockStart_mod]
  omega

/-- A chunk is a whole number of blocks. -/
theorem chunk_blocks : 2 ^ img.chunkBits ino = 2 ^ (ino.chunkFormat &&& 0x1f) * img.blockSize := by
  rw [chunkBits, pow_add, blockSize, Nat.mul_comm]

theorem blockStart_chunk (pos : ℕ) :
    img.blockStart pos / 2 ^ img.chunkBits ino = pos / 2 ^ img.chunkBits ino := by
  rw [chunk_blocks, Nat.mul_comm, ← Nat.div_div_eq_div_mul, ← Nat.div_div_eq_div_mul,
    blockStart_div]

theorem blockLen_le (hpos : pos < ino.size) : pos + img.blockLen ino.size pos ≤ ino.size := by
  unfold blockLen
  omega

/-- The part of a block's window that starts `i` bytes in is inside the file. -/
theorem blockLen_start (hpos : pos < ino.size) :
    pos % img.blockSize < img.blockLen ino.size (img.blockStart pos) := by
  have hdm := Nat.div_add_mod' pos img.blockSize
  have hmod := Nat.mod_lt pos img.blockSize_pos
  rw [blockLen, blockStart_mod, blockStart]
  omega

/-! ## Bounds go by the end of a range -/

theorem checkImageRange_iff : img.checkImageRange off n = .ok () ↔
    0 ≤ off ∧ off + n ≤ maxInt64 ∧ (0 < img.size → off + n ≤ img.size) := by
  unfold checkImageRange
  split_ifs with hrange hsize
  · simp only [false_iff]
    omega
  · simp only [false_iff]
    omega
  · simp only [true_iff]
    omega

theorem checkImageRange_shift (hk : k ≤ n) (h0 : 0 ≤ off + k → 0 ≤ off) :
    img.checkImageRange (off + k) (n - k : ℕ) = .ok () ↔ img.checkImageRange off n = .ok () := by
  rw [checkImageRange_iff, checkImageRange_iff]
  omega

/-- Device `dev` has room for `n` bytes at `off`: as much as its reader says, or as its slot
declares where the reader says nothing. -/
def HasRoom (img : Image) (dev : ℕ) (off : Int) (n : ℕ) : Prop :=
  if dev = 0 then 0 < img.size → off + n ≤ img.size
  else match img.devices[dev - 1]? with
    | none => False
    | some d =>
      if 0 < d.size then off + n ≤ d.size else d.blocks ≠ 0 → off + n ≤ img.mappedLength d

theorem HasRoom.mono {off' : Int} {m : ℕ} (h : img.HasRoom dev off n) (hle : off' + m ≤ off + n) :
    img.HasRoom dev off' m := by
  unfold HasRoom at *
  by_cases hdev : dev = 0
  · rw [if_pos hdev] at h ⊢
    exact fun hs => hle.trans (h hs)
  rw [if_neg hdev] at h ⊢
  cases hd : img.devices[dev - 1]? with
  | none => simp only [hd] at h
  | some d =>
    simp only [hd] at h ⊢
    split_ifs at h ⊢
    · exact hle.trans h
    · exact fun hb => hle.trans (h hb)

/-- `boundOnDevice` asks for room. -/
theorem boundOnDevice_iff : img.boundOnDevice dev off n = .ok () ↔
    0 ≤ off ∧ off + n ≤ maxInt64 ∧ img.HasRoom dev off n := by
  unfold boundOnDevice HasRoom
  by_cases hdev : dev = 0
  · rw [if_pos hdev, if_pos hdev, checkImageRange_iff]
  rw [if_neg hdev, if_neg hdev]
  cases img.devices[dev - 1]? with
  | none => simp
  | some d =>
    dsimp only
    by_cases hrange : off < 0 ∨ (n : Int) < 0 ∨ maxInt64 - n < off
    · rw [if_pos hrange]
      simp only [reduceCtorEq, false_iff]
      omega
    rw [if_neg hrange]
    by_cases hsize : 0 < d.size
    · rw [if_pos hsize, if_pos hsize]
      split_ifs
      · simp only [false_iff]
        omega
      · simp only [true_iff]
        omega
    · rw [if_neg hsize, if_neg hsize]
      split_ifs
      · simp only [false_iff]
        omega
      · simp only [true_iff]
        omega

theorem boundOnDevice_shift (hk : k ≤ n) (h0 : 0 ≤ off) :
    img.boundOnDevice dev (off + k) (n - k : ℕ) = .ok () ↔
      img.boundOnDevice dev off n = .ok () := by
  have hend : off + k + (n - k : ℕ) = off + n := by omega
  rw [boundOnDevice_iff, boundOnDevice_iff, hend]
  constructor
  · rintro ⟨-, htop, hroom⟩
    exact ⟨h0, htop, hroom.mono hend.ge⟩
  · rintro ⟨-, htop, hroom⟩
    exact ⟨by omega, htop, hroom.mono hend.le⟩

/-! ## The first match -/

/-- The mapped ranges are of whole blocks. -/
theorem mapsTo_inside (d : DeviceInfo) (bn : ℕ) (hk : k < img.blockSize) :
    img.mapsTo d ((bn * img.blockSize : ℕ) + k) = img.mapsTo d (bn * img.blockSize : ℕ) := by
  have hle : ∀ m : ℕ, m * img.blockSize ≤ bn * img.blockSize + k ↔
      m * img.blockSize ≤ bn * img.blockSize := by
    intro m
    refine ⟨fun h => Nat.mul_le_mul_right _ ?_, fun h => h.trans (Nat.le_add_right _ _)⟩
    by_contra hlt
    have := Nat.mul_le_mul_right img.blockSize (not_le.1 hlt)
    rw [Nat.succ_mul] at this
    omega
  have hstart := hle d.mappedBlkAddr
  have hend := hle (d.mappedBlkAddr + d.blocks)
  rw [Nat.add_mul] at hend
  rw [Bool.eq_iff_iff, mapsTo_iff, mapsTo_iff, mappedStart, mappedLength]
  omega

theorem findMapped_inside (bn : ℕ) (hk : k < img.blockSize) (j : ℕ) (ds : List DeviceInfo) :
    img.findMapped ((bn * img.blockSize : ℕ) + k) j ds =
      img.findMapped (bn * img.blockSize : ℕ) j ds := by
  induction ds generalizing j with
  | nil => rfl
  | cons d ds ih => rw [findMapped, findMapped, mapsTo_inside d bn hk, ih]

/-- The first device of the table whose mapped range has address `pa`, with its number. -/
def firstMapped (img : Image) (pa : Int) : Option (ℕ × DeviceInfo) :=
  img.findMapped pa 0 img.devices

/-- Where the table puts address `pa` of the primary device. -/
def mappedPlace (img : Image) (pa : Int) : ℕ × Int :=
  match img.firstMapped pa with
  | some (k, d) => (k, pa - img.mappedStart d)
  | none => (0, pa)

theorem firstMapped_some {d : DeviceInfo} (h : img.firstMapped pa = some (k, d)) :
    0 < k ∧ img.devices[k - 1]? = some d ∧ img.mapsTo d pa = true := findMapped_some h

theorem mappedPlace_nonneg (h : 0 ≤ pa) : 0 ≤ (img.mappedPlace pa).2 := by
  unfold mappedPlace
  cases hf : img.firstMapped pa with
  | none => exact h
  | some kd =>
    obtain ⟨-, hlo, -⟩ := mapsTo_iff.1 (firstMapped_some hf).2.2
    exact Int.sub_nonneg.2 hlo

theorem mappedPlace_le : (img.mappedPlace pa).2 ≤ pa := by
  unfold mappedPlace
  cases img.firstMapped pa with
  | none => exact le_rfl
  | some kd => exact Int.sub_le_self pa (Int.natCast_nonneg _)

theorem mappedPlace_sits (pa : Int) :
    img.Sits 0 pa (img.mappedPlace pa).1 (img.mappedPlace pa).2 := by
  unfold mappedPlace
  cases hf : img.firstMapped pa with
  | none => exact .inl ⟨rfl, rfl⟩
  | some kd =>
    obtain ⟨hk, hd, -⟩ := firstMapped_some hf
    exact .inr ⟨rfl, hk, _, hd, rfl⟩

/-- A block that starts in a mapped range ends there. -/
theorem mapped_block_end {d : DeviceInfo} {bn : ℕ}
    (h : img.mapsTo d (bn * img.blockSize : ℕ) = true) (hn : n ≤ img.blockSize) :
    ((bn * img.blockSize : ℕ) : Int) + n ≤ img.mappedStart d + img.mappedLength d := by
  have hbs := img.blockSize_pos
  rw [← mapsTo_inside d bn (by omega : img.blockSize - 1 < img.blockSize)] at h
  have := (mapsTo_iff.1 h).2.2
  omega

/-- `locateRange` takes the first match, and its mapped range must hold the whole. -/
theorem locateRange_iff {p : ℕ × Int} : img.locateRange pa n = .ok p ↔
    0 ≤ pa ∧ pa + n ≤ maxInt64 ∧ p = img.mappedPlace pa ∧
      match img.firstMapped pa with
      | some (_, d) => pa + n ≤ img.mappedStart d + img.mappedLength d
      | none => img.HasRoom 0 pa n := by
  unfold locateRange mappedPlace firstMapped
  by_cases hrange : pa < 0 ∨ (n : Int) < 0 ∨ maxInt64 - n < pa
  · rw [if_pos hrange]
    simp only [reduceCtorEq, false_iff]
    omega
  rw [if_neg hrange]
  have h0 : 0 ≤ pa := by omega
  have htop : pa + n ≤ maxInt64 := by omega
  cases img.findMapped pa 0 img.devices with
  | none =>
    have hroom : img.checkImageRange pa n = .ok () ↔ img.HasRoom 0 pa n := by
      rw [checkImageRange_iff, HasRoom, if_pos rfl]
      simp only [h0, htop, true_and]
    dsimp only
    rw [← hroom]
    cases img.checkImageRange pa n with
    | ok u => simp [Except.map, h0, htop, eq_comm]
    | error e => simp [Except.map]
  | some kd =>
    dsimp only
    split_ifs with hend
    · simp only [false_iff]
      omega
    · simp [h0, htop, not_lt.1 hend, eq_comm]

/-- Where address `pa` of device `deviceID` is: only the primary device's are looked up. -/
def addrPlace (img : Image) (deviceID : ℕ) (pa : Int) : ℕ × Int :=
  if deviceID = 0 then img.mappedPlace pa else (deviceID, pa)

theorem addrPlace_nonneg (deviceID : ℕ) (h : 0 ≤ pa) : 0 ≤ (img.addrPlace deviceID pa).2 := by
  unfold addrPlace
  split_ifs
  · exact mappedPlace_nonneg h
  · exact h

theorem addrPlace_le (deviceID : ℕ) : (img.addrPlace deviceID pa).2 ≤ pa := by
  unfold addrPlace
  split_ifs
  · exact mappedPlace_le
  · exact le_rfl

theorem locate_place {deviceID : ℕ} {p : ℕ × Int} (h : img.locate deviceID pa = .ok p) :
    p = img.addrPlace deviceID pa := by
  unfold locate at h
  unfold addrPlace mappedPlace firstMapped
  by_cases hid : 0 < deviceID
  · rw [if_pos hid] at h
    split_ifs at h
    rw [if_neg hid.ne']
    exact (Except.ok.inj h).symm
  · rw [if_neg hid] at h
    rw [if_pos (by omega)]
    cases hf : img.findMapped pa 0 img.devices with
    | none =>
      simp only [hf] at h ⊢
      split_ifs at h
      exact (Except.ok.inj h).symm
    | some kd =>
      simp only [hf] at h ⊢
      exact (Except.ok.inj h).symm

theorem locate_nonneg {deviceID : ℕ} (h : img.locate deviceID pa = .ok (dev, off)) (h0 : 0 ≤ pa) :
    0 ≤ off := by
  have hp := img.addrPlace_nonneg deviceID h0
  rwa [← locate_place h] at hp

/-- `locate` and the bound after it: the range is where the address is, if there is room. -/
theorem locate_bound_iff {deviceID : ℕ} (h0 : 0 ≤ pa) (hn : 0 < n) (htop : pa + n ≤ maxInt64)
    {p : ℕ × Int} :
    img.locate deviceID pa = .ok p ∧ img.boundOnDevice p.1 p.2 n = .ok () ↔
      p = img.addrPlace deviceID pa ∧ img.HasRoom p.1 p.2 n := by
  have hnonneg := img.addrPlace_nonneg deviceID h0
  have hle := @addrPlace_le img pa deviceID
  constructor
  · rintro ⟨hloc, hbound⟩
    exact ⟨locate_place hloc, (boundOnDevice_iff.1 hbound).2.2⟩
  · rintro ⟨rfl, hroom⟩
    refine ⟨?_, boundOnDevice_iff.2 ⟨hnonneg, by omega, hroom⟩⟩
    unfold addrPlace mappedPlace firstMapped at *
    unfold locate
    by_cases hid : deviceID = 0
    · rw [if_pos hid] at hroom ⊢
      rw [if_neg (by omega)]
      cases hf : img.findMapped pa 0 img.devices with
      | none =>
        simp only [hf] at hroom ⊢
        rw [HasRoom, if_pos rfl] at hroom
        exact if_neg (by rintro (h | ⟨hs, h⟩) <;> [omega; have := hroom hs]; omega)
      | some kd => simp only
    · rw [if_neg hid] at hroom ⊢
      rw [if_pos (by omega)]
      rw [HasRoom, if_neg hid] at hroom
      cases hd : img.devices[deviceID - 1]? with
      | none => simp only [hd] at hroom
      | some d =>
        have := (List.getElem?_eq_some_iff.1 hd).1
        exact if_neg (by omega)

theorem firstMapped_inside (bn : ℕ) (hk : k < img.blockSize) :
    img.firstMapped ((bn * img.blockSize : ℕ) + k) = img.firstMapped (bn * img.blockSize : ℕ) :=
  findMapped_inside bn hk 0 img.devices

theorem mappedPlace_inside (bn : ℕ) (hk : k < img.blockSize) :
    img.mappedPlace ((bn * img.blockSize : ℕ) + k) =
      ((img.mappedPlace (bn * img.blockSize : ℕ)).1,
        (img.mappedPlace (bn * img.blockSize : ℕ)).2 + k) := by
  unfold mappedPlace
  rw [firstMapped_inside bn hk]
  cases img.firstMapped (bn * img.blockSize : ℕ) with
  | none => rfl
  | some kd =>
    simp only [Prod.mk.injEq, true_and]
    omega

/-- A place inside a block is as far on from that of the block. -/
theorem locateRange_inside (bn : ℕ) (hk : k < img.blockSize) (hn : k ≤ n) {dev : ℕ} {off : Int} :
    img.locateRange ((bn * img.blockSize : ℕ) + k) (n - k : ℕ) = .ok (dev, off + k) ↔
      img.locateRange (bn * img.blockSize : ℕ) n = .ok (dev, off) := by
  have hend : ((bn * img.blockSize : ℕ) : Int) + k + (n - k : ℕ) =
      (bn * img.blockSize : ℕ) + n := by
    omega
  have hroom : img.HasRoom 0 ((bn * img.blockSize : ℕ) + k) (n - k) ↔
      img.HasRoom 0 (bn * img.blockSize : ℕ) n :=
    ⟨fun h => h.mono hend.ge, fun h => h.mono hend.le⟩
  have hplace : (dev, off + k) = ((img.mappedPlace (bn * img.blockSize : ℕ)).1,
      (img.mappedPlace (bn * img.blockSize : ℕ)).2 + k) ↔
      (dev, off) = img.mappedPlace (bn * img.blockSize : ℕ) := by
    rw [Prod.ext_iff, Prod.ext_iff]
    simp
  have h0 : (0 : Int) ≤ (bn * img.blockSize : ℕ) + k := by omega
  rw [locateRange_iff, locateRange_iff, hend, mappedPlace_inside bn hk, hplace,
    firstMapped_inside bn hk, hroom]
  simp only [h0, Int.natCast_nonneg, true_and]

/-! ## The place of a position -/

theorem flatPlace_start (hpos : pos < ino.size) {p : Place} :
    img.flatPlace ino pos = some p ↔
      ∃ q, img.flatPlace ino (img.blockStart pos) = some q ∧ p = q.add (pos % img.blockSize) := by
  have hmod := Nat.mod_lt pos img.blockSize_pos
  have hlt : pos % img.blockSize < img.blockLen ino.size (img.blockStart pos) :=
    img.blockLen_start hpos
  unfold flatPlace
  rw [blockStart_div, blockStart_mod, Nat.cast_zero, blockLen_rest]
  cases hb : img.blockAddr ino.nid (ino.startBlock + pos / img.blockSize) with
  | error e => simp
  | ok addr =>
    obtain rfl : addr = ((ino.startBlock + pos / img.blockSize) * img.blockSize : ℕ) := by
      unfold blockAddr at hb
      split_ifs at hb
      cases hb
      rfl
    dsimp only
    rw [add_zero]
    have hshift : ∀ dev off, _ ↔ _ := fun dev off =>
      @locateRange_inside img _ _ (ino.startBlock + pos / img.blockSize) hmod hlt.le dev off
    cases h : img.locateRange ((ino.startBlock + pos / img.blockSize) * img.blockSize : ℕ)
        (img.blockLen ino.size (img.blockStart pos)) with
    | ok q =>
      obtain ⟨dev, off⟩ := q
      rw [(hshift dev off).2 h]
      simp [Place.add, eq_comm]
    | error e =>
      cases h' : img.locateRange (((ino.startBlock + pos / img.blockSize) * img.blockSize : ℕ)
          + (pos % img.blockSize : ℕ))
          (img.blockLen ino.size (img.blockStart pos) - pos % img.blockSize : ℕ) with
      | ok q =>
        obtain ⟨dev, off⟩ := q
        have hoff : off = off - (pos % img.blockSize : ℕ) + (pos % img.blockSize : ℕ) := by omega
        rw [hoff] at h'
        rw [(hshift dev _).1 h'] at h
        cases h
      | error e' => simp

/-- Data behind the inode that does not cross a block's end is before the image or after its start
as a whole. -/
theorem trailing_nonneg {addr : Int} (h : addr % img.blockSize + k < img.blockSize)
    (h0 : 0 ≤ addr + k) : 0 ≤ addr := by
  by_contra hneg
  have hbs : (0 : Int) < img.blockSize := Int.natCast_pos.2 img.blockSize_pos
  have hdm := Int.emod_add_mul_ediv addr img.blockSize
  have hq : addr / img.blockSize ≤ -1 := by
    have := Int.ediv_neg_of_neg_of_pos (not_le.1 hneg) hbs
    omega
  have hmul : (img.blockSize : Int) * (addr / img.blockSize) ≤ img.blockSize * (-1) :=
    Int.mul_le_mul_of_nonneg_left hq hbs.le
  omega

theorem inlinePlace_start (hpos : pos < ino.size) {p : Place} :
    img.inlinePlace ino pos = some p ↔
      ∃ q, img.inlinePlace ino (img.blockStart pos) = some q ∧ p = q.add (pos % img.blockSize) := by
  have hadd := img.blockStart_add pos
  have hlt : pos % img.blockSize < img.blockLen ino.size (img.blockStart pos) :=
    img.blockLen_start hpos
  unfold inlinePlace
  rw [blockStart_div, ← blockStart, blockLen_rest]
  dsimp only
  generalize img.trailingAddr ino = addr
  by_cases htail : ino.size ≤ img.blockStart pos + img.blockSize
  · rw [if_pos htail, if_pos htail]
    by_cases hcross : (img.blockSize : Int) <
        addr % img.blockSize + (ino.size - img.blockStart pos : ℕ)
    · rw [if_pos hcross, if_pos hcross]
      simp
    rw [if_neg hcross, if_neg hcross]
    have hrest : pos - img.blockStart pos = pos % img.blockSize :=
      Nat.sub_eq_of_eq_add' hadd.symm
    have hzero : addr + ((img.blockStart pos - img.blockStart pos : ℕ) : Int) = addr := by simp
    rw [hrest, hzero]
    have hnonneg : 0 ≤ addr + (pos % img.blockSize : ℕ) → 0 ≤ addr :=
      img.trailing_nonneg (by omega)
    have hshift := img.checkImageRange_shift hlt.le hnonneg
    cases h : img.checkImageRange addr (img.blockLen ino.size (img.blockStart pos)) with
    | ok u =>
      rw [hshift.2 h]
      simp [Place.add, eq_comm]
    | error e =>
      cases h' : img.checkImageRange (addr + (pos % img.blockSize : ℕ))
          (img.blockLen ino.size (img.blockStart pos) - pos % img.blockSize : ℕ) with
      | ok u => rw [hshift.1 h'] at h; cases h
      | error e' => simp
  · rw [if_neg htail, if_neg htail]
    exact flatPlace_start hpos

theorem chunkDataPlace_start {deviceID : ℕ} {addr : Int} (hpos : pos < ino.size) (haddr : 0 ≤ addr)
    {p : Place} :
    img.chunkDataPlace ino pos deviceID addr = some p ↔
      ∃ q, img.chunkDataPlace ino (img.blockStart pos) deviceID addr = some q ∧
        p = q.add (pos % img.blockSize) := by
  have hlt : pos % img.blockSize < img.blockLen ino.size (img.blockStart pos) :=
    img.blockLen_start hpos
  have hchunk := Nat.div_mul_le_self (img.blockStart pos) (2 ^ img.chunkBits ino)
  rw [blockStart_chunk] at hchunk
  unfold chunkDataPlace
  rw [blockStart_chunk, blockStart_div, ← blockStart, blockStart_mod, Nat.cast_zero, blockLen_rest]
  dsimp only
  cases hl : img.locate deviceID (addr + ((img.blockStart pos : ℕ)
      - (pos / 2 ^ img.chunkBits ino * 2 ^ img.chunkBits ino : ℕ))) with
  | error e => simp
  | ok q =>
    obtain ⟨dev, off⟩ := q
    have hoff : 0 ≤ off := locate_nonneg hl (by omega)
    have hshift := @boundOnDevice_shift img dev _ _ off hlt.le hoff
    dsimp only
    rw [add_zero]
    cases h : img.boundOnDevice dev off (img.blockLen ino.size (img.blockStart pos)) with
    | ok u =>
      rw [hshift.2 h]
      simp [Place.add, eq_comm]
    | error e =>
      cases h' : img.boundOnDevice dev (off + (pos % img.blockSize : ℕ))
          (img.blockLen ino.size (img.blockStart pos) - pos % img.blockSize : ℕ) with
      | ok u => rw [hshift.1 h'] at h; cases h
      | error e' => simp

theorem chunkPlace_start {b : Bytes} (hpos : pos < ino.size) {p : Place} :
    img.chunkPlace b ino pos = some p ↔
      ∃ q, img.chunkPlace b ino (img.blockStart pos) = some q ∧
        p = q.add (pos % img.blockSize) := by
  unfold chunkPlace
  rw [blockStart_chunk]
  dsimp only
  split_ifs
  · simp
  · simp
  unfold entryAddr
  cases img.decodeEntry ino (held b (img.entryPos ino (pos / 2 ^ img.chunkBits ino)).toNat
      (chunkUnit ino)) with
  | none => simp [Place.add, eq_comm]
  | some e =>
    dsimp only
    cases hc : img.chunkAddr e.block with
    | error err => simp [Except.map]
    | ok addr =>
      have haddr : 0 ≤ addr := chunkAddr_ok hc ▸ Int.natCast_nonneg _
      exact chunkDataPlace_start hpos haddr

/-- The place at a position is the block's, as far on as the position is, and there is none just
when the block has none. -/
theorem blockPlace_start {b : Bytes} (hpos : pos < ino.size) {p : Place} :
    img.blockPlace b ino pos = some p ↔
      ∃ q, img.blockPlace b ino (img.blockStart pos) = some q ∧
        p = q.add (pos % img.blockSize) := by
  unfold blockPlace
  cases ino.inodeLayout with
  | flatPlain =>
    dsimp only
    split_ifs
    · simp [Place.add, eq_comm]
    · exact flatPlace_start hpos
  | flatInline => exact inlinePlace_start hpos
  | chunkBased => exact chunkPlace_start hpos
  | compressedFull => simp
  | compressedCompact => simp
  | unknown n => simp


theorem fileAddr_block (pos : ℕ) :
    img.fileAddr b ino pos =
      (img.fileAddr b ino (img.blockStart pos)).add (pos % img.blockSize) := by
  have hadd := img.blockStart_add pos
  have hchunk : img.blockStart pos / 2 ^ img.chunkBits ino = pos / 2 ^ img.chunkBits ino :=
    img.blockStart_chunk pos
  have hle := Nat.div_mul_le_self (img.blockStart pos) (2 ^ img.chunkBits ino)
  unfold fileAddr
  rw [blockStart_div, hchunk, ← blockStart]
  rw [hchunk] at hle
  cases ino.inodeLayout with
  | flatPlain =>
    dsimp only
    split_ifs
    · rfl
    · simp only [Addr.add, Addr.byte.injEq, true_and]
      omega
  | flatInline =>
    dsimp only
    split_ifs
    · simp only [Addr.add, Addr.byte.injEq, true_and]
      generalize img.trailingAddr ino = addr
      omega
    · simp only [Addr.add, Addr.byte.injEq, true_and]
      omega
  | chunkBased =>
    dsimp only
    cases img.decodeEntry ino (held b (img.entryPos ino (pos / 2 ^ img.chunkBits ino)).toNat
        (chunkUnit ino)) with
    | none => rfl
    | some e =>
      simp only [Addr.add, Addr.byte.injEq, true_and]
      generalize pos / 2 ^ img.chunkBits ino * 2 ^ img.chunkBits ino = first at *
      omega
  | compressedFull => rfl
  | compressedCompact => rfl
  | unknown n => rfl

/-! ## The address that is looked up -/

/-- Byte `pos` is kept behind the inode. -/
def InTail (img : Image) (ino : Inode) (pos : ℕ) : Prop :=
  ino.inodeLayout = .flatInline ∧ ino.size ≤ img.blockStart pos + img.blockSize

instance (ino : Inode) (pos : ℕ) : Decidable (img.InTail ino pos) :=
  inferInstanceAs (Decidable (_ ∧ _))

/-- The address of byte `pos` on the primary device.  There is none for a hole, for a byte of a
device that the chunk map names, and for one kept behind the inode: the device table is not asked
for these. -/
def tableAddr (img : Image) (b : Bytes) (ino : Inode) (pos : ℕ) : Option Int :=
  match img.fileAddr b ino pos with
  | .byte 0 pa => if img.InTail ino pos then none else some pa
  | _ => none

/-- What the device table says of byte `pos`, where it is asked: the first device whose mapped range
has the byte's address, or none. -/
def tableDevice (img : Image) (b : Bytes) (ino : Inode) (pos : ℕ) :
    Option (Option (ℕ × DeviceInfo)) :=
  (img.tableAddr b ino pos).map img.firstMapped

/-- The place of an address that is not looked up. -/
def Addr.place : Addr → Place
  | .hole => .hole
  | .byte deviceID pa => .data deviceID pa

/-- The place of byte `pos` when the table is asked for byte `q`. -/
def spot (img : Image) (b : Bytes) (ino : Inode) (q pos : ℕ) : Place :=
  match img.tableAddr b ino q with
  | some pa => .data (img.mappedPlace pa).1 ((img.mappedPlace pa).2 + (pos - q : ℕ))
  | none => ((img.fileAddr b ino q).add (pos - q)).place

theorem spot_add (q k : ℕ) : (img.spot b ino q q).add k = img.spot b ino q (q + k) := by
  unfold spot
  cases img.tableAddr b ino q with
  | some pa => simp [Place.add]
  | none => cases img.fileAddr b ino q <;> simp [Place.add, Addr.add, Addr.place]

theorem tableAddr_some (h : img.tableAddr b ino pos = some pa) :
    img.fileAddr b ino pos = .byte 0 pa ∧ ¬ img.InTail ino pos := by
  unfold tableAddr at h
  split at h
  · next hf =>
    split_ifs at h with htail
    cases h
    exact ⟨hf, htail⟩
  · cases h

theorem tableAddr_byte (h : img.fileAddr b ino pos = .byte 0 pa) (ht : ¬ img.InTail ino pos) :
    img.tableAddr b ino pos = some pa := by
  unfold tableAddr
  rw [h]
  exact if_neg ht

/-- There is room for `n` bytes of the file from byte `q` on where the table puts it: in the image,
or for a chunk on the device it is mapped to.  A flat file's mapped bytes are bounded by the mapped
range alone. -/
def Accepts (img : Image) (b : Bytes) (ino : Inode) (q n : ℕ) : Prop :=
  ∀ pa, img.tableAddr b ino q = some pa →
    match img.firstMapped pa with
    | none => img.HasRoom 0 pa n
    | some (k, d) => ino.inodeLayout = .chunkBased → img.HasRoom k (pa - img.mappedStart d) n

/-- Where the table says the same of a later byte, there is room for what follows it. -/
theorem Accepts.of_tableDevice {q q' m : ℕ} (h : img.Accepts b ino q n)
    (hdev : img.tableDevice b ino q' = img.tableDevice b ino q)
    (haddr : img.fileAddr b ino q' = (img.fileAddr b ino q).add k) (hle : k + m ≤ n) :
    img.Accepts b ino q' m := by
  intro pa hpa
  unfold tableDevice at hdev
  rw [hpa] at hdev
  obtain ⟨pa₀, hpa₀, hfirst⟩ := Option.map_eq_some_iff.1 hdev.symm
  rw [(tableAddr_some hpa₀).1, (tableAddr_some hpa).1] at haddr
  obtain ⟨-, rfl⟩ := Addr.byte.inj haddr
  have hroom := h pa₀ hpa₀
  rw [hfirst] at hroom
  cases hf : img.firstMapped (pa₀ + k) with
  | none =>
    rw [hf] at hroom
    exact hroom.mono (by omega)
  | some kd =>
    rw [hf] at hroom
    exact fun hlay => (hroom hlay).mono (by omega)

theorem Addr.add_zero (a : Addr) : a.add 0 = a := by
  cases a <;> simp [Addr.add]

theorem Accepts.mono {q m : ℕ} (h : img.Accepts b ino q n) (hle : m ≤ n) : img.Accepts b ino q m :=
  h.of_tableDevice rfl (Addr.add_zero _).symm (by omega)

/-- A device the chunk map names for byte `q` has room for `n` bytes there. -/
def NamedRoom (img : Image) (b : Bytes) (ino : Inode) (q n : ℕ) : Prop :=
  ∀ dev pa, img.fileAddr b ino q = .byte dev pa → dev ≠ 0 → img.HasRoom dev pa n

theorem blockLen_le_blockSize (size pos : ℕ) : img.blockLen size pos ≤ img.blockSize := by
  unfold blockLen
  omega

theorem blockAddr_iff {nid blk : ℕ} : img.blockAddr nid blk = .ok pa ↔
    ((blk * img.blockSize : ℕ) : Int) ≤ maxInt64 ∧ pa = (blk * img.blockSize : ℕ) := by
  have hpos : (0 : Int) < img.blockSize := by exact_mod_cast img.blockSize_pos
  have hle : maxInt64 / img.blockSize < blk ↔ maxInt64 < ((blk * img.blockSize : ℕ) : Int) := by
    rw [Int.ediv_lt_iff_lt_mul hpos]
    push_cast
    rfl
  unfold blockAddr
  split_ifs with hout
  · have := hle.1 hout
    simp only [false_iff, not_and]
    omega
  · have := mt hle.2 hout
    simp only [Except.ok.injEq, not_lt.1 this, true_and, eq_comm]

/-- A block is refused only past the end of the image. -/
theorem locateRange_blockAddr_iff {blk : ℕ} {p : ℕ × Int} (hn : n ≤ img.blockSize) :
    img.locateRange (blk * img.blockSize : ℕ) n = .ok p ↔
      ((blk * img.blockSize : ℕ) : Int) + n ≤ maxInt64 ∧
        (img.firstMapped (blk * img.blockSize : ℕ) = none →
          img.HasRoom 0 (blk * img.blockSize : ℕ) n) ∧
        p = img.mappedPlace (blk * img.blockSize : ℕ) := by
  have h0 : (0 : Int) ≤ (blk * img.blockSize : ℕ) := Int.natCast_nonneg _
  rw [locateRange_iff]
  cases hf : img.firstMapped (blk * img.blockSize : ℕ) with
  | none =>
    simp only [h0, true_and, forall_const]
    tauto
  | some kd =>
    have hend := mapped_block_end (firstMapped_some hf).2.2 hn
    simp only [h0, hend, true_and, and_true, reduceCtorEq, false_implies]

theorem spot_table {q : ℕ} (h : img.tableAddr b ino q = some pa) (pos : ℕ) :
    img.spot b ino q pos =
      .data (img.mappedPlace pa).1 ((img.mappedPlace pa).2 + (pos - q : ℕ)) := by
  unfold spot
  rw [h]

/-- However the table is asked, a byte of a run is put where its address is. -/
theorem spot_sits {q : ℕ}
    (haddr : img.fileAddr b ino pos = (img.fileAddr b ino q).add (pos - q)) :
    (img.spot b ino q pos).Sits img (img.fileAddr b ino pos) := by
  rw [haddr]
  cases ht : img.tableAddr b ino q with
  | some pa =>
    rw [spot_table ht, (tableAddr_some ht).1]
    exact (mappedPlace_sits pa).add _
  | none =>
    unfold spot
    rw [ht]
    dsimp only
    cases (img.fileAddr b ino q).add (pos - q) with
    | hole => trivial
    | byte dev pa => exact .inl ⟨rfl, rfl⟩

/-- A range of a flat file is where the table puts its first byte, and there is room for it. -/
theorem locateRange_accepts {q : ℕ} {p : ℕ × Int} (hlay : ino.inodeLayout ≠ .chunkBased)
    (htable : img.tableAddr b ino q = some pa) (h : img.locateRange pa n = .ok p) :
    img.Accepts b ino q n ∧ img.spot b ino q q = .data p.1 p.2 := by
  obtain ⟨-, -, rfl, hroom⟩ := locateRange_iff.1 h
  refine ⟨fun pa' hpa' => ?_, by rw [spot_table htable, Nat.sub_self, Nat.cast_zero, add_zero]⟩
  rw [htable] at hpa'
  cases hpa'
  cases hf : img.firstMapped pa with
  | none =>
    rw [hf] at hroom
    exact hroom
  | some kd => exact fun hchunk => absurd hchunk hlay

/-- A block of a flat file is where the table puts it. -/
theorem flatPlace_iff {q : ℕ} {p : Place} (hq : q % img.blockSize = 0)
    (hlay : ino.inodeLayout ≠ .chunkBased)
    (htable : img.tableAddr b ino q = some (((ino.startBlock * img.blockSize : ℕ) : Int) + q)) :
    img.flatPlace ino q = some p ↔
      ((ino.startBlock * img.blockSize : ℕ) : Int) + q + img.blockLen ino.size q ≤ maxInt64 ∧
        img.Accepts b ino q (img.blockLen ino.size q) ∧ p = img.spot b ino q q := by
  have haddr : ((ino.startBlock * img.blockSize : ℕ) : Int) + q =
      ((ino.startBlock + q / img.blockSize) * img.blockSize : ℕ) := by
    have hdm := Nat.div_add_mod' q img.blockSize
    rw [Nat.add_mul]
    omega
  have hlen := img.blockLen_le_blockSize ino.size q
  have haccepts : img.Accepts b ino q (img.blockLen ino.size q) ↔ (img.firstMapped
      ((ino.startBlock + q / img.blockSize) * img.blockSize : ℕ) = none → img.HasRoom 0
        ((ino.startBlock + q / img.blockSize) * img.blockSize : ℕ) (img.blockLen ino.size q)) := by
    unfold Accepts
    rw [htable, haddr]
    simp only [Option.some.injEq, forall_eq']
    cases img.firstMapped ((ino.startBlock + q / img.blockSize) * img.blockSize : ℕ) with
    | none => simp
    | some kd => simp [hlay]
  rw [haccepts]
  unfold flatPlace spot
  rw [htable, haddr, hq, Nat.sub_self]
  dsimp only
  rw [Nat.cast_zero, add_zero]
  generalize ino.startBlock + q / img.blockSize = blk
  generalize img.blockLen ino.size q = len at hlen ⊢
  cases hb : img.blockAddr ino.nid blk with
  | error e =>
    have hout : ¬ ((blk * img.blockSize : ℕ) : Int) + len ≤ maxInt64 := by
      intro hle
      rw [blockAddr_iff.2 ⟨by omega, rfl⟩] at hb
      cases hb
    simp only [reduceCtorEq, hout, false_and]
  | ok pa =>
    obtain rfl := (blockAddr_iff.1 hb).2
    dsimp only
    rw [add_zero]
    have hspec := fun p' => @locateRange_blockAddr_iff img len blk p' hlen
    cases hl : img.locateRange (blk * img.blockSize : ℕ) len with
    | error e =>
      have hnone := mt (hspec (img.mappedPlace (blk * img.blockSize : ℕ))).2 (by rw [hl]; simp)
      simp only [reduceCtorEq, false_iff]
      rintro ⟨htop, hroom, -⟩
      exact hnone ⟨htop, hroom, rfl⟩
    | ok p' =>
      obtain ⟨htop, hroom, rfl⟩ := (hspec p').1 hl
      simp only [htop, true_and, Option.some.injEq]
      exact ⟨fun h => ⟨hroom, h.symm⟩, fun h => h.2.symm⟩

/-! ### Chunks -/

theorem decodeEntry_block_lt {entry : Bytes} {c : ChunkEntry}
    (h : img.decodeEntry ino entry = some c) : c.block < 2 ^ 32 := by
  unfold decodeEntry at h
  split_ifs at h <;> cases h
  · exact field_lt entry 4 4
  · exact field_lt entry 0 4

theorem blockSize_le (hbits : img.sb.blkSizeBits ≤ 16) : img.blockSize ≤ 2 ^ 16 :=
  Nat.pow_le_pow_right (by decide) hbits

theorem chunkSize_le (hbits : img.sb.blkSizeBits ≤ 16) : 2 ^ img.chunkBits ino ≤ 2 ^ 47 := by
  have hand : ino.chunkFormat &&& 0x1f ≤ 31 := Nat.and_le_right
  refine Nat.pow_le_pow_right (by decide) ?_
  unfold chunkBits
  omega

/-- An address of 32 bits is in range at every block size. -/
theorem block_addr_lt (hbits : img.sb.blkSizeBits ≤ 16) {block : ℕ} (h : block < 2 ^ 32) :
    block * img.blockSize < 2 ^ 48 := by
  calc block * img.blockSize ≤ block * 2 ^ 16 := Nat.mul_le_mul_left _ (blockSize_le hbits)
    _ < 2 ^ 32 * 2 ^ 16 := (Nat.mul_lt_mul_right (by decide)).2 h

theorem chunkAddr_of_lt (hbits : img.sb.blkSizeBits ≤ 16) {block : ℕ} (h : block < 2 ^ 32) :
    img.chunkAddr block = .ok (block * img.blockSize : ℕ) := by
  have hlt := block_addr_lt hbits h
  have hok : img.blockAddr 0 block = .ok (block * img.blockSize : ℕ) :=
    blockAddr_iff.2 ⟨by rw [maxInt64]; omega, rfl⟩
  unfold blockAddr at hok
  unfold chunkAddr
  split_ifs at hok with hin
  exact if_neg hin

/-- The entry of the chunk that byte `pos` is in. -/
def chunkEntry (img : Image) (b : Bytes) (ino : Inode) (pos : ℕ) : Option ChunkEntry :=
  img.decodeEntry ino (held b (img.entryPos ino (pos / 2 ^ img.chunkBits ino)).toNat
    (chunkUnit ino))

theorem fileAddr_entry (hlay : ino.inodeLayout = .chunkBased) (pos : ℕ) :
    img.fileAddr b ino pos = (img.chunkEntry b ino pos).elim .hole fun e =>
      .byte e.device ((e.block * img.blockSize : ℕ)
        + (pos - pos / 2 ^ img.chunkBits ino * 2 ^ img.chunkBits ino : ℕ)) := by
  unfold fileAddr chunkEntry
  simp only [hlay]
  cases img.decodeEntry ino (held b (img.entryPos ino (pos / 2 ^ img.chunkBits ino)).toNat
    (chunkUnit ino)) <;> rfl

/-- The address of a byte of a chunk is far from the end of the addresses. -/
theorem chunk_addr_le (hbits : img.sb.blkSizeBits ≤ 16) (hlay : ino.inodeLayout = .chunkBased)
    (h : img.fileAddr b ino pos = .byte dev pa) : 0 ≤ pa ∧ pa < 2 ^ 48 + 2 ^ 47 := by
  rw [fileAddr_entry hlay] at h
  cases he : img.chunkEntry b ino pos with
  | none =>
    rw [he] at h
    cases h
  | some e =>
    simp only [he, Option.elim_some, Addr.byte.injEq] at h
    have hblock := block_addr_lt hbits (decodeEntry_block_lt he)
    have hchunk : 2 ^ img.chunkBits ino ≤ 2 ^ 47 := chunkSize_le hbits
    have hdm := Nat.div_add_mod' pos (2 ^ img.chunkBits ino)
    have hmod := Nat.mod_lt pos (Nat.two_pow_pos (img.chunkBits ino))
    omega

theorem not_inTail (hlay : ino.inodeLayout ≠ .flatInline) : ¬ img.InTail ino pos :=
  fun h => hlay h.1

theorem tableAddr_named (h : img.fileAddr b ino pos = .byte dev pa) (hdev : dev ≠ 0) :
    img.tableAddr b ino pos = none := by
  unfold tableAddr
  rw [h]
  split
  · next heq =>
    cases heq
    exact absurd rfl hdev
  · rfl

theorem spot_chunk (hlay : ino.inodeLayout = .chunkBased)
    (h : img.fileAddr b ino pos = .byte dev pa) (k : ℕ) :
    img.spot b ino pos (pos + k) =
      .data (img.addrPlace dev pa).1 ((img.addrPlace dev pa).2 + k) := by
  have htail : ¬ img.InTail ino pos := not_inTail (by simp [hlay])
  unfold spot addrPlace
  by_cases hdev : dev = 0
  · subst hdev
    rw [tableAddr_byte h htail, if_pos rfl, Nat.add_sub_cancel_left]
  · rw [tableAddr_named h hdev, if_neg hdev, h, Nat.add_sub_cancel_left]
    rfl

/-- There is room for a chunk's bytes where their address is. -/
theorem accepts_chunk (hlay : ino.inodeLayout = .chunkBased)
    (h : img.fileAddr b ino pos = .byte dev pa) :
    img.NamedRoom b ino pos n ∧ img.Accepts b ino pos n ↔
      img.HasRoom (img.addrPlace dev pa).1 (img.addrPlace dev pa).2 n := by
  have htail : ¬ img.InTail ino pos := not_inTail (by simp [hlay])
  unfold NamedRoom Accepts addrPlace
  rw [h]
  by_cases hdev : dev = 0
  · subst hdev
    rw [tableAddr_byte h htail, if_pos rfl, mappedPlace]
    cases hf : img.firstMapped pa <;> simp [hf, hlay]
  · rw [tableAddr_named h hdev, if_neg hdev]
    simp [hdev]

/-- The place of a chunk's block: where its address is, if there is room. -/
theorem chunkDataPlace_iff {q deviceID : ℕ} {addr : Int} {p : Place} (hq : q % img.blockSize = 0)
    (hlt : q < ino.size) (haddr : 0 ≤ addr)
    (htop : addr + (q - (q / 2 ^ img.chunkBits ino * 2 ^ img.chunkBits ino : ℕ))
      + img.blockLen ino.size q ≤ maxInt64) :
    img.chunkDataPlace ino q deviceID addr = some p ↔
      ∃ at_, at_ = img.addrPlace deviceID
          (addr + (q - (q / 2 ^ img.chunkBits ino * 2 ^ img.chunkBits ino : ℕ))) ∧
        img.HasRoom at_.1 at_.2 (img.blockLen ino.size q) ∧ p = .data at_.1 at_.2 := by
  have hstart : q / img.blockSize * img.blockSize = q := by
    have := Nat.div_add_mod' q img.blockSize
    omega
  have hfirst := Nat.div_mul_le_self q (2 ^ img.chunkBits ino)
  have hlen := img.blockLen_pos hlt
  unfold chunkDataPlace
  rw [hstart, hq]
  dsimp only
  generalize q / 2 ^ img.chunkBits ino * 2 ^ img.chunkBits ino = first at *
  have hspec := fun p' => @locate_bound_iff img (img.blockLen ino.size q) (addr + (q - first))
    deviceID (by omega) hlen htop p'
  cases hl : img.locate deviceID (addr + ((q : Int) - first)) with
  | error e =>
    simp only [reduceCtorEq, false_iff, not_exists, not_and]
    rintro p' hp' hroom -
    have := ((hspec p').2 ⟨hp', hroom⟩).1
    rw [hl] at this
    cases this
  | ok p' =>
    obtain ⟨dev, off⟩ := p'
    have hp' := locate_place hl
    dsimp only
    rw [Nat.cast_zero, add_zero]
    cases hb : img.boundOnDevice dev off (img.blockLen ino.size q) with
    | error e =>
      simp only [reduceCtorEq, false_iff, not_exists, not_and]
      rintro p'' hp'' hroom -
      rw [← hp'] at hp''
      subst hp''
      have := ((hspec _).2 ⟨hp', hroom⟩).2
      rw [hb] at this
      cases this
    | ok u =>
      have hroom := ((hspec _).1 ⟨hl, hb⟩).2
      simp only [Option.some.injEq, ← hp', exists_eq_left, hroom, true_and, eq_comm]

theorem chunk48Bit_of_supported (h : ino.chunkUnsupported = false) : ino.chunk48Bit = false := by
  unfold Inode.chunkUnsupported at h
  unfold Inode.chunk48Bit
  simp only [bne_eq_false_iff_eq] at h ⊢
  have hmask : ino.chunkFormat &&& 0x40 = (ino.chunkFormat &&& 0xffc0) &&& 0x40 := by
    rw [Nat.and_assoc]
    rfl
  rw [hmask, h, Nat.zero_and]

/-- A block of a chunk-based file is where its address is, and is refused just when there is no room
for it. -/
theorem chunkPlace_iff {q : ℕ} {p : Place} (hbits : img.sb.blkSizeBits ≤ 16)
    (hlay : ino.inodeLayout = .chunkBased) (hformat : ino.chunkUnsupported = false)
    (hentry : ¬ (img.entryPos ino (q / 2 ^ img.chunkBits ino) < 0 ∨
      (b.length : Int) < img.entryPos ino (q / 2 ^ img.chunkBits ino) + chunkUnit ino))
    (hq : q % img.blockSize = 0) (hlt : q < ino.size) :
    img.chunkPlace b ino q = some p ↔
      (img.NamedRoom b ino q (img.blockLen ino.size q) ∧
        img.Accepts b ino q (img.blockLen ino.size q)) ∧ p = img.spot b ino q q := by
  have haddr := @fileAddr_entry img b ino hlay q
  have hfirst := Nat.div_mul_le_self q (2 ^ img.chunkBits ino)
  unfold chunkPlace entryAddr
  dsimp only
  rw [if_neg (by simp [hformat, chunk48Bit_of_supported hformat]), if_neg hentry, ← chunkEntry]
  cases he : img.chunkEntry b ino q with
  | none =>
    rw [he] at haddr
    have hnone : img.tableAddr b ino q = none := by
      unfold tableAddr
      rw [haddr]
      rfl
    have hspot : img.spot b ino q q = .hole := by
      unfold spot
      rw [hnone, haddr]
      rfl
    have hroom : img.NamedRoom b ino q (img.blockLen ino.size q) ∧
        img.Accepts b ino q (img.blockLen ino.size q) := by
      refine ⟨fun dev pa h => ?_, fun pa h => ?_⟩
      · rw [haddr] at h
        cases h
      · rw [hnone] at h
        cases h
    simp only [Option.some.injEq, hroom, hspot, true_and, eq_comm]
  | some e =>
    rw [he, Option.elim_some] at haddr
    have hblock := block_addr_lt hbits (decodeEntry_block_lt he)
    obtain ⟨h0, htop⟩ := chunk_addr_le hbits hlay haddr
    have hlen := img.blockLen_le_blockSize ino.size q
    have hbs := blockSize_le hbits
    have hsub : ((q - q / 2 ^ img.chunkBits ino * 2 ^ img.chunkBits ino : ℕ) : Int) =
        q - (q / 2 ^ img.chunkBits ino * 2 ^ img.chunkBits ino : ℕ) := by omega
    have hspot := spot_chunk hlay haddr 0
    rw [Nat.add_zero, Nat.cast_zero, add_zero] at hspot
    rw [accepts_chunk hlay haddr, hspot]
    rw [hsub] at h0 htop ⊢
    dsimp only
    rw [chunkAddr_of_lt hbits (decodeEntry_block_lt he)]
    simp only [Except.map]
    rw [chunkDataPlace_iff hq hlt (Int.natCast_nonneg _) (by rw [maxInt64]; omega)]
    simp only [exists_eq_left]

end Image

end Erofs
