import Erofs.Reader.Open

/-!
# Where a file's bytes are

An abstract view of the block path of `erofs.go`, for readers that hold bytes: a block of a file is
a hole, or stands at one place, an offset of a device (`blockPlace`), and a device's offset is one
of a reader, the image's own in flatdev mode (`home`).  What is loaded is then what the reader
holds there.

The main results:

* `gives_iff` — what a read of a device gives, in terms of the reader that holds its bytes;
* `loadBlock_iff` — `loadBlock` gives the bytes at the block's place;
* `blockPlace_sits` — a block's place is where the address of its first byte is, as the file's
  layout says (`fileAddr`).
-/

namespace Erofs

open GoPath LittleEndian Oracle

/-- The `n` bytes at `off`, as far as there are any. -/
def held (b : Bytes) (off n : ℕ) : Bytes := (b.drop off).take n

@[simp] theorem length_held (b : Bytes) (off n : ℕ) :
    (held b off n).length = min n (b.length - off) := by
  simp [held]

theorem holding_held (c : ℕ → Bytes) (r off n : ℕ) :
    (readerAt r off n).run (holding c) =
      ⟨held (c r) off n, if (held (c r) off n).length < n then some eofError else none⟩ :=
  (run_readerAt_holding c r off n).trans (holding_nat c r off n)

namespace Image

section Home

variable (img : Image)

/-- Where offset `off` of device `dev` is kept: a reader and an offset there. -/
def home (dev : ℕ) (off : Int) : ℕ × Int :=
  if dev = 0 then (0, off)
  else match img.devices[dev - 1]? with
    | some ⟨.window start _, _, _, _⟩ => (0, start + off)
    | _ => (dev, off)

/-- A device that is a window of the image has room for `n` bytes at `off`. -/
def Room (dev : ℕ) (off : Int) (n : ℕ) : Prop :=
  match img.devices[dev - 1]? with
  | some ⟨.window start length, _, _, _⟩ =>
    dev = 0 ∨ off + n ≤ sectionLimit start length - start
  | _ => True

/-- A read of `n` bytes at `off` of device `dev` gives `buf`, all of them. -/
def Gives (c : ℕ → Bytes) (dev : ℕ) (off : Int) (n : ℕ) (buf : Bytes) : Prop :=
  ((img.deviceReader dev off n).run (holding c)).data = buf ∧ buf.length = n

/-- The windows of flatdev mode start inside the image. -/
def WindowsNat : Prop := ∀ d ∈ img.devices, ∀ start length, d.device = .window start length →
  0 ≤ start

end Home

variable {img : Image} {c : ℕ → Bytes} {dev n : ℕ} {off : Int} {buf : Bytes}

theorem reader_gives_iff {r : ℕ} (hoff : 0 ≤ off) :
    ((readerAt r off n).run (holding c)).data = buf ∧ buf.length = n ↔
      off.toNat + n ≤ max (c r).length off.toNat ∧ buf = held (c r) off.toNat n := by
  obtain ⟨k, rfl⟩ := Int.eq_ofNat_of_zero_le hoff
  rw [holding_held]
  constructor
  · rintro ⟨rfl, hlen⟩
    rw [length_held] at hlen
    exact ⟨by simp; omega, rfl⟩
  · rintro ⟨hle, rfl⟩
    refine ⟨rfl, ?_⟩
    rw [length_held]
    simp at hle
    omega

/-- A read of a device gives what the reader holds at the offset's home. -/
theorem gives_iff (hw : img.WindowsNat) (hn : 0 < n) (hoff : 0 ≤ off) :
    img.Gives c dev off n buf ↔ img.Room dev off n ∧
      (img.home dev off).2.toNat + n ≤ (c (img.home dev off).1).length ∧
      buf = held (c (img.home dev off).1) (img.home dev off).2.toNat n := by
  have hmax : ∀ {k m : ℕ}, k + n ≤ max m k ↔ k + n ≤ m := by omega
  unfold Gives Room home deviceReader
  by_cases hdev : dev = 0
  · subst hdev
    simp only [if_true, reader_gives_iff hoff, hmax]
    split <;> simp
  simp only [if_neg hdev]
  cases hd : img.devices[dev - 1]? with
  | none => simp only [reader_gives_iff hoff, hmax, true_and]
  | some d =>
    obtain ⟨device, size, mapped, blocks⟩ := d
    cases device with
    | external => simp only [reader_gives_iff hoff, hmax, true_and]
    | window start length =>
      have hs := hw _ (List.mem_of_getElem? hd) start length rfl
      simp only [hdev, false_or, sectionReadAt]
      generalize sectionLimit start length = limit
      by_cases hout : off < 0 ∨ limit - start ≤ off
      · rw [if_pos hout]
        constructor
        · rintro ⟨rfl, hlen⟩
          simp at hlen
          omega
        · rintro ⟨hroom, -⟩
          omega
      rw [if_neg hout]
      by_cases hclip : limit - (off + start) < n
      · rw [if_pos hclip, Prog.run_bind]
        constructor
        · rintro ⟨hdata, hlen⟩
          have hle : (((readerAt 0 (off + start) (limit - (off + start)).toNat).run
              (holding c)).data).length ≤ (limit - (off + start)).toNat := by
            simp [readerAt]
          rw [Prog.run_done] at hdata
          rw [hdata] at hle
          omega
        · rintro ⟨hroom, -⟩
          omega
      · rw [if_neg hclip, reader_gives_iff (by omega), hmax, add_comm off start]
        have hroom : off + n ≤ limit - start := by omega
        simp only [hroom, true_and]

/-! ## The place of a block -/

/-- Where a window of a file is. -/
inductive Place
  | hole
  | data (dev : ℕ) (off : Int)
  deriving DecidableEq

/-- The `n` bytes from a place on are `buf`. -/
def Place.Gives (img : Image) (c : ℕ → Bytes) (n : ℕ) (buf : Bytes) : Place → Prop
  | .hole => buf = List.replicate n nulByte
  | .data dev off => img.Gives c dev off n buf

section BlockPlace

variable (img : Image)

/-- The place of the window at `pos` in the blocks at the inode's start block. -/
def flatPlace (ino : Inode) (pos : ℕ) : Option Place :=
  match img.blockAddr ino.nid (ino.startBlock + pos / img.blockSize) with
  | .error _ => none
  | .ok pa =>
    match img.locateRange (pa + (pos % img.blockSize : ℕ)) (img.blockLen ino.size pos) with
    | .error _ => none
    | .ok (dev, off) => some (.data dev off)

/-- The place of the window at `pos` of a flat-inline file, whose last block is behind its inode. -/
def inlinePlace (ino : Inode) (pos : ℕ) : Option Place :=
  let start := pos / img.blockSize * img.blockSize
  let addr := img.trailingAddr ino
  if ino.size ≤ start + img.blockSize then
    if (img.blockSize : Int) < addr % img.blockSize + (ino.size - start : ℕ) then none
    else match img.checkImageRange (addr + (pos - start : ℕ)) (img.blockLen ino.size pos) with
      | .error _ => none
      | .ok _ => some (.data 0 (addr + (pos - start : ℕ)))
  else img.flatPlace ino pos

/-- The place of the window at `pos` in a chunk at `addr` of device `deviceID`. -/
def chunkDataPlace (ino : Inode) (pos deviceID : ℕ) (addr : Int) : Option Place :=
  let inChunk : Int := (pos / img.blockSize * img.blockSize : ℕ)
    - (pos / 2 ^ img.chunkBits ino * 2 ^ img.chunkBits ino : ℕ)
  match img.locate deviceID (addr + inChunk) with
  | .error _ => none
  | .ok (dev, off) =>
    match img.boundOnDevice dev (off + (pos % img.blockSize : ℕ)) (img.blockLen ino.size pos) with
    | .error _ => none
    | .ok _ => some (.data dev (off + (pos % img.blockSize : ℕ)))

/-- The place of the window at `pos` of a chunk-based file in an image of bytes `b`. -/
def chunkPlace (b : Bytes) (ino : Inode) (pos : ℕ) : Option Place :=
  let entryPos := img.entryPos ino (pos / 2 ^ img.chunkBits ino)
  if ino.chunk48Bit ∨ ino.chunkUnsupported then none
  else if entryPos < 0 ∨ (b.length : Int) < entryPos + chunkUnit ino then none
  else match img.entryAddr ino (held b entryPos.toNat (chunkUnit ino)) with
    | .error _ => none
    | .ok none => some .hole
    | .ok (some (deviceID, addr)) => img.chunkDataPlace ino pos deviceID addr

/-- The place of the window at `pos` of a file in an image of bytes `b`, none where the block path
refuses it. -/
def blockPlace (b : Bytes) (ino : Inode) (pos : ℕ) : Option Place :=
  match ino.inodeLayout with
  | .flatPlain => if ino.nullAddress then some .hole else img.flatPlace ino pos
  | .flatInline => img.inlinePlace ino pos
  | .chunkBased => img.chunkPlace b ino pos
  | _ => none

end BlockPlace

variable {fi : Inode} {pos nid : ℕ}

theorem readWindow_iff {short : ℕ → GoError} :
    (img.readWindow nid dev off n short).run (holding c) = .ok buf ↔ img.Gives c dev off n buf := by
  refine ⟨readWindow_ok, ?_⟩
  rintro ⟨hdata, hlen⟩
  rw [readWindow, Prog.run_bind, Prog.run_done, windowOf, hdata, if_pos hlen]

/-- The bounds of a window inside the file are in order. -/
theorem boundsOk_window (hpos : pos < fi.size) :
    img.boundsOk (pos % img.blockSize : ℕ) (img.blockEnd fi.size (pos / img.blockSize)
      (calculateBlocks img.sb.blkSizeBits fi.size)) = true := by
  have hbn : pos / img.blockSize < calculateBlocks img.sb.blkSizeBits fi.size :=
    lt_calculateBlocks_iff.2 (lt_of_le_of_lt (Nat.div_mul_le_self _ _) hpos)
  have hdm := Nat.div_add_mod' pos img.blockSize
  have hmod := Nat.mod_lt pos img.blockSize_pos
  rw [img.blockEnd_sub hbn]
  generalize pos / img.blockSize * img.blockSize = start at hdm ⊢
  simp only [boundsOk, Bool.and_eq_true, decide_eq_true_eq]
  omega

theorem loadPlaced_iff {addr blockOffset blockEnd : Int} {dataBlock : Bool}
    (hb : img.boundsOk blockOffset blockEnd = true) (hn : (blockEnd - blockOffset).toNat = n) :
    (img.loadPlaced nid addr blockOffset blockEnd dataBlock).run (holding c) = .ok buf ↔
      ∃ dev off, img.placeBlock dataBlock (addr + blockOffset) n = .ok (dev, off) ∧
        img.Gives c dev off n buf := by
  unfold loadPlaced
  rw [if_neg (by simp [hb])]
  dsimp only
  rw [hn]
  cases hp : img.placeBlock dataBlock (addr + blockOffset) n with
  | error e => simp
  | ok p =>
    obtain ⟨dev, off⟩ := p
    simp [readWindow_iff]

theorem loadFlat_iff {blockEnd : Int}
    (hb : img.boundsOk (pos % img.blockSize : ℕ) blockEnd = true)
    (hn : (blockEnd - (pos % img.blockSize : ℕ)).toNat = img.blockLen fi.size pos) :
    (img.loadFlat fi (pos / img.blockSize) (pos % img.blockSize : ℕ) blockEnd).run (holding c) =
        .ok buf ↔
      ∃ p, img.flatPlace fi pos = some p ∧ p.Gives img c (img.blockLen fi.size pos) buf := by
  unfold loadFlat flatPlace
  cases img.blockAddr fi.nid (fi.startBlock + pos / img.blockSize) with
  | error e => simp
  | ok pa =>
    dsimp only
    rw [loadPlaced_iff hb hn]
    simp only [placeBlock, if_true]
    cases img.locateRange (pa + (pos % img.blockSize : ℕ)) (img.blockLen fi.size pos) with
    | error e => simp
    | ok p =>
      obtain ⟨dev, off⟩ := p
      simp [Place.Gives]

theorem loadFlatPlain_iff (hpos : pos < fi.size) :
    (img.loadFlatPlain fi pos (pos / img.blockSize)
        (calculateBlocks img.sb.blkSizeBits fi.size)).run (holding c) = .ok buf ↔
      ∃ p, (if fi.nullAddress then some .hole else img.flatPlace fi pos) = some p ∧
        p.Gives img c (img.blockLen fi.size pos) buf := by
  have hbn : pos / img.blockSize < calculateBlocks img.sb.blkSizeBits fi.size :=
    lt_calculateBlocks_iff.2 (lt_of_le_of_lt (Nat.div_mul_le_self _ _) hpos)
  have hb := img.boundsOk_window hpos
  have hn := img.blockEnd_sub_offset hbn
  unfold loadFlatPlain
  dsimp only
  by_cases hnull : fi.nullAddress = true
  · rw [if_pos hnull, if_pos hnull, hb, if_neg (by decide), holeBlock, hn]
    simp [Place.Gives, eq_comm]
  · rw [if_neg hnull, if_neg hnull]
    exact loadFlat_iff hb hn

/-- The last block is the one the file ends in. -/
theorem last_block_iff (hpos : pos < fi.size) :
    pos / img.blockSize = calculateBlocks img.sb.blkSizeBits fi.size - 1 ↔
      fi.size ≤ pos / img.blockSize * img.blockSize + img.blockSize := by
  have hbn : pos / img.blockSize < calculateBlocks img.sb.blkSizeBits fi.size :=
    lt_calculateBlocks_iff.2 (lt_of_le_of_lt (Nat.div_mul_le_self _ _) hpos)
  have hlast : pos / img.blockSize + 1 < calculateBlocks img.sb.blkSizeBits fi.size ↔
      (pos / img.blockSize + 1) * img.blockSize < fi.size := lt_calculateBlocks_iff
  rw [Nat.add_mul, Nat.one_mul] at hlast
  generalize pos / img.blockSize = bn at *
  omega

theorem loadFlatInline_iff (hpos : pos < fi.size) :
    (img.loadFlatInline fi pos (pos / img.blockSize)
        (calculateBlocks img.sb.blkSizeBits fi.size)).run (holding c) = .ok buf ↔
      ∃ p, img.inlinePlace fi pos = some p ∧ p.Gives img c (img.blockLen fi.size pos) buf := by
  have hbn : pos / img.blockSize < calculateBlocks img.sb.blkSizeBits fi.size :=
    lt_calculateBlocks_iff.2 (lt_of_le_of_lt (Nat.div_mul_le_self _ _) hpos)
  have hlast := img.last_block_iff hpos
  have hend := img.blockEnd_sub hbn
  have hb := img.boundsOk_window hpos
  have hn := img.blockEnd_sub_offset hbn
  have hdm := Nat.div_add_mod' pos img.blockSize
  have hmod := Nat.mod_lt pos img.blockSize_pos
  unfold loadFlatInline inlinePlace
  dsimp only
  by_cases htail : fi.size ≤ pos / img.blockSize * img.blockSize + img.blockSize
  · rw [if_pos htail, if_pos (hlast.2 htail)]
    have hlen : img.blockLen fi.size pos = fi.size - pos := by
      unfold blockLen
      omega
    generalize img.trailingAddr fi = addr
    have hoff := Int.emod_nonneg addr (Int.ofNat_ne_zero.2 img.blockSize_pos.ne')
    generalize pos / img.blockSize * img.blockSize = start at *
    generalize addr % (img.blockSize : Int) = rest at *
    by_cases hcross : (img.blockSize : Int) < rest + (fi.size - start : ℕ)
    · rw [if_pos hcross, if_pos (by omega)]
      simp
    · rw [if_neg hcross, if_neg (by omega)]
      have hbounds : img.boundsOk (rest + (pos - start)) (fi.size - start + rest) = true := by
        simp only [boundsOk, Bool.and_eq_true, decide_eq_true_eq]
        omega
      rw [loadPlaced_iff (n := img.blockLen fi.size pos) hbounds (by omega)]
      have haddr : addr - rest + (rest + (pos - start)) = addr + (pos - start : ℕ) := by omega
      rw [haddr, placeBlock, if_neg (by simp)]
      cases img.checkImageRange (addr + (pos - start : ℕ)) (img.blockLen fi.size pos) with
      | error e => simp [Except.map]
      | ok u => simp [Except.map, Place.Gives]
  · rw [if_neg htail, if_neg fun h => htail (hlast.1 h)]
    have hfull : img.blockEnd fi.size (pos / img.blockSize)
        (calculateBlocks img.sb.blkSizeBits fi.size) = img.blockSize := by
      generalize pos / img.blockSize * img.blockSize = start at *
      omega
    rw [hfull] at hb hn
    exact loadFlat_iff hb hn

theorem loadChunkData_iff {deviceID : ℕ} {addr : Int}
    (hpos : pos < fi.size) :
    (img.loadChunkData fi deviceID (addr + ((pos / img.blockSize * img.blockSize : ℕ)
        - (pos / 2 ^ img.chunkBits fi * 2 ^ img.chunkBits fi : ℕ)))
      (pos % img.blockSize : ℕ) (img.blockEnd fi.size (pos / img.blockSize)
        (calculateBlocks img.sb.blkSizeBits fi.size))).run (holding c) = .ok buf ↔
      ∃ p, img.chunkDataPlace fi pos deviceID addr = some p ∧
        p.Gives img c (img.blockLen fi.size pos) buf := by
  have hbn : pos / img.blockSize < calculateBlocks img.sb.blkSizeBits fi.size :=
    lt_calculateBlocks_iff.2 (lt_of_le_of_lt (Nat.div_mul_le_self _ _) hpos)
  have hn := img.blockEnd_sub_offset hbn
  unfold loadChunkData chunkDataPlace
  dsimp only
  cases img.locate deviceID (addr + ((pos / img.blockSize * img.blockSize : ℕ)
      - (pos / 2 ^ img.chunkBits fi * 2 ^ img.chunkBits fi : ℕ))) with
  | error e => simp
  | ok p =>
    obtain ⟨dev, off⟩ := p
    dsimp only
    rw [hn]
    cases img.boundOnDevice dev (off + (pos % img.blockSize : ℕ)) (img.blockLen fi.size pos) with
    | error e => simp
    | ok u => simp [readWindow_iff, Place.Gives]

theorem entryOf_holding {unit : ℕ} {entryPos : Int} (hunit : 0 < unit) {entry : Bytes} :
    entryOf unit entryPos ((readerAt 0 entryPos unit).run (holding c)) = .ok entry ↔
      ¬ (entryPos < 0 ∨ ((c 0).length : Int) < entryPos + unit) ∧
        entry = held (c 0) entryPos.toNat unit := by
  by_cases hneg : entryPos < 0
  · simp [readerAt, holding, hneg, entryOf]
  obtain ⟨k, rfl⟩ := Int.eq_ofNat_of_zero_le (not_lt.1 hneg)
  rw [holding_held, entryOf]
  by_cases hlen : (held (c 0) k unit).length < unit
  · rw [if_pos hlen]
    rw [length_held] at hlen
    have hshort : ((c 0).length : Int) < k + unit := by omega
    simp [hshort]
  · rw [if_neg hlen]
    rw [length_held] at hlen
    have hfull : ¬ ((c 0).length : Int) < k + unit := by omega
    have hunit' : (held (c 0) k unit).length = unit := by
      rw [length_held]
      omega
    simp [hunit', hfull, eq_comm]

theorem chunkUnit_pos : 0 < chunkUnit fi := by
  unfold chunkUnit
  split_ifs <;> decide

/-- A position of the file is in one of its chunks. -/
theorem chunk_lt (hpos : pos < fi.size) : pos / 2 ^ img.chunkBits fi < img.chunkCount fi := by
  rw [chunkCount, if_neg (by omega)]
  exact Nat.lt_succ_of_le (Nat.div_le_div_right (by omega))

theorem loadChunk_iff (hpos : pos < fi.size) :
    (img.loadChunk fi pos (pos / img.blockSize)
        (calculateBlocks img.sb.blkSizeBits fi.size)).run (holding c) = .ok buf ↔
      ∃ p, img.chunkPlace (c 0) fi pos = some p ∧
        p.Gives img c (img.blockLen fi.size pos) buf := by
  have hbn : pos / img.blockSize < calculateBlocks img.sb.blkSizeBits fi.size :=
    lt_calculateBlocks_iff.2 (lt_of_le_of_lt (Nat.div_mul_le_self _ _) hpos)
  have hb := img.boundsOk_window hpos
  have hn := img.blockEnd_sub_offset hbn
  have hcn := img.chunk_lt hpos
  unfold loadChunk chunkPlace
  dsimp only
  by_cases h48 : fi.chunk48Bit = true
  · simp [h48]
  by_cases hun : fi.chunkUnsupported = true
  · simp [h48, hun]
  rw [if_neg h48, if_neg hun, if_neg (not_le.2 hcn), if_neg (not_or.2 ⟨h48, hun⟩)]
  by_cases hout : img.entryPos fi (pos / 2 ^ img.chunkBits fi) < 0 ∨
      ((c 0).length : Int) < img.entryPos fi (pos / 2 ^ img.chunkBits fi) + chunkUnit fi
  · rw [if_pos hout]
    constructor
    · intro h
      obtain ⟨entry, he, -⟩ := Prog.exec_bind_ok h
      rw [Prog.run_bind, Prog.run_done, entryOf_holding chunkUnit_pos] at he
      exact absurd hout he.1
    · rintro ⟨p, ⟨⟩, -⟩
  · rw [if_neg hout, Prog.exec_bind, Prog.run_bind, Prog.run_done,
      (entryOf_holding chunkUnit_pos).2 ⟨hout, rfl⟩]
    dsimp only
    unfold loadFromEntry loadEntryBlock
    cases img.entryAddr fi (held (c 0) (img.entryPos fi (pos / 2 ^ img.chunkBits fi)).toNat
        (chunkUnit fi)) with
    | error e => simp
    | ok place =>
      dsimp only
      rw [hb, if_neg (by decide)]
      obtain _ | ⟨deviceID, addr⟩ := place
      · simp only [holeBlock, hn]
        simp [Place.Gives, eq_comm]
      · exact loadChunkData_iff hpos

/-- `loadBlock` gives the bytes at the block's place, and fails where it has none. -/
theorem loadBlock_iff (hpos : pos < fi.size) :
    (img.loadBlock fi pos).run (holding c) = .ok buf ↔
      ∃ p, img.blockPlace (c 0) fi pos = some p ∧
        p.Gives img c (img.blockLen fi.size pos) buf := by
  have hbn : pos / img.blockSize < calculateBlocks img.sb.blkSizeBits fi.size :=
    lt_calculateBlocks_iff.2 (lt_of_le_of_lt (Nat.div_mul_le_self _ _) hpos)
  unfold loadBlock blockPlace
  dsimp only
  rw [if_neg (not_le.2 hbn)]
  cases fi.inodeLayout with
  | flatPlain => exact loadFlatPlain_iff hpos
  | flatInline => exact loadFlatInline_iff hpos
  | chunkBased => exact loadChunk_iff hpos
  | compressedFull => simp
  | compressedCompact => simp
  | unknown n => simp

/-! ## Addresses -/

/-- Address `pa` of device `deviceID` is offset `off` of device `dev`: the same, or where an address
of the primary device is in a mapped range, the offset in that. -/
def Sits (img : Image) (deviceID : ℕ) (pa : Int) (dev : ℕ) (off : Int) : Prop :=
  (dev = deviceID ∧ off = pa) ∨
    (deviceID = 0 ∧ 0 < dev ∧ ∃ d, img.devices[dev - 1]? = some d ∧ off = pa - img.mappedStart d)

/-- Offsets `[off, off + n)` of device `dev` can be asked for. -/
structure Sound (img : Image) (dev : ℕ) (off : Int) (n : ℕ) : Prop where
  nonneg : 0 ≤ off
  end_le : off + n ≤ maxInt64
  device : dev ≤ img.devices.length
  inside : dev = 0 → 0 < img.size → off + n ≤ img.size

theorem Sits.add {deviceID : ℕ} {pa : Int} (h : img.Sits deviceID pa dev off) (k : Int) :
    img.Sits deviceID (pa + k) dev (off + k) := by
  obtain ⟨hd, ho⟩ | ⟨hz, hpos, d, hd, ho⟩ := h
  · exact .inl ⟨hd, by omega⟩
  · exact .inr ⟨hz, hpos, d, hd, by omega⟩

theorem Sound.sub {k m : ℕ} (h : img.Sound dev off n) (hk : k + m ≤ n) :
    img.Sound dev (off + k) m where
  nonneg := by have := h.nonneg; omega
  end_le := by have := h.end_le; omega
  device := h.device
  inside hz hs := by have := h.inside hz hs; omega

theorem checkImageRange_sound {m : ℕ} (h : img.checkImageRange off m = .ok ()) :
    img.Sound 0 off m := by
  obtain ⟨h0, -, hs⟩ := checkImageRange_ok h
  unfold checkImageRange at h
  split_ifs at h with hr
  exact ⟨h0, by omega, Nat.zero_le _, fun _ => hs⟩

theorem locateRange_sits {pa : Int} {m : ℕ} (h : img.locateRange pa m = .ok (dev, off)) :
    img.Sits 0 pa dev off ∧ img.Sound dev off m := by
  have hmax : off ≤ pa → off + m ≤ maxInt64 := by
    unfold locateRange at h
    split_ifs at h with hr
    omega
  obtain ⟨h0, -, ⟨rfl, rfl, hs⟩ | ⟨hdev, d, hd, ho, -⟩⟩ := locateRange_ok h
  · exact ⟨.inl ⟨rfl, rfl⟩, h0, hmax le_rfl, Nat.zero_le _, fun _ => hs⟩
  · have hlen := (List.getElem?_eq_some_iff.1 hd).1
    have hstart : 0 ≤ img.mappedStart d := Int.natCast_nonneg _
    exact ⟨.inr ⟨rfl, hdev, d, hd, ho⟩, h0, hmax (by omega), by omega, fun h => absurd h hdev.ne'⟩

theorem locate_sits {deviceID : ℕ} {pa : Int} (h : img.locate deviceID pa = .ok (dev, off)) :
    img.Sits deviceID pa dev off ∧ dev ≤ img.devices.length := by
  unfold locate at h
  by_cases hid : 0 < deviceID
  · rw [if_pos hid] at h
    split_ifs at h with hlen
    cases h
    exact ⟨.inl ⟨rfl, rfl⟩, by omega⟩
  · rw [if_neg hid] at h
    cases hf : img.findMapped pa 0 img.devices with
    | none =>
      rw [hf] at h
      dsimp only at h
      split_ifs at h
      cases h
      exact ⟨.inl ⟨by omega, rfl⟩, Nat.zero_le _⟩
    | some kd =>
      obtain ⟨k, d⟩ := kd
      rw [hf] at h
      cases h
      obtain ⟨hk, hd, -⟩ := findMapped_some hf
      have hlen := (List.getElem?_eq_some_iff.1 hd).1
      exact ⟨.inr ⟨by omega, hk, d, hd, rfl⟩, by omega⟩

theorem boundOnDevice_sound {m : ℕ} (hdev : dev ≤ img.devices.length)
    (h : img.boundOnDevice dev off m = .ok ()) : img.Sound dev off m := by
  by_cases hz : dev = 0
  · subst hz
    exact checkImageRange_sound h
  unfold boundOnDevice at h
  rw [if_neg hz] at h
  cases hd : img.devices[dev - 1]? with
  | none =>
    rw [hd] at h
    cases h
  | some d =>
    rw [hd] at h
    dsimp only at h
    by_cases hr : off < 0 ∨ (m : Int) < 0 ∨ maxInt64 - m < off
    · rw [if_pos hr] at h
      cases h
    · push Not at hr
      exact ⟨hr.1, by omega, hdev, fun h => absurd h hz⟩

/-- The block path places a flat file's window at its address. -/
theorem flatPlace_sits {p : Place} (h : img.flatPlace fi pos = some p) :
    ∃ dev off, p = .data dev off ∧
      img.Sits 0 ((fi.startBlock * img.blockSize : ℕ) + pos) dev off ∧
      img.Sound dev off (img.blockLen fi.size pos) := by
  unfold flatPlace at h
  cases hb : img.blockAddr fi.nid (fi.startBlock + pos / img.blockSize) with
  | error e =>
    rw [hb] at h
    cases h
  | ok pa =>
    rw [hb] at h
    dsimp only at h
    cases hl : img.locateRange (pa + (pos % img.blockSize : ℕ)) (img.blockLen fi.size pos) with
    | error e =>
      rw [hl] at h
      cases h
    | ok q =>
      obtain ⟨dev, off⟩ := q
      rw [hl] at h
      cases h
      obtain ⟨hsits, hsound⟩ := locateRange_sits hl
      refine ⟨dev, off, rfl, ?_, hsound⟩
      have hpa : pa = ((fi.startBlock + pos / img.blockSize) * img.blockSize : ℕ) := by
        unfold blockAddr at hb
        split_ifs at hb
        cases hb
        rfl
      have hdm := Nat.div_add_mod' pos img.blockSize
      rw [Nat.add_mul] at hpa
      have heq : pa + (pos % img.blockSize : ℕ) = (fi.startBlock * img.blockSize : ℕ) + pos := by
        generalize pos / img.blockSize * img.blockSize = start at *
        omega
      rwa [heq] at hsits

/-- The block path places a chunk's window at its address. -/
theorem chunkDataPlace_sits {p : Place} {deviceID : ℕ} {addr : Int}
    (h : img.chunkDataPlace fi pos deviceID addr = some p) :
    ∃ dev off, p = .data dev off ∧
      img.Sits deviceID (addr + (pos - (pos / 2 ^ img.chunkBits fi * 2 ^ img.chunkBits fi : ℕ)))
        dev off ∧
      img.Sound dev off (img.blockLen fi.size pos) := by
  unfold chunkDataPlace at h
  dsimp only at h
  cases hl : img.locate deviceID (addr + ((pos / img.blockSize * img.blockSize : ℕ)
      - (pos / 2 ^ img.chunkBits fi * 2 ^ img.chunkBits fi : ℕ))) with
  | error e =>
    rw [hl] at h
    cases h
  | ok q =>
    obtain ⟨dev, off⟩ := q
    rw [hl] at h
    dsimp only at h
    cases hb : img.boundOnDevice dev (off + (pos % img.blockSize : ℕ))
        (img.blockLen fi.size pos) with
    | error e =>
      rw [hb] at h
      cases h
    | ok u =>
      rw [hb] at h
      cases h
      obtain ⟨hsits, hdev⟩ := locate_sits hl
      refine ⟨dev, _, rfl, ?_, boundOnDevice_sound hdev hb⟩
      have hdm := Nat.div_add_mod' pos img.blockSize
      have hadd := hsits.add (pos % img.blockSize : ℕ)
      generalize pos / 2 ^ img.chunkBits fi * 2 ^ img.chunkBits fi = first at *
      generalize pos / img.blockSize * img.blockSize = start at *
      have heq : addr + ((start : Int) - first) + (pos % img.blockSize : ℕ) =
          addr + (pos - first) := by omega
      rwa [heq] at hadd

/-! ## The chunk map -/

theorem held_held {b : Bytes} {start len k m : ℕ} (h : k + m ≤ len) :
    held (held b start len) k m = held b (start + k) m := by
  unfold held
  rw [List.drop_take, List.take_take, List.drop_drop, min_eq_left (by omega)]

/-- The chunk map of a file, read in one go, where it lies in the image: the entries that follow
are those the block path reads one by one. -/
theorem map_entry (hfits : img.chunkIndexFits (img.chunkMapStart fi)
      (img.chunkCount fi * chunkUnit fi) = true)
    (hread : ((readerAt 0 (img.chunkMapStart fi) (img.chunkCount fi * chunkUnit fi)).run
      (holding c)).err = none) {cn : ℕ} (hcn : cn < img.chunkCount fi) :
    ¬ (img.entryPos fi cn < 0 ∨
      ((c 0).length : Int) < img.entryPos fi cn + chunkUnit fi) ∧
    (img.chunkEntries fi (img.chunkCount fi) (buffer (img.chunkCount fi * chunkUnit fi)
      ((readerAt 0 (img.chunkMapStart fi) (img.chunkCount fi * chunkUnit fi)).run
        (holding c)).data))[cn]? =
      some (img.decodeEntry fi (held (c 0) (img.entryPos fi cn).toNat (chunkUnit fi))) := by
  have hroom : cn * chunkUnit fi + chunkUnit fi ≤ img.chunkCount fi * chunkUnit fi := by
    rw [← Nat.succ_mul]
    exact Nat.mul_le_mul_right _ hcn
  simp only [chunkIndexFits, Bool.and_eq_true, decide_eq_true_eq] at hfits
  obtain ⟨⟨⟨-, h0⟩, htop⟩, -⟩ := hfits
  have hpos : img.entryPos fi cn = img.chunkMapStart fi + (cn * chunkUnit fi : ℕ) :=
    int64_of (by omega) (by omega)
  have hunit := @chunkUnit_pos fi
  obtain ⟨start, hstart⟩ := Int.eq_ofNat_of_zero_le h0
  rw [chunkEntries, List.getElem?_map, List.getElem?_range hcn, Option.map_some]
  rw [hstart] at hread hpos ⊢
  rw [holding_held] at hread ⊢
  generalize chunkUnit fi = unit at *
  generalize img.chunkCount fi * unit = needed at *
  have hfull : (held (c 0) start needed).length = needed := by
    by_contra hne
    have hle : (held (c 0) start needed).length ≤ needed := by simp
    simp only [if_pos (lt_of_le_of_ne hle hne)] at hread
    cases hread
  have hbuf : buffer needed (held (c 0) start needed) = held (c 0) start needed := by
    rw [buffer, hfull, Nat.sub_self, List.replicate_zero, List.append_nil]
  rw [length_held] at hfull
  have hentry : (img.entryPos fi cn).toNat = start + cn * unit := by omega
  refine ⟨by omega, ?_⟩
  dsimp only
  rw [hbuf, hentry, ← held_held hroom]
  rfl

/-! ## The address of a byte -/

/-- What a byte of a file is: zero, or the byte at an address of a device. -/
inductive Addr
  | hole
  | byte (deviceID : ℕ) (pa : Int)
  deriving DecidableEq

/-- The address `k` bytes on. -/
def Addr.add (k : ℕ) : Addr → Addr
  | .hole => .hole
  | .byte deviceID pa => .byte deviceID (pa + k)

/-- The place `k` bytes on. -/
def Place.add (k : ℕ) : Place → Place
  | .hole => .hole
  | .data dev off => .data dev (off + k)

/-- A place is where an address is. -/
def Place.Sits (img : Image) : Place → Addr → Prop
  | .hole, .hole => True
  | .data dev off, .byte deviceID pa => img.Sits deviceID pa dev off
  | _, _ => False

/-- `n` bytes from a place on can be asked for. -/
def Place.Sound (img : Image) (n : ℕ) : Place → Prop
  | .hole => True
  | .data dev off => img.Sound dev off n

/-- The address of byte `pos` of a file in an image of bytes `b`, as the file's layout says. -/
def fileAddr (img : Image) (b : Bytes) (ino : Inode) (pos : ℕ) : Addr :=
  let flat : Addr := .byte 0 ((ino.startBlock * img.blockSize : ℕ) + pos)
  match ino.inodeLayout with
  | .flatPlain => if ino.nullAddress then .hole else flat
  | .flatInline =>
    let start := pos / img.blockSize * img.blockSize
    if ino.size ≤ start + img.blockSize then .byte 0 (img.trailingAddr ino + (pos - start : ℕ))
    else flat
  | .chunkBased =>
    let cn := pos / 2 ^ img.chunkBits ino
    match img.decodeEntry ino (held b (img.entryPos ino cn).toNat (chunkUnit ino)) with
    | none => .hole
    | some e => .byte e.device
      ((e.block * img.blockSize : ℕ) + (pos - cn * 2 ^ img.chunkBits ino : ℕ))
  | _ => .hole

theorem Place.Sits.add {p : Place} {a : Addr} (h : p.Sits img a) (k : ℕ) :
    (p.add k).Sits img (a.add k) := by
  match p, a, h with
  | .hole, .hole, _ => trivial
  | .data dev off, .byte deviceID pa, h => exact Image.Sits.add h k

theorem Place.Sound.sub {p : Place} {k m : ℕ} (h : p.Sound img n) (hk : k + m ≤ n) :
    (p.add k).Sound img m := by
  cases p with
  | hole => trivial
  | data dev off => exact Image.Sound.sub h hk

theorem chunkAddr_ok {block : ℕ} {addr : Int} (h : img.chunkAddr block = .ok addr) :
    addr = (block * img.blockSize : ℕ) := by
  unfold chunkAddr at h
  split_ifs at h
  cases h
  rfl

theorem inlinePlace_sits {p : Place} (hlay : fi.inodeLayout = .flatInline) {b : Bytes}
    (h : img.inlinePlace fi pos = some p) :
    p.Sits img (img.fileAddr b fi pos) ∧ p.Sound img (img.blockLen fi.size pos) := by
  unfold inlinePlace at h
  unfold fileAddr
  simp only [hlay]
  dsimp only at h
  by_cases htail : fi.size ≤ pos / img.blockSize * img.blockSize + img.blockSize
  · rw [if_pos htail] at h ⊢
    split_ifs at h
    cases hc : img.checkImageRange
        (img.trailingAddr fi + (pos - pos / img.blockSize * img.blockSize : ℕ))
        (img.blockLen fi.size pos) with
    | error e =>
      rw [hc] at h
      cases h
    | ok u =>
      rw [hc] at h
      cases h
      exact ⟨.inl ⟨rfl, rfl⟩, checkImageRange_sound hc⟩
  · rw [if_neg htail] at h ⊢
    obtain ⟨dev, off, rfl, hsits, hsound⟩ := flatPlace_sits h
    exact ⟨hsits, hsound⟩

theorem chunkPlace_sits {p : Place} (hlay : fi.inodeLayout = .chunkBased) {b : Bytes}
    (h : img.chunkPlace b fi pos = some p) :
    p.Sits img (img.fileAddr b fi pos) ∧ p.Sound img (img.blockLen fi.size pos) := by
  have hle := Nat.div_mul_le_self pos (2 ^ img.chunkBits fi)
  unfold chunkPlace entryAddr at h
  unfold fileAddr
  simp only [hlay]
  dsimp only at h
  split_ifs at h
  cases hd : img.decodeEntry fi (held b (img.entryPos fi (pos / 2 ^ img.chunkBits fi)).toNat
      (chunkUnit fi)) with
  | none =>
    rw [hd] at h
    cases h
    exact ⟨trivial, trivial⟩
  | some e =>
    rw [hd] at h
    dsimp only at h
    cases hc : img.chunkAddr e.block with
    | error err =>
      rw [hc] at h
      cases h
    | ok addr =>
      rw [hc] at h
      obtain ⟨dev, off, rfl, hsits, hsound⟩ := chunkDataPlace_sits h
      refine ⟨?_, hsound⟩
      rw [chunkAddr_ok hc] at hsits
      rwa [← Nat.cast_sub hle] at hsits

/-- The block path places every window at the address of its first byte. -/
theorem blockPlace_sits {p : Place} {b : Bytes} (h : img.blockPlace b fi pos = some p) :
    p.Sits img (img.fileAddr b fi pos) ∧ p.Sound img (img.blockLen fi.size pos) := by
  unfold blockPlace at h
  cases hlay : fi.inodeLayout with
  | flatPlain =>
    rw [hlay] at h
    unfold fileAddr
    simp only [hlay]
    dsimp only at h
    by_cases hnull : fi.nullAddress = true
    · rw [if_pos hnull] at h ⊢
      cases h
      exact ⟨trivial, trivial⟩
    · rw [if_neg hnull] at h ⊢
      obtain ⟨dev, off, rfl, hsits, hsound⟩ := flatPlace_sits h
      exact ⟨hsits, hsound⟩
  | flatInline => rw [hlay] at h; exact inlinePlace_sits hlay h
  | chunkBased => rw [hlay] at h; exact chunkPlace_sits hlay h
  | compressedFull => rw [hlay] at h; cases h
  | compressedCompact => rw [hlay] at h; cases h
  | unknown n => rw [hlay] at h; cases h

end Image

end Erofs
