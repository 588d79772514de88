import Erofs.Reader.Inode

/-!
# Loading blocks

`loadAt` and `loadBlock` of `erofs.go`.  A block is the window `bytes` of the source's `block`:
the bytes between its offset and its end.  `loadBlock` is one function per data layout, each
ending in `readWindow`, the read whose count is judged before its error.

The main results:

* `loadBlock_length` — a block that is loaded is all the file has of it;
* `loadAt_asks` and `loadBlock_asks_iff` — the only offset of `loadBlock` that can leave the image
  is the chunk entry's;
* `loadBlock_eof_iff` — the only end of file it can report within the file is the answer to the
  chunk entry's read.
-/

namespace Erofs

open GoPath LittleEndian Oracle

/-- `calculateBlocks`. -/
def calculateBlocks (blockBits size : ℕ) : ℕ :=
  let blockNum := size / 2 ^ blockBits
  if blockNum * 2 ^ blockBits < size then blockNum + 1 else blockNum

namespace Image

variable (img : Image)

/-! ## Structures -/

/-- `loadAt`. -/
def loadAt (addr size : Int) : Fallible Bytes :=
  let size := min size img.blockSize
  if size ≤ 0 then
    .done (.error (errorf "failed to read %d bytes at %d: %w" [.int size, .int addr] .corrupt))
  else if addr < 0 ∨ 0 < img.size ∧ img.size ≤ addr then
    .done (.error (errorf "structure at %d lies outside the %d byte image: %w"
      [.int addr, .int img.size] .corrupt))
  else (readerAt 0 addr size.toNat).bind fun a => .done <|
    match a.hardError with
    | some e => .error (e.wrap "failed to read %d bytes at %d: %w" [.int size, .int addr])
    | none =>
      -- a structure that ends short is parsed as far as it goes, one with no byte is not there
      if a.data ≠ [] then .ok a.data
      else if 0 < img.size then
        .error (errorf "the image ends before the structure at %d: %w" [.int addr] .corrupt)
      else .error (errorf "failed to read %d bytes at %d: %w" [.int size, .int addr] .unexpectedEOF)

/-! ## Blocks of a file -/

/-- The bounds of a block's window within the block. -/
def boundsOk (blockOffset blockEnd : Int) : Bool :=
  0 ≤ blockOffset && blockEnd ≤ img.blockSize && blockOffset < blockEnd

/-- The error of a window outside its block. -/
def boundsError (text : String) (nid : ℕ) (blockOffset blockEnd : Int) : GoError :=
  errorf text [.int blockOffset, .int blockEnd, .int nid] .corrupt

/-- `holeBlock`. -/
def holeBlock (blockOffset blockEnd : Int) : Bytes :=
  List.replicate (blockEnd - blockOffset).toNat nulByte

/-- What a `ReadAt` of a window of `n` bytes gives: the count is judged before the error, since
a full read that ends at the reader's last byte may come with `io.EOF`. -/
def windowOf (nid n : ℕ) (short : ℕ → GoError) (a : Answer) : Except GoError Bytes :=
  if a.data.length = n then .ok a.data
  else match a.hardError with
    | some e => .error (e.wrap "failed to read block for nid %d: %w" [.int nid])
    | none => .error (short a.data.length)

/-- The read of a window of `n` bytes at `off` on device `dev`. -/
def readWindow (nid dev : ℕ) (off : Int) (n : ℕ) (short : ℕ → GoError) : Fallible Bytes :=
  (img.deviceReader dev off n).bind fun a => .done (windowOf nid n short a)

/-- The error of a flat block the image or the device ends inside. -/
def shortBlock (nid n actual : ℕ) : GoError :=
  errorf "the image ends inside a block of nid %d: %w, expected %d, actual %d"
    [.int nid, .int n, .int actual] .corrupt

/-- Where the window of a flat block is: a data block is placed by `locateRange`, an inline one is
in the image. -/
def placeBlock (dataBlock : Bool) (start : Int) (length : ℕ) : Except GoError (ℕ × Int) :=
  if dataBlock then img.locateRange start length
  else (img.checkImageRange start length).map fun _ => (0, start)

/-- The end of `loadBlock` for the flat layouts. -/
def loadPlaced (nid : ℕ) (addr blockOffset blockEnd : Int) (dataBlock : Bool) : Fallible Bytes :=
  if !img.boundsOk blockOffset blockEnd then
    .done (.error
      (boundsError "invalid block bounds [%d:%d] for nid %d: %w" nid blockOffset blockEnd))
  else
    let length := (blockEnd - blockOffset).toNat
    match img.placeBlock dataBlock (addr + blockOffset) length with
    | .error e => .done (.error (e.wrap "nid %d: %w" [.int nid]))
    | .ok (dev, off) => img.readWindow nid dev off length (shortBlock nid length)

/-- Block `bn` of a flat file's blocks at its start block. -/
def loadFlat (fi : Inode) (bn : ℕ) (blockOffset blockEnd : Int) : Fallible Bytes :=
  match img.blockAddr fi.nid (fi.startBlock + bn) with
  | .error e => .done (.error e)
  | .ok pa => img.loadPlaced fi.nid pa blockOffset blockEnd true

/-- The end of block `bn` of `nblocks`: the last one ends with the file. -/
def blockEnd (size bn nblocks : ℕ) : Int :=
  if bn = nblocks - 1 then size - (bn * img.blockSize : ℕ) else img.blockSize

/-- The flat-plain case of `loadBlock`. -/
def loadFlatPlain (fi : Inode) (pos bn nblocks : ℕ) : Fallible Bytes :=
  let blockOffset : ℕ := pos % img.blockSize
  let blockEnd := img.blockEnd fi.size bn nblocks
  if fi.nullAddress then
    if !img.boundsOk blockOffset blockEnd then
      .done (.error (boundsError "invalid block bounds [%d:%d] for nid %d: %w"
        fi.nid blockOffset blockEnd))
    else .done (.ok (holeBlock blockOffset blockEnd))
  else img.loadFlat fi bn blockOffset blockEnd

/-- Where an inode's inline data or chunk map starts. -/
def trailingAddr (fi : Inode) : Int := int64 (img.inodeStart fi.nid + fi.flatDataOffset : ℕ)

/-- The flat-inline case of `loadBlock`. -/
def loadFlatInline (fi : Inode) (pos bn nblocks : ℕ) : Fallible Bytes :=
  if bn = nblocks - 1 then
    let addr := img.trailingAddr fi
    let blockOffset := addr % img.blockSize
    let blockEnd := (fi.size - (bn * img.blockSize : ℕ)) + blockOffset
    if img.blockSize < blockEnd then
      .done (.error
        (errorf "inline data cross block boundary for nid %d: %w" [.int fi.nid] .corrupt))
    else img.loadPlaced fi.nid (addr - blockOffset)
      (blockOffset + (pos - (bn * img.blockSize : ℕ))) blockEnd false
  else img.loadFlat fi bn (pos % img.blockSize : ℕ) img.blockSize

/-! ## Chunks -/

/-- `chunkbits`: the size of a chunk as a power of two. -/
def chunkBits (fi : Inode) : ℕ := img.sb.blkSizeBits + (fi.chunkFormat &&& 0x1f)

/-- The number of chunks of a file; `size-1` is shifted as a signed number, so that an empty file
has none. -/
def chunkCount (fi : Inode) : ℕ :=
  if fi.size = 0 then 0 else (fi.size - 1) / 2 ^ img.chunkBits fi + 1

/-- The size of one entry of a chunk map: an index, or a block address. -/
def chunkUnit (fi : Inode) : ℕ := if fi.chunkIndexed then 8 else 4

/-- Where the chunk map starts; indexes are aligned to eight. -/
def chunkMapStart (fi : Inode) : Int :=
  let base := img.trailingAddr fi
  if fi.chunkIndexed ∧ base % 8 ≠ 0 then int64 (base + 7) / 8 * 8 else base

/-- `entryPos`, the offset of chunk `cn`'s entry. -/
def entryPos (fi : Inode) (cn : ℕ) : Int := int64 (img.chunkMapStart fi + (cn * chunkUnit fi : ℕ))

/-- A chunk as its entry gives it: a hole, or a device and a block number. -/
structure ChunkEntry where
  device : ℕ
  block : ℕ
  deriving DecidableEq

/-- An entry of a chunk map, none for a hole. -/
def decodeEntry (fi : Inode) (entry : Bytes) : Option ChunkEntry :=
  if fi.chunkIndexed then
    if field entry 4 4 = 2 ^ 32 - 1 then none
    else some ⟨field entry 2 2 &&& img.deviceIDMask, field entry 4 4⟩
  else if field entry 0 4 = 2 ^ 32 - 1 then none
  else some ⟨0, field entry 0 4⟩

/-- The `ReadAt` of a chunk's entry. -/
def entryOf (unit : ℕ) (entryPos : Int) (a : Answer) : Except GoError Bytes :=
  match a.err with
  | some e => .error (e.wrap "failed to read chunk entry at %d: %w" [.int entryPos])
  | none =>
    if a.data.length ≠ unit then
      .error (errorf "short read of chunk entry at %d: read %d bytes, expected %d: %w"
        [.int entryPos, .int a.data.length, .int unit] .unexpectedEOF)
    else .ok a.data

/-- The address an entry gives chunk data, none for a hole. -/
def entryAddr (fi : Inode) (entry : Bytes) : Except GoError (Option (ℕ × Int)) :=
  match img.decodeEntry fi entry with
  | none => .ok none
  | some c => (img.chunkAddr c.block).map fun addr => some (c.device, addr)

/-- A chunk's block at `addr` on device `deviceID`. -/
def loadChunkData (fi : Inode) (deviceID : ℕ) (addr : Int) (blockOffset blockEnd : Int) :
    Fallible Bytes :=
  match img.locate deviceID addr with
  | .error e => .done (.error (e.wrap "failed to map device for nid %d: %w" [.int fi.nid]))
  | .ok (dev, addr) =>
    let length := (blockEnd - blockOffset).toNat
    match img.boundOnDevice dev (addr + blockOffset) length with
    | .error e => .done (.error (e.wrap "nid %d: %w" [.int fi.nid]))
    | .ok _ => img.readWindow fi.nid dev (addr + blockOffset) length fun _ =>
        errorf "the device ends inside a block of nid %d: %w" [.int fi.nid] .corrupt

/-- The window of a block that is `shift` bytes into its chunk, once the chunk's entry is read. -/
def loadEntryBlock (fi : Inode) (entry : Bytes) (blockOffset blockEnd shift : Int) :
    Fallible Bytes :=
  match img.entryAddr fi entry with
  | .error e => .done (.error e)
  | .ok place =>
    if !img.boundsOk blockOffset blockEnd then
      .done (.error (boundsError "invalid chunk block bounds [%d:%d] for nid %d: %w"
        fi.nid blockOffset blockEnd))
    else match place with
      | none => .done (.ok (holeBlock blockOffset blockEnd))
      | some (deviceID, addr) =>
        img.loadChunkData fi deviceID (addr + shift) blockOffset blockEnd

/-- The chunk-based case of `loadBlock` once the entry of chunk `cn` is read. -/
def loadFromEntry (fi : Inode) (pos bn nblocks cn : ℕ) (entry : Bytes) : Fallible Bytes :=
  img.loadEntryBlock fi entry (pos % img.blockSize : ℕ) (img.blockEnd fi.size bn nblocks)
    ((bn * img.blockSize : ℕ) - (cn * 2 ^ img.chunkBits fi : ℕ))

/-- The chunk-based case of `loadBlock`. -/
def loadChunk (fi : Inode) (pos bn nblocks : ℕ) : Fallible Bytes :=
  let cn := pos / 2 ^ img.chunkBits fi
  if fi.chunk48Bit then
    .done (.error (errorf "48-bit chunk format for nid %d: %w" [.int fi.nid] .notImplemented))
  else if fi.chunkUnsupported then
    .done (.error (errorf "unsupported chunk format %x for nid %d: %w"
      [.int fi.chunkFormat, .int fi.nid] .notImplemented))
  else if img.chunkCount fi ≤ cn then
    .done (.error (errorf "chunk format does not fit into allocated bytes for nid %d: %w"
      [.int fi.nid] .corrupt))
  else
    ((readerAt 0 (img.entryPos fi cn) (chunkUnit fi)).bind fun a =>
      .done (entryOf (chunkUnit fi) (img.entryPos fi cn) a)).tryBind fun entry =>
        img.loadFromEntry fi pos bn nblocks cn entry

/-- `loadBlock`. -/
def loadBlock (fi : Inode) (pos : ℕ) : Fallible Bytes :=
  let nblocks := calculateBlocks img.sb.blkSizeBits fi.size
  let bn := pos / img.blockSize
  if nblocks ≤ bn then
    .done (.error (errorf "block position larger than number of blocks for inode: %w" [] .eof))
  else match fi.inodeLayout with
    | .flatPlain => img.loadFlatPlain fi pos bn nblocks
    | .flatInline => img.loadFlatInline fi pos bn nblocks
    | .chunkBased => img.loadChunk fi pos bn nblocks
    | .compressedFull => .done (.error (errorf "inode layout (%d) for %d: %w"
        [.int 1, .int fi.nid] .notImplemented))
    | .compressedCompact => .done (.error (errorf "inode layout (%d) for %d: %w"
        [.int 3, .int fi.nid] .notImplemented))
    | .unknown n => .done (.error (errorf "inode layout (%d) for %d: %w"
        [.int n, .int fi.nid] .corrupt))

/-! ## Positions that have wrapped -/

/-- `entryPos` for a position of either sign. -/
def entryPosAt (fi : Inode) (pos : Int) : Int :=
  int64 (img.chunkMapStart fi + pos / 2 ^ img.chunkBits fi * chunkUnit fi)

/-- A data block of a flat file numbered from a position before the file; the sum with the start
block is a `uint64`. -/
def loadFlatWrapped (fi : Inode) (bn blockOffset : Int) : Fallible Bytes :=
  match img.blockAddr fi.nid ((fi.startBlock + bn) % 2 ^ 64).toNat with
  | .error e => .done (.error e)
  | .ok pa => img.loadPlaced fi.nid pa blockOffset img.blockSize true

/-- `loadBlock` at a position before the file.  Only a position that has wrapped is one, in a file
that has blocks: the block is below all of them, and so neither past the end nor the last. -/
def loadWrapped (fi : Inode) (pos : Int) : Fallible Bytes :=
  let bn := pos / img.blockSize
  let blockOffset := pos.tmod img.blockSize
  match fi.inodeLayout with
  | .flatPlain =>
    if fi.nullAddress then
      if !img.boundsOk blockOffset img.blockSize then
        .done (.error (boundsError "invalid block bounds [%d:%d] for nid %d: %w"
          fi.nid blockOffset img.blockSize))
      else .done (.ok (holeBlock blockOffset img.blockSize))
    else img.loadFlatWrapped fi bn blockOffset
  | .flatInline => img.loadFlatWrapped fi bn blockOffset
  | .chunkBased =>
    if fi.chunk48Bit then
      .done (.error (errorf "48-bit chunk format for nid %d: %w" [.int fi.nid] .notImplemented))
    else if fi.chunkUnsupported then
      .done (.error (errorf "unsupported chunk format %x for nid %d: %w"
        [.int fi.chunkFormat, .int fi.nid] .notImplemented))
    else
      ((readerAt 0 (img.entryPosAt fi pos) (chunkUnit fi)).bind fun a =>
        .done (entryOf (chunkUnit fi) (img.entryPosAt fi pos) a)).tryBind fun entry =>
          -- the block's place within its chunk is added for a block after the first only
          img.loadEntryBlock fi entry blockOffset img.blockSize 0
  | .compressedFull => .done (.error (errorf "inode layout (%d) for %d: %w"
      [.int 1, .int fi.nid] .notImplemented))
  | .compressedCompact => .done (.error (errorf "inode layout (%d) for %d: %w"
      [.int 3, .int fi.nid] .notImplemented))
  | .unknown n => .done (.error (errorf "inode layout (%d) for %d: %w"
      [.int n, .int fi.nid] .corrupt))

/-- `loadBlock` at an `int64` position. -/
def loadBlockAt (fi : Inode) (pos : Int) : Fallible Bytes :=
  if 0 ≤ pos then img.loadBlock fi pos.toNat else img.loadWrapped fi pos

@[simp] theorem loadBlockAt_natCast (fi : Inode) (pos : ℕ) :
    img.loadBlockAt fi pos = img.loadBlock fi pos := if_pos (Int.natCast_nonneg pos)

/-! ## How long a block is -/

theorem blockSize_pos : 0 < img.blockSize := Nat.two_pow_pos _

theorem lt_calculateBlocks_iff {bits size bn : ℕ} :
    bn < calculateBlocks bits size ↔ bn * 2 ^ bits < size := by
  have hpos : 0 < 2 ^ bits := Nat.two_pow_pos _
  have hdiv := Nat.div_add_mod size (2 ^ bits)
  have hmod := Nat.mod_lt size hpos
  unfold calculateBlocks
  generalize 2 ^ bits = b at *
  generalize size / b = q at *
  rw [Nat.mul_comm] at hdiv
  dsimp only
  constructor
  · intro h
    have hle : bn ≤ q := by split_ifs at h <;> omega
    have hmul : bn * b ≤ q * b := Nat.mul_le_mul_right b hle
    split_ifs at h with hlt
    · omega
    · have hlt' : (bn + 1) * b ≤ q * b := Nat.mul_le_mul_right b h
      rw [Nat.add_mul] at hlt'
      omega
  · intro h
    by_contra hge
    split_ifs at hge with hlt
    · have hmul : (q + 1) * b ≤ bn * b := Nat.mul_le_mul_right b (by omega)
      rw [Nat.add_mul] at hmul
      omega
    · have hmul : q * b ≤ bn * b := Nat.mul_le_mul_right b (by omega)
      omega

/-- The end of a file's blocks is less than a block past the end of the file. -/
theorem mul_lt_of_le_calculateBlocks {bits size bn : ℕ} (h : bn ≤ calculateBlocks bits size) :
    bn * 2 ^ bits < size + 2 ^ bits := by
  cases bn with
  | zero =>
    rw [Nat.zero_mul]
    exact Nat.add_pos_right _ (Nat.two_pow_pos _)
  | succ bn =>
    have hlast : bn * 2 ^ bits < size := lt_calculateBlocks_iff.1 h
    rw [Nat.add_mul, Nat.one_mul]
    omega

/-- The number of bytes of the block at `pos` that a file of `size` bytes has. -/
def blockLen (size pos : ℕ) : ℕ := min (img.blockSize - pos % img.blockSize) (size - pos)

theorem blockLen_pos {size pos : ℕ} (h : pos < size) : 0 < img.blockLen size pos := by
  have := Nat.mod_lt pos img.blockSize_pos
  unfold blockLen
  omega

/-- The window of the block at `pos` ends with the block or with the file. -/
theorem blockEnd_sub {size pos : ℕ}
    (h : pos / img.blockSize < calculateBlocks img.sb.blkSizeBits size) :
    img.blockEnd size (pos / img.blockSize) (calculateBlocks img.sb.blkSizeBits size) =
      min (img.blockSize : Int) (size - (pos / img.blockSize * img.blockSize : ℕ)) := by
  have hlast : pos / img.blockSize + 1 < calculateBlocks img.sb.blkSizeBits size ↔
      (pos / img.blockSize + 1) * img.blockSize < size := lt_calculateBlocks_iff
  rw [Nat.add_mul, Nat.one_mul] at hlast
  generalize pos / img.blockSize = bn at h hlast ⊢
  generalize calculateBlocks img.sb.blkSizeBits size = nblocks at h hlast ⊢
  unfold blockEnd
  split_ifs with hbn <;> omega

/-- The length of the window of the block at `pos`. -/
theorem blockEnd_sub_offset {size pos : ℕ}
    (h : pos / img.blockSize < calculateBlocks img.sb.blkSizeBits size) :
    (img.blockEnd size (pos / img.blockSize) (calculateBlocks img.sb.blkSizeBits size)
      - (pos % img.blockSize : ℕ)).toNat = img.blockLen size pos := by
  have hdm := Nat.div_add_mod' pos img.blockSize
  rw [img.blockEnd_sub h, blockLen]
  generalize pos / img.blockSize * img.blockSize = start at hdm ⊢
  omega

section Length

variable {img} {o : Req → Answer} {fi : Inode} {pos bn nblocks : ℕ} {buf : Bytes}

theorem windowOf_ok {nid n : ℕ} {short : ℕ → GoError} {a : Answer}
    (h : windowOf nid n short a = .ok buf) : a.data = buf ∧ buf.length = n := by
  unfold windowOf at h
  split_ifs at h with hlen
  · cases h
    exact ⟨rfl, hlen⟩
  · split at h <;> cases h

theorem readWindow_ok {nid dev n : ℕ} {off : Int} {short : ℕ → GoError}
    (h : (img.readWindow nid dev off n short).run o = .ok buf) :
    ((img.deviceReader dev off n).run o).data = buf ∧ buf.length = n := by
  unfold readWindow at h
  rw [Prog.run_bind] at h
  exact windowOf_ok h

theorem loadPlaced_length {nid : ℕ} {addr blockOffset blockEnd : Int} {dataBlock : Bool}
    (h : (img.loadPlaced nid addr blockOffset blockEnd dataBlock).run o = .ok buf) :
    buf.length = (blockEnd - blockOffset).toNat := by
  unfold loadPlaced at h
  dsimp only at h
  by_cases hb : img.boundsOk blockOffset blockEnd
  · rw [if_neg (by simpa using hb)] at h
    split at h
    · cases h
    · exact (readWindow_ok h).2
  · rw [if_pos (by simpa using hb)] at h
    cases h

theorem loadFlat_length {blockOffset blockEnd : Int}
    (h : (img.loadFlat fi bn blockOffset blockEnd).run o = .ok buf) :
    buf.length = (blockEnd - blockOffset).toNat := by
  unfold loadFlat at h
  cases hb : img.blockAddr fi.nid (fi.startBlock + bn) with
  | error e =>
    rw [hb] at h
    cases h
  | ok pa =>
    rw [hb] at h
    exact loadPlaced_length h

theorem length_holeBlock (blockOffset blockEnd : Int) :
    (holeBlock blockOffset blockEnd).length = (blockEnd - blockOffset).toNat := by
  simp [holeBlock]

theorem loadFlatPlain_length (h : (img.loadFlatPlain fi pos bn nblocks).run o = .ok buf) :
    buf.length = (img.blockEnd fi.size bn nblocks - (pos % img.blockSize : ℕ)).toNat := by
  unfold loadFlatPlain at h
  dsimp only at h
  split_ifs at h
  · cases h
  · cases h
    exact length_holeBlock _ _
  · exact loadFlat_length h

theorem loadFlatInline_length (hbn : pos / img.blockSize = bn)
    (h : (img.loadFlatInline fi pos bn nblocks).run o = .ok buf) :
    buf.length = (img.blockEnd fi.size bn nblocks - (pos % img.blockSize : ℕ)).toNat := by
  have hdm := Nat.div_add_mod' pos img.blockSize
  rw [hbn] at hdm
  unfold loadFlatInline at h
  unfold blockEnd
  dsimp only at h
  by_cases hlast : bn = nblocks - 1
  · rw [if_pos hlast] at h
    split_ifs at h
    · cases h
    · rw [if_pos hlast, loadPlaced_length h]
      omega
  · rw [if_neg hlast] at h ⊢
    exact loadFlat_length h

theorem loadChunkData_length {deviceID : ℕ} {addr blockOffset blockEnd : Int}
    (h : (img.loadChunkData fi deviceID addr blockOffset blockEnd).run o = .ok buf) :
    buf.length = (blockEnd - blockOffset).toNat := by
  unfold loadChunkData at h
  split at h
  · cases h
  · dsimp only at h
    split at h
    · cases h
    · exact (readWindow_ok h).2

theorem loadEntryBlock_length {entry : Bytes} {blockOffset blockEnd shift : Int}
    (h : (img.loadEntryBlock fi entry blockOffset blockEnd shift).run o = .ok buf) :
    buf.length = (blockEnd - blockOffset).toNat := by
  unfold loadEntryBlock at h
  split at h
  · cases h
  · split_ifs at h
    · cases h
    · split at h
      · cases h
        exact length_holeBlock _ _
      · exact loadChunkData_length h

theorem loadChunk_length (h : (img.loadChunk fi pos bn nblocks).run o = .ok buf) :
    buf.length = (img.blockEnd fi.size bn nblocks - (pos % img.blockSize : ℕ)).toNat := by
  unfold loadChunk at h
  dsimp only at h
  split_ifs at h
  · cases h
  · cases h
  · cases h
  · obtain ⟨entry, -, h⟩ := Prog.exec_bind_ok h
    exact loadEntryBlock_length h

/-- A block that is loaded is all the file has of it. -/
theorem loadBlock_length (h : (img.loadBlock fi pos).run o = .ok buf) :
    buf.length = img.blockLen fi.size pos := by
  unfold loadBlock at h
  dsimp only at h
  by_cases hbn : calculateBlocks img.sb.blkSizeBits fi.size ≤ pos / img.blockSize
  · rw [if_pos hbn] at h
    cases h
  rw [if_neg hbn] at h
  have hlt := not_le.1 hbn
  have hlen : buf.length = (img.blockEnd fi.size (pos / img.blockSize)
      (calculateBlocks img.sb.blkSizeBits fi.size) - (pos % img.blockSize : ℕ)).toNat := by
    cases hl : fi.inodeLayout with
    | flatPlain => rw [hl] at h; exact loadFlatPlain_length h
    | flatInline => rw [hl] at h; exact loadFlatInline_length rfl h
    | chunkBased => rw [hl] at h; exact loadChunk_length h
    | compressedFull => rw [hl] at h; cases h
    | compressedCompact => rw [hl] at h; cases h
    | unknown n => rw [hl] at h; cases h
  rw [hlen, blockEnd_sub_offset img hlt]

end Length

/-! ## What loading asks -/

variable {img} {o : Req → Answer} {fi : Inode} {pos bn nblocks : ℕ}

/-- `loadAt` asks for no offset outside the image. -/
theorem loadAt_asks (hs : 0 < img.size) (addr size : Int) :
    (img.loadAt addr size).Asks o img.InImage := by
  unfold loadAt
  dsimp only
  split_ifs with h₁ h₂
  · exact Prog.asks_done
  · exact Prog.asks_done
  · exact Prog.asks_bind (readerAt_asks (inImage_of (by omega) (by omega))) Prog.asks_done

section Blocks

variable (hs : 0 < img.size) (hw : img.WindowsFit)

include hw in
theorem readWindow_asks {nid dev n : ℕ} {off : Int} {short : ℕ → GoError}
    (h : dev = 0 → 0 ≤ off ∧ off ≤ img.size) :
    (img.readWindow nid dev off n short).Asks o img.InImage :=
  Prog.asks_bind (deviceReader_asks hw h) Prog.asks_done

include hs hw

omit hw in
theorem placeBlock_inside {dataBlock : Bool} {start off : Int} {length : ℕ}
    (h : img.placeBlock dataBlock start length = .ok (0, off)) : 0 ≤ off ∧ off ≤ img.size := by
  unfold placeBlock at h
  split_ifs at h
  · obtain ⟨h0, hn, ⟨-, -, hend⟩ | ⟨hlt, -⟩⟩ := locateRange_ok h
    · have := hend hs
      omega
    · omega
  · cases hc : img.checkImageRange start length with
    | error e =>
      rw [hc] at h
      cases h
    | ok u =>
      rw [hc] at h
      cases h
      obtain ⟨h0, hn, hend⟩ := checkImageRange_ok hc
      have := hend hs
      omega

theorem loadPlaced_asks (nid : ℕ) (addr blockOffset blockEnd : Int) (dataBlock : Bool) :
    (img.loadPlaced nid addr blockOffset blockEnd dataBlock).Asks o img.InImage := by
  unfold loadPlaced
  dsimp only
  split_ifs
  · exact Prog.asks_done
  · split
    · exact Prog.asks_done
    · next dev off hp =>
      refine readWindow_asks hw ?_
      rintro rfl
      exact placeBlock_inside hs hp

theorem loadFlat_asks (bn : ℕ) (blockOffset blockEnd : Int) :
    (img.loadFlat fi bn blockOffset blockEnd).Asks o img.InImage := by
  unfold loadFlat
  cases img.blockAddr fi.nid (fi.startBlock + bn) with
  | error e => exact Prog.asks_done
  | ok pa => exact loadPlaced_asks hs hw ..

theorem loadFlatPlain_asks : (img.loadFlatPlain fi pos bn nblocks).Asks o img.InImage := by
  unfold loadFlatPlain
  dsimp only
  split_ifs
  · exact Prog.asks_done
  · exact Prog.asks_done
  · exact loadFlat_asks hs hw ..

theorem loadFlatInline_asks : (img.loadFlatInline fi pos bn nblocks).Asks o img.InImage := by
  unfold loadFlatInline
  dsimp only
  split_ifs
  · exact Prog.asks_done
  · exact loadPlaced_asks hs hw ..
  · exact loadFlat_asks hs hw ..

theorem loadChunkData_asks (deviceID : ℕ) (addr blockOffset blockEnd : Int) :
    (img.loadChunkData fi deviceID addr blockOffset blockEnd).Asks o img.InImage := by
  unfold loadChunkData
  split
  · exact Prog.asks_done
  · next dev addr hl =>
    dsimp only
    split
    · exact Prog.asks_done
    · next hb =>
      refine readWindow_asks hw ?_
      rintro rfl
      rw [boundOnDevice_zero] at hb
      obtain ⟨h0, hn, hend⟩ := checkImageRange_ok hb
      have := hend hs
      omega

theorem loadEntryBlock_asks (entry : Bytes) (blockOffset blockEnd shift : Int) :
    (img.loadEntryBlock fi entry blockOffset blockEnd shift).Asks o img.InImage := by
  unfold loadEntryBlock
  split
  · exact Prog.asks_done
  · split_ifs
    · exact Prog.asks_done
    · split
      · exact Prog.asks_done
      · exact loadChunkData_asks hs hw ..

end Blocks

variable (img) in
/-- `loadBlock` at `pos` comes to read a chunk's entry. -/
def ReadsEntry (fi : Inode) (pos : ℕ) : Prop :=
  pos / img.blockSize < calculateBlocks img.sb.blkSizeBits fi.size ∧
    fi.inodeLayout = .chunkBased ∧ fi.chunk48Bit = false ∧ fi.chunkUnsupported = false ∧
    pos / 2 ^ img.chunkBits fi < img.chunkCount fi

variable (img) in
/-- The entry of the chunk that `pos` is in starts inside the image. -/
def EntryInside (fi : Inode) (pos : ℕ) : Prop :=
  0 ≤ img.entryPos fi (pos / 2 ^ img.chunkBits fi) ∧
    img.entryPos fi (pos / 2 ^ img.chunkBits fi) ≤ img.size

theorem loadChunk_asks_iff (hs : 0 < img.size) (hw : img.WindowsFit) :
    (img.loadChunk fi pos bn nblocks).Asks o img.InImage ↔
      (fi.chunk48Bit = false → fi.chunkUnsupported = false →
        pos / 2 ^ img.chunkBits fi < img.chunkCount fi → img.EntryInside fi pos) := by
  unfold loadChunk
  dsimp only
  by_cases h48 : fi.chunk48Bit
  · simp [h48]
  by_cases hun : fi.chunkUnsupported
  · simp [h48, hun]
  by_cases hcn : img.chunkCount fi ≤ pos / 2 ^ img.chunkBits fi
  · simp [h48, hun, hcn]
  rw [if_neg h48, if_neg hun, if_neg hcn]
  constructor
  · intro h _ _ _
    exact (Prog.asks_ask.1 h).1 rfl
  · intro h
    obtain ⟨h0, hend⟩ := h (by simpa using h48) (by simpa using hun) (by omega)
    refine Prog.asks_tryBind ?_ fun entry _ => loadEntryBlock_asks hs hw ..
    exact Prog.asks_bind (readerAt_asks (inImage_of h0 hend)) Prog.asks_done

/-- The one offset of `loadBlock` that can leave the image is the chunk entry's: it is derived
from the sizes the inode declares, and nothing bounds it before the read. -/
theorem loadBlock_asks_iff (hs : 0 < img.size) (hw : img.WindowsFit) :
    (img.loadBlock fi pos).Asks o img.InImage ↔
      (img.ReadsEntry fi pos → img.EntryInside fi pos) := by
  unfold loadBlock ReadsEntry
  dsimp only
  by_cases hbn : calculateBlocks img.sb.blkSizeBits fi.size ≤ pos / img.blockSize
  · simp [hbn, not_lt.2 hbn]
  rw [if_neg hbn]
  have hlt := not_le.1 hbn
  cases hlay : fi.inodeLayout with
  | flatPlain => simp [loadFlatPlain_asks hs hw]
  | flatInline => simp [loadFlatInline_asks hs hw]
  | chunkBased => simp [loadChunk_asks_iff hs hw, hlt]
  | compressedFull => simp
  | compressedCompact => simp
  | unknown n => simp

variable (img) in
/-- `loadBlock` at an `int64` position comes to read a chunk's entry; before the file it does so
only in a file within a block of `2^63` bytes, whose positions wrap. -/
def ReadsEntryAt (fi : Inode) (pos : Int) : Prop :=
  0 ≤ pos ∧ img.ReadsEntry fi pos.toNat ∨
    pos < 0 ∧ 2 ^ 63 < fi.size + img.blockSize ∧ fi.inodeLayout = .chunkBased ∧
      fi.chunk48Bit = false ∧ fi.chunkUnsupported = false

variable (img) in
/-- The entry of the chunk that an `int64` position is in starts inside the image. -/
def EntryInsideAt (fi : Inode) (pos : Int) : Prop :=
  0 ≤ img.entryPosAt fi pos ∧ img.entryPosAt fi pos ≤ img.size

theorem entryInsideAt_natCast : img.EntryInsideAt fi pos ↔ img.EntryInside fi pos := by
  have hpos : img.entryPosAt fi pos = img.entryPos fi (pos / 2 ^ img.chunkBits fi) := by
    rw [entryPosAt, entryPos]
    push_cast
    rfl
  rw [EntryInsideAt, EntryInside, hpos]

theorem loadFlatWrapped_asks (hs : 0 < img.size) (hw : img.WindowsFit) (bn blockOffset : Int) :
    (img.loadFlatWrapped fi bn blockOffset).Asks o img.InImage := by
  unfold loadFlatWrapped
  cases img.blockAddr fi.nid ((fi.startBlock + bn) % 2 ^ 64).toNat with
  | error e => exact Prog.asks_done
  | ok pa => exact loadPlaced_asks hs hw ..

theorem loadWrapped_asks_iff {pos : Int} (hs : 0 < img.size) (hw : img.WindowsFit) :
    (img.loadWrapped fi pos).Asks o img.InImage ↔
      (fi.inodeLayout = .chunkBased → fi.chunk48Bit = false → fi.chunkUnsupported = false →
        img.EntryInsideAt fi pos) := by
  unfold loadWrapped
  dsimp only
  cases hlay : fi.inodeLayout with
  | flatPlain =>
    refine iff_of_true ?_ nofun
    dsimp only
    split_ifs
    · exact Prog.asks_done
    · exact Prog.asks_done
    · exact loadFlatWrapped_asks hs hw ..
  | flatInline => exact iff_of_true (loadFlatWrapped_asks hs hw ..) nofun
  | chunkBased =>
    dsimp only
    by_cases h48 : fi.chunk48Bit
    · simp [h48]
    by_cases hun : fi.chunkUnsupported
    · simp [h48, hun]
    rw [if_neg h48, if_neg hun]
    constructor
    · intro h _ _ _
      exact (Prog.asks_ask.1 h).1 rfl
    · intro h
      obtain ⟨h0, hend⟩ := h rfl (by simpa using h48) (by simpa using hun)
      refine Prog.asks_tryBind ?_ fun entry _ => loadEntryBlock_asks hs hw ..
      exact Prog.asks_bind (readerAt_asks (inImage_of h0 hend)) Prog.asks_done
  | compressedFull => simp
  | compressedCompact => simp
  | unknown n => simp

/-- The same at an `int64` position. -/
theorem loadBlockAt_asks_iff {pos : Int} (hs : 0 < img.size) (hw : img.WindowsFit)
    (hwrap : pos < 0 → 2 ^ 63 < fi.size + img.blockSize) :
    (img.loadBlockAt fi pos).Asks o img.InImage ↔
      (img.ReadsEntryAt fi pos → img.EntryInsideAt fi pos) := by
  rcases lt_or_ge pos 0 with hneg | hpos
  · rw [loadBlockAt, if_neg (by omega), loadWrapped_asks_iff hs hw, ReadsEntryAt]
    have hwide := hwrap hneg
    constructor
    · rintro h (⟨h0, -⟩ | ⟨-, -, hlay, h48, hun⟩)
      · omega
      · exact h hlay h48 hun
    · exact fun h hlay h48 hun => h (.inr ⟨hneg, hwide, hlay, h48, hun⟩)
  · obtain ⟨p, rfl⟩ := Int.eq_ofNat_of_zero_le hpos
    rw [loadBlockAt_natCast, loadBlock_asks_iff hs hw, entryInsideAt_natCast, ReadsEntryAt,
      Int.toNat_natCast]
    constructor
    · rintro h (⟨-, hread⟩ | ⟨hneg, -⟩)
      · exact h hread
      · omega
    · exact fun h hread => h (.inl ⟨hpos, hread⟩)

/-! ## Ends of file -/

/-- An error that is not an end of file. -/
def NotEof {α : Type} (x : Except GoError α) : Prop := ∀ e, x = .error e → e.is .eof = false

theorem NotEof.bind {α β : Type} {x : Except GoError α} {f : α → Except GoError β} (hx : NotEof x)
    (hf : ∀ a, NotEof (f a)) : NotEof (x >>= f) := by
  cases x with
  | error e => exact fun e' h => hx e' (by cases h; rfl)
  | ok a => exact hf a

theorem hardError_notEof {a : Answer} {e : GoError} (h : a.hardError = some e) :
    e.is .eof = false := by
  simpa using (Option.filter_eq_some_iff.1 h).2

theorem windowOf_notEof {nid n : ℕ} {short : ℕ → GoError} {a : Answer}
    (hshort : ∀ k, (short k).is .eof = false) : NotEof (windowOf nid n short a) := by
  intro e h
  unfold windowOf at h
  split_ifs at h
  split at h
  · next e' he =>
    cases h
    exact (GoError.is_wrap ..).trans (hardError_notEof he)
  · cases h
    exact hshort _

theorem checkImageRange_notEof {off n : Int} : NotEof (img.checkImageRange off n) := by
  intro e h
  unfold checkImageRange at h
  split_ifs at h <;> cases h <;> rfl

theorem locateRange_notEof {pa n : Int} : NotEof (img.locateRange pa n) := by
  intro e h
  unfold locateRange at h
  split_ifs at h
  · cases h
    rfl
  · split at h
    · split_ifs at h
      cases h
      rfl
    · cases hc : img.checkImageRange pa n with
      | error e' =>
        rw [hc] at h
        cases h
        exact checkImageRange_notEof _ hc
      | ok u =>
        rw [hc] at h
        cases h

theorem locate_notEof {deviceID : ℕ} {pa : Int} : NotEof (img.locate deviceID pa) := by
  intro e h
  unfold locate at h
  by_cases hd : 0 < deviceID
  · rw [if_pos hd] at h
    split_ifs at h
    cases h
    rfl
  · rw [if_neg hd] at h
    split at h
    · cases h
    · split_ifs at h
      cases h
      rfl

theorem boundOnDevice_notEof {dev : ℕ} {off n : Int} : NotEof (img.boundOnDevice dev off n) := by
  intro e h
  unfold boundOnDevice at h
  by_cases hd : dev = 0
  · rw [if_pos hd] at h
    exact checkImageRange_notEof _ h
  · rw [if_neg hd] at h
    split at h
    · cases h
      rfl
    · split_ifs at h <;> cases h <;> rfl

theorem readWindow_notEof {nid dev n : ℕ} {off : Int} {short : ℕ → GoError}
    (hshort : ∀ k, (short k).is .eof = false) :
    NotEof ((img.readWindow nid dev off n short).run o) := by
  unfold readWindow
  rw [Prog.run_bind]
  exact windowOf_notEof hshort

theorem NotEof.wrap {α β : Type} {x : Except GoError α} (hx : NotEof x) {e : GoError}
    (h : x = .error e) (format : String) (args : List Arg) :
    NotEof (.error (e.wrap format args) : Except GoError β) := by
  rintro e' ⟨⟩
  exact (GoError.is_wrap ..).trans (hx e h)

theorem placeBlock_notEof {dataBlock : Bool} {start : Int} {length : ℕ} :
    NotEof (img.placeBlock dataBlock start length) := by
  unfold placeBlock
  split_ifs
  · exact locateRange_notEof
  · cases hc : img.checkImageRange start length with
    | error e =>
      rintro e' ⟨⟩
      exact checkImageRange_notEof _ hc
    | ok u => rintro e ⟨⟩

theorem loadPlaced_notEof {nid : ℕ} {addr blockOffset blockEnd : Int} {dataBlock : Bool} :
    NotEof ((img.loadPlaced nid addr blockOffset blockEnd dataBlock).run o) := by
  unfold loadPlaced
  dsimp only
  split_ifs
  · rintro e ⟨⟩
    rfl
  · split
    · next e he => exact placeBlock_notEof.wrap he _ _
    · exact readWindow_notEof fun _ => rfl

theorem blockAddr_notEof {nid blk : ℕ} : NotEof (img.blockAddr nid blk) := by
  intro e h
  unfold blockAddr at h
  split_ifs at h
  cases h
  rfl

theorem chunkAddr_notEof {phys : ℕ} : NotEof (img.chunkAddr phys) := by
  intro e h
  unfold chunkAddr at h
  split_ifs at h
  cases h
  rfl

theorem loadFlat_notEof {blockOffset blockEnd : Int} :
    NotEof ((img.loadFlat fi bn blockOffset blockEnd).run o) := by
  unfold loadFlat
  cases hb : img.blockAddr fi.nid (fi.startBlock + bn) with
  | error e =>
    rintro e' ⟨⟩
    exact blockAddr_notEof _ hb
  | ok pa => exact loadPlaced_notEof

theorem loadFlatPlain_notEof : NotEof ((img.loadFlatPlain fi pos bn nblocks).run o) := by
  unfold loadFlatPlain
  dsimp only
  split_ifs
  · rintro e ⟨⟩
    rfl
  · rintro e ⟨⟩
  · exact loadFlat_notEof

theorem loadFlatInline_notEof : NotEof ((img.loadFlatInline fi pos bn nblocks).run o) := by
  unfold loadFlatInline
  dsimp only
  split_ifs
  · rintro e ⟨⟩
    rfl
  · exact loadPlaced_notEof
  · exact loadFlat_notEof

theorem loadChunkData_notEof {deviceID : ℕ} {addr blockOffset blockEnd : Int} :
    NotEof ((img.loadChunkData fi deviceID addr blockOffset blockEnd).run o) := by
  unfold loadChunkData
  split
  · next e he => exact locate_notEof.wrap he _ _
  · dsimp only
    split
    · next e he => exact boundOnDevice_notEof.wrap he _ _
    · exact readWindow_notEof fun _ => rfl

theorem entryAddr_notEof {entry : Bytes} : NotEof (img.entryAddr fi entry) := by
  unfold entryAddr
  split
  · rintro e ⟨⟩
  · next c _ =>
    cases hc : img.chunkAddr c.block with
    | error e =>
      rintro e' ⟨⟩
      exact chunkAddr_notEof _ hc
    | ok addr => rintro e ⟨⟩

theorem loadEntryBlock_notEof {entry : Bytes} {blockOffset blockEnd shift : Int} :
    NotEof ((img.loadEntryBlock fi entry blockOffset blockEnd shift).run o) := by
  unfold loadEntryBlock
  split
  · next e he =>
    rintro e' ⟨⟩
    exact entryAddr_notEof _ he
  · split_ifs
    · rintro e ⟨⟩
      rfl
    · split
      · rintro e ⟨⟩
      · exact loadChunkData_notEof

variable (img o) in
/-- The read of the chunk entry for `pos` is answered with an end of file. -/
def EntryEof (fi : Inode) (pos : ℕ) : Prop :=
  ∃ e, (o ⟨0, img.entryPos fi (pos / 2 ^ img.chunkBits fi), chunkUnit fi⟩).err = some e ∧
    e.is .eof = true

theorem entryOf_eof_iff {unit : ℕ} {entryPos : Int} {a : Answer} :
    (∃ e, entryOf unit entryPos a = .error e ∧ e.is .eof = true) ↔
      ∃ e, a.err = some e ∧ e.is .eof = true := by
  unfold entryOf
  cases he : a.err with
  | some e =>
    constructor
    · rintro ⟨_, ⟨⟩, h⟩
      exact ⟨e, rfl, h⟩
    · rintro ⟨_, ⟨⟩, h⟩
      exact ⟨_, rfl, h⟩
  | none =>
    constructor
    · rintro ⟨e, h, heof⟩
      dsimp only at h
      split_ifs at h
      cases h
      cases heof
    · rintro ⟨_, ⟨⟩, -⟩

theorem loadChunk_eof_iff :
    (∃ e, (img.loadChunk fi pos bn nblocks).run o = .error e ∧ e.is .eof = true) ↔
      fi.chunk48Bit = false ∧ fi.chunkUnsupported = false ∧
        pos / 2 ^ img.chunkBits fi < img.chunkCount fi ∧ img.EntryEof o fi pos := by
  unfold loadChunk
  dsimp only
  by_cases h48 : fi.chunk48Bit
  · simp [h48, GoError.is, errorf]
  by_cases hun : fi.chunkUnsupported
  · simp [h48, hun, GoError.is, errorf]
  by_cases hcn : img.chunkCount fi ≤ pos / 2 ^ img.chunkBits fi
  · simp [h48, hun, hcn, GoError.is, errorf]
  rw [if_neg h48, if_neg hun, if_neg hcn, Prog.exec_bind, Prog.run_bind, Prog.run_done]
  have hentry := @entryOf_eof_iff (chunkUnit fi) (img.entryPos fi (pos / 2 ^ img.chunkBits fi))
    ((readerAt 0 (img.entryPos fi (pos / 2 ^ img.chunkBits fi)) (chunkUnit fi)).run o)
  change _ ↔ img.EntryEof o fi pos at hentry
  simp only [Bool.not_eq_true] at h48 hun
  simp only [h48, hun, not_le.1 hcn, true_and, ← hentry]
  split
  · next e he => simp [he]
  · next entry he =>
    constructor
    · rintro ⟨e, h, heof⟩
      rw [loadEntryBlock_notEof e h] at heof
      cases heof
    · rintro ⟨e, h, -⟩
      rw [he] at h
      cases h

/-- The only end of file `loadBlock` can report within the file is the answer to the chunk entry's
read: every other read's end is an error of another kind. -/
theorem loadBlock_eof_iff (hpos : pos < fi.size) :
    (∃ e, (img.loadBlock fi pos).run o = .error e ∧ e.is .eof = true) ↔
      img.ReadsEntry fi pos ∧ img.EntryEof o fi pos := by
  have hbn : pos / img.blockSize < calculateBlocks img.sb.blkSizeBits fi.size :=
    lt_calculateBlocks_iff.2 (lt_of_le_of_lt (Nat.div_mul_le_self _ _) hpos)
  have hno : ∀ {x : Except GoError Bytes}, NotEof x → ¬ ∃ e, x = .error e ∧ e.is .eof = true := by
    rintro x hx ⟨e, h, heof⟩
    rw [hx e h] at heof
    cases heof
  unfold loadBlock ReadsEntry
  dsimp only
  rw [if_neg (not_le.2 hbn)]
  cases hlay : fi.inodeLayout with
  | flatPlain => simpa using hno loadFlatPlain_notEof
  | flatInline => simpa using hno loadFlatInline_notEof
  | chunkBased => simp [loadChunk_eof_iff, hbn, and_assoc]
  | compressedFull => simp [GoError.is, errorf]
  | compressedCompact => simp [GoError.is, errorf]
  | unknown n => simp [GoError.is, errorf]

end Image

end Erofs
