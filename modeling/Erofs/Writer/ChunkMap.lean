import Erofs.Reader.Mapped
import Erofs.Writer.ChunkRuns
import Erofs.Writer.InodeWrite

/-!
# The chunk map of a file

`writeChunkIndexes` (`writer.go`) cuts a list of runs into chunks of one size and writes an index
for the start of each.  Its walk keeps a place in the list, a run and an offset into it; the
invariant is that the layout left from there is the layout of the file with whole chunks dropped.

The main results:

* `loadFromEntry_eq` — how `loadBlock` finds a block from the entry of its chunk;
* `indexEntry_writeIndexes` — the entry of a chunk is the place of its first block;
* `chunkMap_decodes` — the map has one entry for each chunk, and decodes to the layout of the runs.
-/

namespace Erofs

open GoPath LittleEndian Oracle

/-! ## Writing a chunk map -/

/-- `nullIdx`. -/
def nullIndex : Bytes := leBytes 2 0xffff ++ leBytes 2 0 ++ leBytes 4 (2 ^ 32 - 1)

/-- The index of a chunk that starts `coff` blocks into the run `c`: `uint32` of its address. -/
def chunkIndex (c : Chunk) (coff : ℕ) : Bytes :=
  if c.physicalBlock = nullPhysicalBlock then nullIndex
  else leBytes 2 0 ++ leBytes 2 c.deviceID ++ leBytes 4 ((c.physicalBlock + coff) % 2 ^ 64)

/-- The inner loop of `writeChunkIndexes`: the run `coff` blocks from the first, and the rest of the
offset. -/
def skipRuns : List Chunk → ℕ → List Chunk × ℕ
  | [], coff => ([], coff)
  | c :: cs, coff => if c.count ≤ coff then skipRuns cs (coff - c.count) else (c :: cs, coff)

/-- The loop of `writeChunkIndexes`, over chunks of `per` blocks; past the runs there are holes. -/
def writeIndexes (per : ℕ) : ℕ → List Chunk → ℕ → Bytes
  | 0, _, _ => []
  | n + 1, [], coff => nullIndex ++ writeIndexes per n [] coff
  | n + 1, c :: cs, coff =>
    chunkIndex c coff ++
      writeIndexes per n (skipRuns (c :: cs) (coff + per)).1 (skipRuns (c :: cs) (coff + per)).2

/-- `writeChunkIndexes` of an entry whose own chunk bits are `bits`. -/
def ErofsWriter.writeChunkIndexes (w : ErofsWriter) (bits : ℕ) (e : ErofsEntry) : Bytes :=
  writeIndexes (w.entryChunkSize bits / w.blockSize) (w.chunkCount bits e.size) e.chunks 0

/-- The entry with the chunk of its tail, which `assignFlatPlainAddrs` puts at the block `addr` of
the image. -/
def ErofsEntry.withTail (e : ErofsEntry) (addr : ℕ) : ErofsEntry :=
  if e.tail = [] then e else { e with chunks := e.chunks ++ [⟨addr, 1, 0⟩] }

/-! ## The walk -/

variable {per n coff : ℕ} {cs : List Chunk}

theorem length_chunkIndex (c : Chunk) (coff : ℕ) : (chunkIndex c coff).length = 8 := by
  unfold chunkIndex nullIndex
  split_ifs <;> simp

theorem length_writeIndexes : (writeIndexes per n cs coff).length = n * 8 := by
  induction n generalizing cs coff with
  | zero => rw [writeIndexes, List.length_nil, Nat.zero_mul]
  | succ n ih =>
    cases cs with
    | nil =>
      rw [writeIndexes, List.length_append, ih, Nat.succ_mul, Nat.add_comm]
      rfl
    | cons c cs =>
      rw [writeIndexes, List.length_append, ih, length_chunkIndex, Nat.succ_mul, Nat.add_comm]

/-- Skipping runs drops their blocks from the layout. -/
theorem expand_skipRuns (cs : List Chunk) (k : ℕ) :
    (expand (skipRuns cs k).1).drop (skipRuns cs k).2 = (expand cs).drop k := by
  induction cs generalizing k with
  | nil => rfl
  | cons c cs ih =>
    rw [skipRuns]
    by_cases hk : c.count ≤ k
    · have hlen : ((List.range c.count).map (blockFrom c.physicalBlock c.deviceID)).length =
          c.count := by simp
      rw [if_pos hk, ih, expand_cons, List.drop_append, hlen,
        List.drop_eq_nil_of_le (hlen.le.trans hk), List.nil_append]
    · rw [if_neg hk]

/-- The offset lies in the run it is skipped to. -/
def InRun (cs : List Chunk) (coff : ℕ) : Prop := ∀ c, cs.head? = some c → coff < c.count

theorem inRun_skipRuns (cs : List Chunk) (k : ℕ) :
    InRun (skipRuns cs k).1 (skipRuns cs k).2 := by
  induction cs generalizing k with
  | nil =>
    intro c hc
    cases hc
  | cons c cs ih =>
    rw [skipRuns]
    by_cases hk : c.count ≤ k
    · rw [if_pos hk]
      exact ih _
    · rw [if_neg hk]
      intro c' hc'
      cases hc'
      omega

theorem skipRuns_subset (cs : List Chunk) (k : ℕ) : (skipRuns cs k).1 ⊆ cs := by
  induction cs generalizing k with
  | nil => exact fun _ h => h
  | cons c cs ih =>
    rw [skipRuns]
    split_ifs
    · exact fun x hx => List.mem_cons_of_mem _ (ih _ hx)
    · exact fun _ h => h

/-- The layout at an offset into the first run. -/
theorem expand_getElem?_head {c : Chunk} (h : coff < c.count) :
    (expand (c :: cs))[coff]? = some (blockFrom c.physicalBlock c.deviceID coff) := by
  rw [expand_cons, List.getElem?_append_left (by simpa using h), List.getElem?_map,
    List.getElem?_range h, Option.map_some]

/-! ## Reading it back -/

/-- A run the format can name: its blocks end within 32 bits, its device is one of `devices`. -/
structure Chunk.Mappable (c : Chunk) (devices : ℕ) : Prop where
  count_pos : 0 < c.count
  device_le : c.deviceID ≤ devices
  block : c.physicalBlock = nullPhysicalBlock ∨ c.physicalBlock + c.count ≤ 2 ^ 32 - 1

/-- The image is read with the superblock that `writeBlock0` writes. -/
structure Image.ReadsFrom (img : Image) (w : ErofsWriter) : Prop where
  blockSize : img.blockSize = w.blockSize
  buildTime : img.sb.buildTime = w.buildTime
  buildTimeNs : img.sb.buildTimeNs = w.buildTimeNs
  devices : img.sb.extraDevices = w.devices.length
  table : img.sb.featureIncompat &&& 8 ≠ 0 ↔ w.devices ≠ []
  mask : img.deviceIDMask = Erofs.deviceIDMask img.sb
  limit : w.devices.length ≤ 65535

namespace Image

variable {img : Image} {w : ErofsWriter} {ino : Inode}

/-- The mask keeps the number of every declared device. -/
theorem ReadsFrom.and_mask (h : img.ReadsFrom w) {d : ℕ} (hd : d ≤ w.devices.length) :
    d &&& img.deviceIDMask = d := by
  have hlimit := h.limit
  rw [h.mask, Erofs.deviceIDMask, h.devices]
  by_cases hnone : w.devices = []
  · rw [if_neg (by rw [h.table]; simpa using hnone), Nat.and_zero]
    rw [hnone, List.length_nil] at hd
    omega
  · have hlt : d < 2 ^ Nat.clog 2 (w.devices.length + 1) :=
      lt_of_lt_of_le (by omega) (Nat.le_pow_clog (by decide) _)
    have hle : 2 ^ Nat.clog 2 (w.devices.length + 1) ≤ 2 ^ 16 :=
      Nat.pow_le_pow_right (by decide) (Nat.clog_le_of_le_pow (by omega))
    rw [if_pos (h.table.2 hnone), Nat.mod_eq_of_lt (by omega), Nat.and_two_pow_sub_one_eq_mod,
      Nat.mod_eq_of_lt hlt]

/-- An entry as a place, none for a hole. -/
def indexPlace (e : Option ChunkEntry) : Option (ℕ × ℕ) := e.map fun c => (c.device, c.block)

theorem indexEntry_nullIndex (rest : Bytes) : img.indexEntry (nullIndex ++ rest) 0 = none := by
  have hfield : field (nullIndex ++ rest) 4 4 = 2 ^ 32 - 1 := field_leBytes (by decide) rfl
  rw [indexEntry, Nat.zero_mul, List.drop_zero, hfield]
  rfl

theorem indexEntry_chunkIndex (h : img.ReadsFrom w) {c : Chunk}
    (hc : c.Mappable w.devices.length) (hlt : coff < c.count) (rest : Bytes) :
    indexPlace (img.indexEntry (chunkIndex c coff ++ rest) 0) =
      blockFrom c.physicalBlock c.deviceID coff := by
  unfold chunkIndex
  by_cases hnull : c.physicalBlock = nullPhysicalBlock
  · rw [if_pos hnull, indexEntry_nullIndex, hnull, blockFrom_null]
    rfl
  have hblock := hc.block.resolve_left hnull
  have hdev := hc.device_le
  have hlimit := h.limit
  have h₁ : field
      (leBytes 2 0 ++ leBytes 2 c.deviceID ++ leBytes 4 (c.physicalBlock + coff) ++ rest)
      2 2 = c.deviceID :=
    field_leBytes (by omega)
      (by rw [List.append_assoc, List.append_assoc]; exact List.drop_left' rfl)
  have h₂ : field
      (leBytes 2 0 ++ leBytes 2 c.deviceID ++ leBytes 4 (c.physicalBlock + coff) ++ rest)
      4 4 = c.physicalBlock + coff :=
    field_leBytes (by omega) (by rw [List.append_assoc]; exact List.drop_left' rfl)
  rw [if_neg hnull, Nat.mod_eq_of_lt (by omega), indexEntry, Nat.zero_mul, List.drop_zero]
  rw [h₁, h₂, if_neg (by omega), h.and_mask hdev, blockFrom, if_neg hnull]
  rfl

theorem indexEntry_append_succ {b rest : Bytes} (hb : b.length = 8) (j : ℕ) :
    img.indexEntry (b ++ rest) (j + 1) = img.indexEntry rest j := by
  rw [indexEntry, indexEntry, Disk.sizeChunkIndex, Nat.succ_mul, Nat.add_comm, ← List.drop_drop,
    ← hb, List.drop_left]

/-- **One chunk.** The entry of a chunk is the place the runs give its first block. -/
theorem indexEntry_writeIndexes (h : img.ReadsFrom w) {j : ℕ} (hj : j < n)
    (hcs : ∀ c ∈ cs, c.Mappable w.devices.length) (hin : InRun cs coff) :
    indexPlace (img.indexEntry (writeIndexes per n cs coff) j) =
      ((expand cs)[coff + j * per]?).join := by
  -- induction on the chunks; the walk drops a chunk's blocks at each turn
  induction j generalizing n cs coff with
  | zero =>
    obtain ⟨n, rfl⟩ : ∃ m, n = m + 1 := ⟨n - 1, by omega⟩
    rw [Nat.zero_mul]
    cases cs with
    | nil =>
      rw [writeIndexes, indexEntry_nullIndex, expand_nil, List.getElem?_nil]
      rfl
    | cons c cs =>
      have hlt := hin c rfl
      rw [writeIndexes, indexEntry_chunkIndex h (hcs c List.mem_cons_self) hlt, Nat.add_zero,
        expand_getElem?_head hlt]
      rfl
  | succ j ih =>
    obtain ⟨n, rfl⟩ : ∃ m, n = m + 1 := ⟨n - 1, by omega⟩
    cases cs with
    | nil =>
      rw [writeIndexes, indexEntry_append_succ rfl, ih (by omega) hcs hin, expand_nil,
        List.getElem?_nil, List.getElem?_nil]
    | cons c cs =>
      rw [writeIndexes, indexEntry_append_succ (length_chunkIndex ..),
        ih (by omega) (fun x hx => hcs x (skipRuns_subset _ _ hx)) (inRun_skipRuns _ _),
        ← List.getElem?_drop, expand_skipRuns, List.getElem?_drop, Nat.succ_mul]
      congr 2
      omega

/-! ## Blocks -/

variable (img ino) in
/-- Where a chunk map puts block `b` of the file: the entry of its chunk, and as many blocks on as
it is into the chunk. -/
def blockOfMap (map : Bytes) (b : ℕ) : Option (ℕ × ℕ) :=
  (img.mapEntry ino map (b / blocksPerChunk ino)).map fun c =>
    (c.device, c.block + b % blocksPerChunk ino)

theorem chunk_of_pos (pos : ℕ) :
    pos / 2 ^ img.chunkBits ino = pos / img.blockSize / blocksPerChunk ino := by
  rw [chunkBits, Nat.pow_add, ← Nat.div_div_eq_div_mul]
  rfl

/-- A block's place in its chunk, in bytes. -/
theorem block_sub_chunk (pos : ℕ) :
    ((pos / img.blockSize * img.blockSize : ℕ) : Int) -
        (pos / 2 ^ img.chunkBits ino * 2 ^ img.chunkBits ino : ℕ) =
      (pos / img.blockSize % blocksPerChunk ino * img.blockSize : ℕ) := by
  have hpow : 2 ^ img.chunkBits ino = img.blockSize * blocksPerChunk ino := Nat.pow_add _ _ _
  rw [chunk_of_pos, hpow]
  generalize pos / img.blockSize = b
  have hdm := Nat.div_add_mod b (blocksPerChunk ino)
  have hb : b * img.blockSize = b / blocksPerChunk ino * (img.blockSize * blocksPerChunk ino) +
      b % blocksPerChunk ino * img.blockSize := by
    conv_lhs => rw [← hdm]
    ring
  omega

/-- **`loadBlock`** of a chunk-based file, once the entry of the chunk is read: the block of the
chunk that `blockOfMap` gives. -/
theorem loadFromEntry_eq (hbits : img.sb.blkSizeBits ≤ 16) (map : Bytes) (pos nblocks : ℕ)
    (hbounds : img.boundsOk (pos % img.blockSize : ℕ)
      (img.blockEnd ino.size (pos / img.blockSize) nblocks) = true) :
    img.loadFromEntry ino pos (pos / img.blockSize) nblocks (pos / 2 ^ img.chunkBits ino)
        ((map.drop (pos / 2 ^ img.chunkBits ino * chunkUnit ino)).take (chunkUnit ino)) =
      (img.blockOfMap ino map (pos / img.blockSize)).elim
        (.done (.ok (holeBlock (pos % img.blockSize : ℕ)
          (img.blockEnd ino.size (pos / img.blockSize) nblocks))))
        fun p => img.loadChunkData ino p.1 (p.2 * img.blockSize : ℕ) (pos % img.blockSize : ℕ)
          (img.blockEnd ino.size (pos / img.blockSize) nblocks) := by
  have hentry : img.decodeEntry ino
      ((map.drop (pos / 2 ^ img.chunkBits ino * chunkUnit ino)).take (chunkUnit ino)) =
      img.mapEntry ino map (pos / img.blockSize / blocksPerChunk ino) := by
    rw [mapEntry, chunk_of_pos]
  unfold loadFromEntry loadEntryBlock entryAddr blockOfMap
  rw [hentry]
  cases hsome : img.mapEntry ino map (pos / img.blockSize / blocksPerChunk ino) with
  | none =>
    dsimp only [Option.map_none, Option.elim_none]
    rw [hbounds]
    rfl
  | some c =>
    have hlt : c.block < 2 ^ 32 := decodeEntry_block_lt (hentry.trans hsome)
    have haddr : ((c.block * img.blockSize : ℕ) : Int) +
        ((pos / img.blockSize * img.blockSize : ℕ) -
          (pos / 2 ^ img.chunkBits ino * 2 ^ img.chunkBits ino : ℕ)) =
        ((c.block + pos / img.blockSize % blocksPerChunk ino) * img.blockSize : ℕ) := by
      rw [block_sub_chunk, Nat.add_mul, Nat.cast_add]
    dsimp only [Option.map_some, Option.elim_some]
    rw [chunkAddr_of_lt hbits hlt, ← haddr]
    dsimp only [Except.map]
    rw [hbounds]
    rfl

/-! ## The round trip -/

/-- What the format word says of a map that was written: indexes of 32 bits, for chunks of as many
blocks as the plan has. -/
theorem chunkFormat_written {e : ErofsEntry} {p : Plan} {direntSize currentOff dataBlkAddr : ℕ}
    (hw : w.chunkBits = 0) (hp : p = (w.planEntry e direntSize currentOff).1)
    (hlayout : p.layout = .chunkBased) (hdata : ino.inodeData = w.inodeData e p dataBlkAddr) :
    ino.chunkIndexed = true ∧ ino.chunk48Bit = false ∧
      blocksPerChunk ino = 2 ^ w.entryChunkBits p.chunkBits := by
  have hreg : e.mode.typ = Mode.reg := ErofsWriter.reg_of_chunkBased (hp ▸ hlayout)
  have hle : w.entryChunkBits p.chunkBits ≤ 31 := by
    rw [hp]
    exact ErofsWriter.entryChunkBits_le hw _
  obtain ⟨-, -, hindexed, hbits⟩ := ErofsWriter.chunkFormat_reads hle
  rw [ErofsWriter.inodeData, if_pos hreg, if_pos hlayout] at hdata
  rw [← hdata] at hindexed hbits
  refine ⟨bne_iff_ne.2 hindexed, ?_, congrArg (2 ^ ·) hbits⟩
  rw [Inode.chunk48Bit, Inode.chunkFormat, hdata]
  generalize w.entryChunkBits p.chunkBits = k at hle
  interval_cases k <;> rfl

theorem ceil_div_eq {size cs : ℕ} (hcs : 0 < cs) :
    (size / cs + if size % cs ≠ 0 then 1 else 0) = if size = 0 then 0 else (size - 1) / cs + 1 := by
  by_cases h0 : size = 0
  · subst h0
    simp
  have hdm := Nat.div_add_mod size cs
  have hlt := Nat.mod_lt size hcs
  rw [if_neg h0]
  generalize size / cs = q at *
  by_cases hr : size % cs = 0
  · obtain ⟨q, rfl⟩ : ∃ m, q = m + 1 := by
      refine ⟨q - 1, ?_⟩
      rcases q with _ | q
      · omega
      · rfl
    have hq : size - 1 = cs * q + (cs - 1) := by
      rw [Nat.mul_succ] at hdm
      omega
    rw [if_neg (by omega), hq, Nat.mul_add_div hcs, Nat.div_eq_of_lt (by omega)]
  · have hq : size - 1 = cs * q + (size % cs - 1) := by omega
    rw [if_pos hr, hq, Nat.mul_add_div hcs, Nat.div_eq_of_lt (by omega), Nat.add_zero]

/-- Both sides count the chunks of a file alike, the writer up to its limit. -/
theorem chunkCount_written {bits : ℕ} (hb : img.blockSize = w.blockSize)
    (hper : blocksPerChunk ino = 2 ^ w.entryChunkBits bits) :
    w.chunkCount bits ino.size = min (img.chunkCount ino) (maxChunkIndexEntries + 1) := by
  have hcs : w.entryChunkSize bits = 2 ^ img.chunkBits ino := by
    rw [ErofsWriter.entryChunkSize, ← hper, ← hb]
    exact (Nat.pow_add _ _ _).symm
  have hpos : 0 < w.entryChunkSize bits := by
    rw [hcs]
    exact Nat.two_pow_pos _
  unfold ErofsWriter.chunkCount
  rw [if_neg hpos.ne']
  dsimp only
  rw [ceil_div_eq hpos, hcs]
  change (if maxChunkIndexEntries < img.chunkCount ino then _ else img.chunkCount ino) = _
  split_ifs <;> omega

theorem blockOfMap_eq {map : Bytes} {b : ℕ} (hindexed : ino.chunkIndexed = true) :
    img.blockOfMap ino map b =
      (indexPlace (img.indexEntry map (b / blocksPerChunk ino))).map fun q =>
        (q.1, q.2 + b % blocksPerChunk ino) := by
  rw [blockOfMap, mapEntry_indexed hindexed, indexPlace, Option.map_map]
  rfl

end Image

/-- The runs of a file of `size` bytes are one extent of a device, with no hole. -/
def OneExtent (blockSize size : ℕ) (cs : List Chunk) : Prop :=
  ∃ device start n, size ≤ n * blockSize ∧
    expand cs = (List.range n).map fun k => some (device, start + k)

theorem chunks_withTail (e : ErofsEntry) (addr : ℕ) :
    ∃ tail, (e.withTail addr).chunks = e.chunks ++ tail := by
  unfold ErofsEntry.withTail
  split_ifs
  · exact ⟨[], (List.append_nil _).symm⟩
  · exact ⟨_, rfl⟩

theorem size_withTail (e : ErofsEntry) (addr : ℕ) : (e.withTail addr).size = e.size := by
  unfold ErofsEntry.withTail
  split_ifs <;> rfl

/-- In one extent, the blocks of a chunk follow its first. -/
theorem OneExtent.join_getElem? {bs size b per : ℕ} {cs : List Chunk} (h : OneExtent bs size cs)
    (hb : b * bs < size) (tail : List Chunk) :
    (((expand (cs ++ tail))[b / per * per]?).join).map (fun q => (q.1, q.2 + b % per)) =
      ((expand (cs ++ tail))[b]?).join := by
  obtain ⟨device, start, n, hsize, hexp⟩ := h
  have hlt : b < n := by
    by_contra hge
    have := Nat.mul_le_mul_right bs (not_lt.1 hge)
    omega
  have hdm := Nat.div_add_mod' b per
  have hfirst : b / per * per < n := by omega
  have hlen : ((List.range n).map fun k => some (device, start + k)).length = n := by simp
  rw [expand_append, hexp, List.getElem?_append_left (by omega),
    List.getElem?_append_left (by omega)]
  simp only [List.getElem?_map, List.getElem?_range hfirst, List.getElem?_range hlt,
    Option.map_some, Option.join_some]
  congr 2
  omega

section

variable {img : Image} {w : ErofsWriter} {ino : Inode} {e : ErofsEntry} {p : Plan}
  {direntSize currentOff dataBlkAddr tailAddr : ℕ}

/-- **Chunk maps.**  The map of a chunk-based file has one entry for each chunk, and the reader
finds each block of the file where the runs put it: at a hole where they have one, and past their
end. -/
theorem chunkMap_decodes (h : img.ReadsFrom w) (hw : w.chunkBits = 0)
    (hp : p = (w.planEntry e direntSize currentOff).1) (hlayout : p.layout = .chunkBased)
    (hsize : ino.size = e.size) (hdata : ino.inodeData = w.inodeData e p dataBlkAddr)
    (hruns : ∀ c ∈ (e.withTail tailAddr).chunks, c.Mappable w.devices.length)
    (hone : e.contiguous = true → OneExtent w.blockSize e.size e.chunks)
    (hcount : w.chunkCount p.chunkBits e.size ≤ maxChunkIndexEntries) :
    (w.writeChunkIndexes p.chunkBits (e.withTail tailAddr)).length =
        w.chunkCount p.chunkBits e.size * Disk.sizeChunkIndex ∧
    ∀ b, b * w.blockSize < e.size →
      img.blockOfMap ino (w.writeChunkIndexes p.chunkBits (e.withTail tailAddr)) b =
        ((expand (e.withTail tailAddr).chunks)[b]?).join := by
  obtain ⟨tail, htail⟩ := chunks_withTail e tailAddr
  obtain ⟨hindexed, -, hper⟩ := Image.chunkFormat_written hw hp hlayout hdata
  have hbits : p.chunkBits = w.ownChunkBits e .chunkBased := by
    rw [hp] at hlayout ⊢
    exact ErofsWriter.planEntry_chunkBits hlayout
  have hpos : 0 < w.blockSize := h.blockSize ▸ img.blockSize_pos
  have hcut : w.entryChunkSize p.chunkBits / w.blockSize = Image.blocksPerChunk ino := by
    rw [ErofsWriter.entryChunkSize, Nat.mul_div_cancel_left _ hpos, hper]
  unfold ErofsWriter.writeChunkIndexes
  rw [size_withTail, hcut]
  refine ⟨length_writeIndexes, ?_⟩
  intro b hb
  have hchunk : b / Image.blocksPerChunk ino < w.chunkCount p.chunkBits e.size := by
    have hlt : b / Image.blocksPerChunk ino < img.chunkCount ino := by
      rw [← h.blockSize, ← hsize] at hb
      rw [Image.chunkCount, if_neg (by omega)]
      exact Image.chunk_of_block hb
    rw [← hsize, Image.chunkCount_written h.blockSize hper] at hcount ⊢
    omega
  have hin : InRun (e.withTail tailAddr).chunks 0 := fun c hc =>
    (hruns c (List.mem_of_mem_head? hc)).count_pos
  rw [Image.blockOfMap_eq hindexed, Image.indexEntry_writeIndexes h hchunk hruns hin, Nat.zero_add,
    htail]
  cases hcont : e.contiguous with
  | true => exact (hone hcont).join_getElem? hb tail
  | false =>
    -- chunks of one block: each block has an entry of its own
    have hzero : w.entryChunkBits p.chunkBits = 0 := by
      rw [hbits]
      exact ErofsWriter.entryChunkBits_of_scattered hw hcont _
    rw [hper, hzero, Nat.pow_zero, Nat.div_one, Nat.mul_one, Nat.mod_one]
    exact Option.map_id'

/-- A file of a block of the image and a tail of two bytes. -/
def tailEntry : ErofsEntry :=
  { mode := Mode.reg, nlink := 1, size := 514, name := [102], path := [], chunks := [⟨3, 1, 0⟩]
    tail := [1, 2] }

/-- A writer of 512-byte blocks, with no device besides the image. -/
def tailWriter : ErofsWriter := { blockSize := 512 }

/-- The image it writes. -/
def tailImage : Image where
  sb := { blkSizeBits := 9, rootNid := 0, blocks := 0, metaBlkAddr := 0 }
  size := 0

/-- The file's inode in the image. -/
def tailInode : Inode where
  nid := 0
  icsize := 32
  inodeLayout := .chunkBased
  inodeData := 0x20
  size := 514
  mode := 0
  rawMode := Mode.reg

/-- With its tail in block 9, the file is blocks 3 and 9. -/
theorem tailEntry_decodes :
    (tailWriter.writeChunkIndexes (tailWriter.planEntry tailEntry 0 0).1.chunkBits
        (tailEntry.withTail 9)).length =
      tailWriter.chunkCount (tailWriter.planEntry tailEntry 0 0).1.chunkBits 514 * 8 ∧
    ∀ b, b * 512 < 514 →
      tailImage.blockOfMap tailInode
          (tailWriter.writeChunkIndexes (tailWriter.planEntry tailEntry 0 0).1.chunkBits
            (tailEntry.withTail 9)) b =
        ((expand [⟨3, 1, 0⟩, ⟨9, 1, 0⟩])[b]?).join := by
  have hreads : tailImage.ReadsFrom tailWriter := by constructor <;> decide
  have hruns : ∀ c ∈ (tailEntry.withTail 9).chunks, c.Mappable tailWriter.devices.length := by
    intro c hc
    have hmem : c ∈ ([⟨3, 1, 0⟩, ⟨9, 1, 0⟩] : List Chunk) := hc
    obtain rfl | rfl : c = ⟨3, 1, 0⟩ ∨ c = ⟨9, 1, 0⟩ := by simpa using hmem
    · exact ⟨by decide, by decide, .inr (by decide)⟩
    · exact ⟨by decide, by decide, .inr (by decide)⟩
  have hdata : tailInode.inodeData =
      tailWriter.inodeData tailEntry (tailWriter.planEntry tailEntry 0 0).1 0 := by decide
  exact chunkMap_decodes hreads rfl rfl (by decide) rfl hdata hruns
    (fun h => absurd h (by decide)) (by decide)

end

end Erofs
