import Erofs.Reader.Supplied
import Erofs.Writer.Entries

/-!
# Chunk-based files of a written image

A chunk-based file has its data elsewhere: on the devices, where the runs of the entry say, and its
tail, if it has one, in a block of the image.  The image has only the map.  If the bytes of the file
stand where the runs put them, reading it gives these bytes, with the tail behind.

The main results:

* `loadBlock_chunked` — a block of the file is loaded from where the runs have it;
* `backs_withTail` — the tail is one more block, in the image;
* `files_delivered` — every regular file of a written image is delivered as it was, flat or
  chunk-based, by `Read` calls of any lengths and `WriteTo` after them.
-/

namespace Erofs

open GoPath LittleEndian Oracle

/-! ## Bytes where runs put them -/

/-- A block of a file stands at its place: zeros at a hole, and on the device otherwise. -/
def BlockStands (c : ℕ → Bytes) (bs : ℕ) (block : Bytes) : Option (ℕ × ℕ) → Prop
  | none => ∀ x ∈ block, x = nulByte
  | some p => HasAt (c p.1) (p.2 * bs) block

/-- The bytes of a file stand where its layout puts them. -/
def Backs (c : ℕ → Bytes) (bs : ℕ) (places : List (Option (ℕ × ℕ))) (content : Bytes) : Prop :=
  ∀ b, b * bs < content.length →
    BlockStands c bs ((content.drop (b * bs)).take bs) (places[b]?).join

/-- The data of a chunk-based entry: runs the format can name, on devices large enough as they are
declared, where the bytes `body` of the file stand; a tail begins behind whole blocks. -/
structure ErofsWriter.Backed (w : ErofsWriter) (c : ℕ → Bytes) (e : ErofsEntry) (body : Bytes) :
    Prop where
  runs : ∀ r ∈ e.chunks, r.Mappable w.devices.length
  one : e.contiguous = true → OneExtent w.blockSize e.size e.chunks
  declared : ∀ b dev blk : ℕ, (expand e.chunks)[b]? = some (some (dev, blk)) → 0 < dev →
    ∀ n, w.devices[dev - 1]? = some n → n = 0 ∨ blk < n
  stands : Backs c w.blockSize (expand e.chunks) body
  size : body.length + e.tail.length = e.size
  full : e.tail ≠ [] → body.length = (expand e.chunks).length * w.blockSize

section Chunked

variable {w : ErofsWriter} {xs : List (Planned × ErofsDir)} {c : ℕ → Bytes} {img : Image}
  {a : Assigned} {ino : Inode} {name body content : Bytes} {sizes : ℕ → Option Int} {pos : ℕ}

/-! ## The image -/

/-- The devices of a written image are readers of their own. -/
theorem separate_written (h : w.WrittenAs xs c img) : img.Separate := by
  refine ⟨fun d hd => ?_, h.findMapped⟩
  obtain ⟨sizes, hopens⟩ := h.opens
  rw [hopens.devices] at hd
  obtain ⟨i, hi, rfl⟩ := List.mem_mapIdx.1 hd
  rfl

/-! ## The map in the image -/

/-- The reader's offset of the chunk map is where the writer has put it. -/
theorem chunkMapStart_written (h : w.WrittenAs xs c img) (ha : a ∈ w.assigned xs)
    (hlay : a.plan.layout = .chunkBased) (hf : w.Finds img c a name ino)
    (hindexed : ino.chunkIndexed = true) (hne : a.plan.trailingSize ≠ 0) :
    img.chunkMapStart ino =
      ((img.inodeStart a.plan.nid + a.plan.headerSize + a.plan.chunkPad : ℕ) : Int) := by
  obtain ⟨cur, hslot⟩ := h.slot ha
  have haligned := hslot.aligned hlay hne
  have hpad := hslot.padLt
  have hend := h.inode_end ha
  have himage := h.length_le
  have hoffset : img.inodeStart ino.nid + ino.flatDataOffset =
      img.inodeStart a.plan.nid + a.plan.headerSize := by
    rw [hf.back.trailing, hf.nid, Plan.headerSize]
  have haddr : img.trailingAddr ino =
      ((img.inodeStart a.plan.nid + a.plan.headerSize : ℕ) : Int) := by
    rw [Image.trailingAddr, hoffset]
    refine int64_of (Int.natCast_nonneg _) ?_
    rw [maxInt64]
    generalize img.inodeStart a.plan.nid + a.plan.headerSize = base at hend ⊢
    omega
  have height : img.inodeStart a.plan.nid % 8 = 0 := by
    have hbits : 9 ≤ img.sb.blkSizeBits := by
      have hlo := h.prepared.sized.lo
      rw [← h.blockSize] at hlo
      exact (Nat.pow_le_pow_iff_right (by decide : 1 < 2)).1 hlo
    obtain ⟨k, hk⟩ : 8 ∣ img.blockSize := Nat.pow_dvd_pow 2 (by omega : 3 ≤ img.sb.blkSizeBits)
    have hmeta : img.metaStartPos % 8 = 0 := by
      rw [Image.metaStartPos, hk, ← Nat.mul_assoc, Nat.mul_right_comm, Nat.mul_mod_left]
    rw [Image.inodeStart, Disk.sizeInodeCompact]
    omega
  unfold Image.chunkMapStart
  rw [haddr]
  clear haddr hoffset
  generalize a.plan.headerSize = header at *
  generalize img.inodeStart a.plan.nid = start at *
  dsimp only
  split_ifs with hround
  · have hsum : ((start + header : ℕ) : Int) + 7 = ((start + header + 7 : ℕ) : Int) := by
      push_cast
      ring
    have hint : int64 ((start + header : ℕ) + 7 : Int) = ((start + header + 7 : ℕ) : Int) := by
      rw [hsum]
      refine int64_of (Int.natCast_nonneg _) ?_
      rw [maxInt64]
      omega
    rw [hint]
    omega
  · have : ((start + header : ℕ) : Int) % 8 = 0 := by
      by_contra hmod
      exact hround ⟨hindexed, hmod⟩
    omega

/-- The format word of a map that was written has only bits the reader knows. -/
theorem chunkFormat_supported (h : w.WrittenAs xs c img) (ha : a ∈ w.assigned xs)
    (hlay : a.plan.layout = .chunkBased) (hf : w.Finds img c a name ino) :
    ino.chunkUnsupported = false := by
  obtain ⟨-, -, -, off, hplan⟩ := h.entry ha
  have hreg : a.planned.entry.mode.typ = Mode.reg := ErofsWriter.reg_of_chunkBased (hplan ▸ hlay)
  have hle : w.entryChunkBits a.plan.chunkBits ≤ 31 := by
    rw [hplan]
    exact ErofsWriter.entryChunkBits_le h.chunkBits _
  rw [Inode.chunkUnsupported, Inode.chunkFormat, hf.data, ErofsWriter.inodeData, if_pos hreg,
    if_pos hlay]
  generalize w.entryChunkBits a.plan.chunkBits = k at hle
  interval_cases k <;> rfl

theorem length_map (a : Assigned) : (w.writeChunkIndexes a.plan.chunkBits a.entry).length =
    w.chunkCount a.plan.chunkBits a.planned.entry.size * 8 := by
  rw [ErofsWriter.writeChunkIndexes, length_writeIndexes, size_entry]

/-- The map is in the image where the reader looks for it. -/
theorem hasAt_map (h : w.WrittenAs xs c img) (ha : a ∈ w.assigned xs)
    (hlay : a.plan.layout = .chunkBased) (hf : w.Finds img c a name ino)
    (hindexed : ino.chunkIndexed = true)
    (hpos : 0 < w.chunkCount a.plan.chunkBits a.planned.entry.size) :
    ∃ start : ℕ, img.chunkMapStart ino = start ∧
      HasAt (c 0) start (w.writeChunkIndexes a.plan.chunkBits a.entry) := by
  obtain ⟨hready, hmade, -⟩ := h.entry ha
  have hsize := trailingSize_chunkBased hmade hlay
  refine ⟨_, chunkMapStart_written h ha hlay hf hindexed ?_, ?_⟩
  · change a.planned.plan.trailingSize ≠ 0
    change 0 < w.chunkCount a.planned.plan.chunkBits a.planned.entry.size at hpos
    omega
  · have htrailing := (h.hasAt_inode ha).right
    rw [length_inodeHeader hready hmade, ErofsWriter.trailing, if_pos hlay] at htrailing
    have hat := htrailing.right
    rwa [List.length_replicate] at hat

/-- The entry the reader finds for a chunk is that of the map that was written. -/
theorem entry_written (h : w.WrittenAs xs c img) (ha : a ∈ w.assigned xs)
    (hlay : a.plan.layout = .chunkBased) (hf : w.Finds img c a name ino)
    (hindexed : ino.chunkIndexed = true) {cn : ℕ}
    (hcn : cn < w.chunkCount a.plan.chunkBits a.planned.entry.size) :
    0 ≤ img.entryPos ino cn ∧ img.entryPos ino cn + 8 ≤ ((c 0).length : Int) ∧
      held (c 0) (img.entryPos ino cn).toNat 8 =
        ((w.writeChunkIndexes a.plan.chunkBits a.entry).drop (cn * 8)).take 8 := by
  obtain ⟨start, hstart, hat⟩ := hasAt_map h ha hlay hf hindexed (by omega)
  have hentry : HasAt (c 0) (start + cn * 8)
      (((w.writeChunkIndexes a.plan.chunkBits a.entry).drop (cn * 8)).take 8) :=
    hat.within (List.take_prefix _ _)
  have hlen :
      (((w.writeChunkIndexes a.plan.chunkBits a.entry).drop (cn * 8)).take 8).length = 8 := by
    rw [List.length_take, List.length_drop, length_map]
    omega
  have hend := hentry.end_le (List.ne_nil_of_length_pos (by omega))
  have htake := hentry.take_drop
  rw [hlen] at hend htake
  have himage := h.length_le
  have hunit : Image.chunkUnit ino = 8 := if_pos hindexed
  rw [Image.entryPos, hstart, hunit, ← Nat.cast_add]
  have hpos : int64 ((start + cn * 8 : ℕ) : Int) = (start + cn * 8 : ℕ) := by
    refine int64_of (Int.natCast_nonneg _) ?_
    rw [maxInt64]
    omega
  rw [hpos, Int.toNat_natCast]
  exact ⟨by omega, by omega, htake⟩

/-- The map that was written has every block of the file where the runs have it. -/
theorem blockOfMap_written (h : w.WrittenAs xs c img) (ha : a ∈ w.assigned xs)
    (hlay : a.plan.layout = .chunkBased) (hf : w.Finds img c a name ino)
    (hruns : ∀ r ∈ a.entry.chunks, r.Mappable w.devices.length)
    (hone : a.planned.entry.contiguous = true →
      OneExtent w.blockSize a.planned.entry.size a.planned.entry.chunks)
    (hcount : w.chunkCount a.plan.chunkBits a.planned.entry.size ≤ maxChunkIndexEntries)
    (hpos : pos < ino.size) :
    pos / 2 ^ img.chunkBits ino < w.chunkCount a.plan.chunkBits a.planned.entry.size ∧
    img.blockOfMap ino (w.writeChunkIndexes a.plan.chunkBits a.entry) (pos / img.blockSize) =
      ((expand a.entry.chunks)[pos / img.blockSize]?).join := by
  obtain ⟨hready, hmade, -, off, hplan⟩ := h.entry ha
  obtain ⟨sizes, hopens⟩ := h.opens
  have hreads := hopens.readsFrom h.prepared
  obtain ⟨hindexed, -, hper⟩ := Image.chunkFormat_written h.chunkBits hplan hlay hf.data
  have hreg : a.planned.entry.mode.typ = Mode.reg := ErofsWriter.reg_of_chunkBased (hplan ▸ hlay)
  have hsize : ino.size = a.planned.entry.size := by
    rw [hf.back.size, inodeFileSize, hreg, if_neg (by decide), if_neg (by decide)]
  have hblock : pos / img.blockSize * img.blockSize < ino.size :=
    lt_of_le_of_lt (Nat.div_mul_le_self _ _) hpos
  have hchunk : pos / img.blockSize / Image.blocksPerChunk ino <
      w.chunkCount a.plan.chunkBits a.planned.entry.size := by
    have hlt : pos / img.blockSize / Image.blocksPerChunk ino < img.chunkCount ino := by
      rw [Image.chunkCount, if_neg (by omega)]
      exact Image.chunk_of_block hblock
    rw [← hsize, Image.chunkCount_written h.blockSize hper] at hcount ⊢
    omega
  refine ⟨by rwa [Image.chunk_of_pos], ?_⟩
  have hcut : w.entryChunkSize a.plan.chunkBits / w.blockSize = Image.blocksPerChunk ino := by
    rw [ErofsWriter.entryChunkSize, Nat.mul_div_cancel_left _ (h.blockSize ▸ img.blockSize_pos),
      hper]
  have hin : InRun a.entry.chunks 0 := fun r hr =>
    (hruns r (List.mem_of_mem_head? hr)).count_pos
  obtain ⟨tail, htail⟩ := chunks_withTail a.planned.entry a.tailBlkAddr
  rw [ErofsWriter.writeChunkIndexes, size_entry, hcut, Image.blockOfMap_eq hindexed,
    Image.indexEntry_writeIndexes hreads hchunk hruns hin, Nat.zero_add, Assigned.entry, htail]
  cases hcont : a.planned.entry.contiguous with
  | true =>
    rw [hsize, h.blockSize] at hblock
    rw [h.blockSize]
    exact (hone hcont).join_getElem? hblock tail
  | false =>
    -- chunks of one block: each block has an entry of its own
    have hzero : w.entryChunkBits a.plan.chunkBits = 0 := by
      rw [hplan] at hlay ⊢
      rw [ErofsWriter.planEntry_chunkBits hlay]
      exact ErofsWriter.entryChunkBits_of_scattered h.chunkBits hcont _
    rw [hper, hzero, Nat.pow_zero, Nat.div_one, Nat.mul_one, Nat.mod_one]
    exact Option.map_id'

/-! ## Blocks -/

/-- A block of a chunk-based file is where the runs have it: zeros at a hole, and on a device what
it holds there. -/
theorem loadBlock_chunked (h : w.WrittenAs xs c img) (ha : a ∈ w.assigned xs)
    (hlay : a.plan.layout = .chunkBased) (hf : w.Finds img c a name ino)
    (hruns : ∀ r ∈ a.entry.chunks, r.Mappable w.devices.length)
    (hone : a.planned.entry.contiguous = true →
      OneExtent w.blockSize a.planned.entry.size a.planned.entry.chunks)
    (hcount : w.chunkCount a.plan.chunkBits a.planned.entry.size ≤ maxChunkIndexEntries)
    (hpos : pos < ino.size) :
    (img.loadBlock ino pos).run (holding c) =
      (((expand a.entry.chunks)[pos / img.blockSize]?).join.elim
        (.done (.ok (Image.holeBlock (pos % img.blockSize : ℕ) (img.blockEnd ino.size
          (pos / img.blockSize) (calculateBlocks img.sb.blkSizeBits ino.size)))))
        fun p => img.loadChunkData ino p.1 (p.2 * img.blockSize : ℕ) (pos % img.blockSize : ℕ)
          (img.blockEnd ino.size (pos / img.blockSize)
            (calculateBlocks img.sb.blkSizeBits ino.size)) : Fallible Bytes).run (holding c) := by
  obtain ⟨-, -, -, off, hplan⟩ := h.entry ha
  obtain ⟨hindexed, h48, -⟩ := Image.chunkFormat_written h.chunkBits hplan hlay hf.data
  obtain ⟨hcn, hmap⟩ := blockOfMap_written h ha hlay hf hruns hone hcount hpos
  obtain ⟨hnonneg, hend, hentry⟩ := entry_written h ha hlay hf hindexed hcn
  have hbn : pos / img.blockSize < calculateBlocks img.sb.blkSizeBits ino.size :=
    Image.lt_calculateBlocks_iff.2 (lt_of_le_of_lt (Nat.div_mul_le_self _ _) hpos)
  have hunit : Image.chunkUnit ino = 8 := if_pos hindexed
  have hbits : img.sb.blkSizeBits ≤ 16 := by
    have hhi := h.prepared.sized.hi
    rw [← h.blockSize] at hhi
    exact (Nat.pow_le_pow_iff_right (by decide : 1 < 2)).1 hhi
  have hread : Image.entryOf 8 (img.entryPos ino (pos / 2 ^ img.chunkBits ino))
      ((readerAt 0 (img.entryPos ino (pos / 2 ^ img.chunkBits ino)) 8).run (holding c)) =
        .ok (((w.writeChunkIndexes a.plan.chunkBits a.entry).drop
          (pos / 2 ^ img.chunkBits ino * 8)).take 8) :=
    (Image.entryOf_holding (by decide)).2 ⟨by omega, hentry.symm⟩
  have hload := img.loadFromEntry_eq hbits (w.writeChunkIndexes a.plan.chunkBits a.entry) pos
    (calculateBlocks img.sb.blkSizeBits ino.size) (Image.boundsOk_window hpos)
  rw [hunit, hmap] at hload
  unfold Image.loadBlock
  dsimp only
  rw [if_neg (not_le.2 hbn), hf.back.layout, hlay]
  dsimp only
  unfold Image.loadChunk
  dsimp only
  rw [h48, chunkFormat_supported h ha hlay hf, if_neg Bool.false_ne_true,
    if_neg Bool.false_ne_true, if_neg (not_le.2 (img.chunk_lt hpos)), Prog.exec_bind,
    Prog.run_bind, Prog.run_done, hunit, hread]
  dsimp only
  rw [hload]

/-- What is left of the block that `pos` is in. -/
theorem drop_block (hlen : content.length = ino.size) (pos : ℕ) :
    ((content.drop (pos / img.blockSize * img.blockSize)).take img.blockSize).drop
        (pos % img.blockSize) = (content.drop pos).take (img.blockLen ino.size pos) := by
  have htake : (content.drop pos).take (img.blockLen ino.size pos) =
      (content.drop pos).take (img.blockSize - pos % img.blockSize) := by
    rw [Image.blockLen, ← hlen, ← List.length_drop, ← List.take_take, List.take_length]
  rw [htake, List.drop_take, List.drop_drop, Nat.div_add_mod']

/-- A range of a device that ends with what the device holds, and with what is declared of it, is
inside its bounds. -/
theorem boundOnDevice_written (h : w.WrittenAs xs c img)
    (hopens : w.Opens xs (c 0).length sizes img)
    (hsizes : ∀ i, sizes i = none ∨ sizes i = some ((c i).length : Int)) {dev off n : ℕ}
    (hdev : dev ≤ w.devices.length) (hend : off + n ≤ (c dev).length) (hmax : off + n ≤ 2 ^ 62)
    (hdecl : 0 < dev → ∀ m, w.devices[dev - 1]? = some m → m = 0 ∨ off + n ≤ m * w.blockSize) :
    img.boundOnDevice dev off n = .ok () := by
  unfold Image.boundOnDevice
  by_cases hzero : dev = 0
  · subst hzero
    rw [if_pos rfl]
    exact h.checkImageRange_ok hend
  have hlt : dev - 1 < w.devices.length := by omega
  have hdevice : img.devices[dev - 1]? =
      some (openedDevice sizes (dev - 1) w.devices[dev - 1]) := by
    rw [hopens.devices, List.getElem?_mapIdx, List.getElem?_eq_getElem hlt, Option.map_some]
  have hdeclared := hdecl (by omega) _ (List.getElem?_eq_getElem hlt)
  have hsucc : dev - 1 + 1 = dev := by omega
  rw [if_neg hzero, hdevice]
  dsimp only [openedDevice]
  rw [hsucc, Image.mappedLength, h.blockSize, if_neg (by rw [maxInt64]; omega)]
  dsimp only
  rcases hsizes dev with hnone | hsome
  · rw [hnone, Option.getD_none, if_neg (lt_irrefl _), if_neg]
    generalize w.devices[dev - 1] * w.blockSize = room at *
    omega
  · rw [hsome, Option.getD_some]
    split_ifs <;> first | rfl | omega

theorem loadChunkData_stands (h : w.WrittenAs xs c img)
    (hopens : w.Opens xs (c 0).length sizes img)
    (hsizes : ∀ i, sizes i = none ∨ sizes i = some ((c i).length : Int)) {dev blk : ℕ}
    (hlen : content.length = ino.size) (hpos : pos < ino.size) (hdev : dev ≤ w.devices.length)
    (hblk : blk < 2 ^ 32)
    (hdecl : 0 < dev → ∀ m, w.devices[dev - 1]? = some m → m = 0 ∨ blk < m)
    (hat : HasAt (c dev) (blk * img.blockSize)
      ((content.drop (pos / img.blockSize * img.blockSize)).take img.blockSize)) :
    (img.loadChunkData ino dev (blk * img.blockSize : ℕ) (pos % img.blockSize : ℕ)
        (img.blockEnd ino.size (pos / img.blockSize)
          (calculateBlocks img.sb.blkSizeBits ino.size))).run (holding c) =
      .ok ((content.drop pos).take (img.blockLen ino.size pos)) := by
  have hsep := separate_written h
  have hbn : pos / img.blockSize < calculateBlocks img.sb.blkSizeBits ino.size :=
    Image.lt_calculateBlocks_iff.2 (lt_of_le_of_lt (Nat.div_mul_le_self _ _) hpos)
  have hmod := Nat.mod_lt pos img.blockSize_pos
  have hpos' := img.blockLen_pos hpos
  have hle : pos % img.blockSize + img.blockLen ino.size pos ≤ img.blockSize := by
    unfold Image.blockLen
    omega
  have hwindow : HasAt (c dev) (blk * img.blockSize + pos % img.blockSize)
      ((content.drop pos).take (img.blockLen ino.size pos)) := by
    refine hat.within ?_
    unfold HasAt
    rw [drop_block hlen]
  have hfull : ((content.drop pos).take (img.blockLen ino.size pos)).length =
      img.blockLen ino.size pos := by
    have hin := img.blockLen_le hpos
    rw [List.length_take, List.length_drop, hlen]
    omega
  have hend := hwindow.end_le (List.ne_nil_of_length_pos (by omega))
  have htake := hwindow.take_drop
  rw [hfull] at hend htake
  have hbound : blk * img.blockSize + img.blockSize ≤ 2 ^ 62 := by
    have hhi := h.prepared.sized.hi
    rw [← h.blockSize] at hhi
    have hmul : blk * img.blockSize ≤ 2 ^ 32 * 65536 := Nat.mul_le_mul hblk.le hhi
    omega
  have hlocate : img.locate dev (blk * img.blockSize : ℕ) =
      .ok (dev, ((blk * img.blockSize : ℕ) : Int)) := by
    unfold Image.locate
    have hdevices : img.devices.length = w.devices.length := by
      rw [hopens.devices, List.length_mapIdx]
    by_cases hid : 0 < dev
    · rw [if_pos hid, if_neg (by omega)]
    · obtain rfl : dev = 0 := by omega
      rw [if_neg hid, h.findMapped]
      dsimp only
      rw [h.size, if_neg]
      generalize blk * img.blockSize = start at *
      omega
  have hrange := boundOnDevice_written h hopens hsizes hdev hend
    (by generalize blk * img.blockSize = start at *; omega) fun hd m hm => by
      refine (hdecl hd m hm).imp_right fun hlt => ?_
      rw [← h.blockSize]
      have hmul : (blk + 1) * img.blockSize ≤ m * img.blockSize := Nat.mul_le_mul_right _ hlt
      rw [Nat.succ_mul] at hmul
      omega
  unfold Image.loadChunkData
  rw [hlocate]
  dsimp only
  rw [img.blockEnd_sub_offset hbn, ← Nat.cast_add, hrange]
  dsimp only
  refine Image.readWindow_iff.2 ⟨?_, hfull⟩
  rw [hsep.deviceReader_eq, holding_held]
  exact htake

/-! ## The content -/

/-- The runs of a file with its tail can be named by the format. -/
theorem mappable_withTail (h : w.WrittenAs xs c img) (ha : a ∈ w.assigned xs)
    (hb : w.Backed c a.planned.entry body) :
    ∀ r ∈ a.entry.chunks, r.Mappable w.devices.length := by
  intro r hr
  unfold Assigned.entry ErofsEntry.withTail at hr
  split_ifs at hr
  · exact hb.runs r hr
  · rcases List.mem_append.1 hr with hr | hr
    · exact hb.runs r hr
    · rw [List.mem_singleton.1 hr]
      have hlt := (h.addr_lt ha).2
      exact ⟨Nat.one_pos, Nat.zero_le _, .inr (by dsimp only; omega)⟩

/-- A place of the layout is a block of one of the runs. -/
theorem place_of_mappable {cs : List Chunk} {b dev blk devices : ℕ}
    (hruns : ∀ r ∈ cs, r.Mappable devices) (hb : (expand cs)[b]? = some (some (dev, blk))) :
    dev ≤ devices ∧ blk < 2 ^ 32 := by
  obtain ⟨r, hr, hmem⟩ := List.mem_flatMap.1 (List.mem_of_getElem? hb)
  obtain ⟨k, hk, heq⟩ := List.mem_map.1 hmem
  have hlt := List.mem_range.1 hk
  have hmap := hruns r hr
  unfold blockFrom at heq
  split_ifs at heq with hnull
  cases heq
  have hlast := hmap.block.resolve_left hnull
  exact ⟨hmap.device_le, by omega⟩

/-- The tail is one more block of the file, in the image. -/
theorem backs_withTail (h : w.WrittenAs xs c img) (ha : a ∈ w.assigned xs)
    (hb : w.Backed c a.planned.entry body) :
    Backs c w.blockSize (expand a.entry.chunks) (body ++ a.planned.entry.tail) := by
  by_cases htail : a.planned.entry.tail = []
  · rw [Assigned.entry, ErofsEntry.withTail, if_pos htail, htail, List.append_nil]
    exact hb.stands
  obtain ⟨hready, -⟩ := h.entry ha
  have hfull := hb.full htail
  have hshort := hready.tail
  have hchunks : a.entry.chunks = a.planned.entry.chunks ++ [⟨a.tailBlkAddr, 1, 0⟩] := by
    rw [Assigned.entry, ErofsEntry.withTail, if_neg htail]
  have hplace : expand [(⟨a.tailBlkAddr, 1, 0⟩ : Chunk)] = [some (0, a.tailBlkAddr)] := by
    have hlt := (h.addr_lt ha).2
    have hne : a.tailBlkAddr ≠ nullPhysicalBlock := by
      rw [nullPhysicalBlock]
      omega
    simp [blockFrom, hne]
  rw [hchunks, expand_append, hplace]
  intro b hlt
  rw [List.length_append, hfull] at hlt
  rcases Nat.lt_trichotomy b (expand a.planned.entry.chunks).length with hbefore | heq | hafter
  · -- a block before the tail is one of the body
    have hend : b * w.blockSize + w.blockSize ≤ body.length := by
      rw [hfull, ← Nat.succ_mul]
      exact Nat.mul_le_mul_right _ hbefore
    have hblock : ((body ++ a.planned.entry.tail).drop (b * w.blockSize)).take w.blockSize =
        (body.drop (b * w.blockSize)).take w.blockSize := by
      rw [List.drop_append_of_le_length (by omega),
        List.take_append_of_le_length (by rw [List.length_drop]; omega)]
    have hlo := h.prepared.sized.lo
    rw [List.getElem?_append_left hbefore, hblock]
    exact hb.stands b (by omega)
  · have hblock : ((body ++ a.planned.entry.tail).drop (b * w.blockSize)).take w.blockSize =
        a.planned.entry.tail := by
      rw [heq, ← hfull, List.drop_left, List.take_of_length_le hshort]
    rw [hblock, heq, List.getElem?_append_right le_rfl, Nat.sub_self]
    exact (h.laid.data a ha).tail htail
  · have hmul : ((expand a.planned.entry.chunks).length + 1) * w.blockSize ≤ b * w.blockSize :=
      Nat.mul_le_mul_right _ hafter
    rw [Nat.succ_mul] at hmul
    omega

/-- The devices are as large as declared also for the blocks behind the runs. -/
theorem declared_withTail (hb : w.Backed c a.planned.entry body) {b dev blk : ℕ}
    (hplace : (expand a.entry.chunks)[b]? = some (some (dev, blk))) (hdev : 0 < dev) :
    ∀ n, w.devices[dev - 1]? = some n → n = 0 ∨ blk < n := by
  unfold Assigned.entry ErofsEntry.withTail at hplace
  split_ifs at hplace
  · exact hb.declared b dev blk hplace hdev
  · dsimp only at hplace
    rw [expand_append] at hplace
    rcases List.mem_append.1 (List.mem_of_getElem? hplace) with hleft | hright
    · obtain ⟨b', hb'⟩ := List.mem_iff_getElem?.1 hleft
      exact hb.declared b' dev blk hb' hdev
    · obtain ⟨r, hr, hmem⟩ := List.mem_flatMap.1 hright
      rw [List.mem_singleton.1 hr] at hmem
      obtain ⟨k, -, heq⟩ := List.mem_map.1 hmem
      unfold blockFrom at heq
      split_ifs at heq
      cases heq
      exact absurd hdev (Nat.lt_irrefl 0)

/-- **Chunk-based files.**  If the bytes of the file stand where its runs put them, the image has
the file, with the tail behind them. -/
theorem supplies_chunked (h : w.WrittenAs xs c img) (hopens : w.Opens xs (c 0).length sizes img)
    (hsizes : ∀ i, sizes i = none ∨ sizes i = some ((c i).length : Int))
    (ha : a ∈ w.assigned xs) (hlay : a.plan.layout = .chunkBased)
    (hf : w.Finds img c a name ino) (hb : w.Backed c a.planned.entry body) :
    img.Supplies c ino (body ++ a.planned.entry.tail) := by
  obtain ⟨-, -, -, off, hplan⟩ := h.entry ha
  have hreg : a.planned.entry.mode.typ = Mode.reg := ErofsWriter.reg_of_chunkBased (hplan ▸ hlay)
  have hlen : (body ++ a.planned.entry.tail).length = ino.size := by
    rw [List.length_append, hb.size, hf.back.size, inodeFileSize, hreg, if_neg (by decide),
      if_neg (by decide)]
  have hruns := mappable_withTail h ha hb
  have hbacks := backs_withTail h ha hb
  have hcount : w.chunkCount a.plan.chunkBits a.planned.entry.size ≤ maxChunkIndexEntries :=
    (h.accepted ha).chunkCount hlay
  refine Image.supplies_of_blocks (separate_written h) (hf.back.layout.trans hlay) hlen
    fun pos hpos => ?_
  have hstands := hbacks (pos / w.blockSize) (by
    rw [hlen]
    exact lt_of_le_of_lt (Nat.div_mul_le_self _ _) hpos)
  rw [← h.blockSize] at hstands
  rw [loadBlock_chunked h ha hlay hf hruns hb.one hcount hpos]
  have hbn : pos / img.blockSize < calculateBlocks img.sb.blkSizeBits ino.size :=
    Image.lt_calculateBlocks_iff.2 (lt_of_le_of_lt (Nat.div_mul_le_self _ _) hpos)
  cases hplace : ((expand a.entry.chunks)[pos / img.blockSize]?).join with
  | none =>
    rw [hplace] at hstands
    have hle := img.blockLen_le hpos
    have hfull : (((body ++ a.planned.entry.tail).drop pos).take
        (img.blockLen ino.size pos)).length = img.blockLen ino.size pos := by
      rw [List.length_take, List.length_drop, hlen]
      omega
    have hzeros : ((body ++ a.planned.entry.tail).drop pos).take (img.blockLen ino.size pos) =
        List.replicate (img.blockLen ino.size pos) nulByte := by
      refine List.eq_replicate_iff.2 ⟨hfull, fun x hx => hstands x ?_⟩
      rw [← drop_block hlen] at hx
      exact List.mem_of_mem_drop hx
    rw [Option.elim_none, Prog.run_done, Image.holeBlock, img.blockEnd_sub_offset hbn, hzeros]
  | some p =>
    rw [hplace] at hstands
    have hsome : (expand a.entry.chunks)[pos / img.blockSize]? = some (some (p.1, p.2)) :=
      Option.join_eq_some_iff.1 hplace
    obtain ⟨hdev, hblk⟩ := place_of_mappable hruns hsome
    rw [Option.elim_some]
    exact loadChunkData_stands h hopens hsizes hlen hpos hdev hblk
      (fun hd => declared_withTail hb hsome hd) hstands

/-! ## Files -/

/-- The bytes of a regular file: of a flat one those of its reader, of a chunk-based one those that
stand where its runs put them, and its tail. -/
def ErofsWriter.FileContent (w : ErofsWriter) (c : ℕ → Bytes) (a : Assigned) (content : Bytes) :
    Prop :=
  if a.plan.layout = .chunkBased then
    ∃ body, w.Backed c a.planned.entry body ∧ content = body ++ a.planned.entry.tail
  else content = w.content a.planned a.dir

theorem supplies_file (h : w.WrittenAs xs c img) (hopens : w.Opens xs (c 0).length sizes img)
    (hsizes : ∀ i, sizes i = none ∨ sizes i = some ((c i).length : Int))
    (ha : a ∈ w.assigned xs) (hreg : a.planned.entry.mode.typ = Mode.reg)
    (hf : w.Finds img c a name ino) (hcontent : w.FileContent c a content) :
    img.Supplies c ino content := by
  unfold ErofsWriter.FileContent at hcontent
  by_cases hlay : a.plan.layout = .chunkBased
  · rw [if_pos hlay] at hcontent
    obtain ⟨body, hb, rfl⟩ := hcontent
    exact supplies_chunked h hopens hsizes ha hlay hf hb
  · rw [if_neg hlay] at hcontent
    obtain ⟨base, hkept⟩ := keptAt_written h ha (.inl hreg) hlay hf.nid hf.back
    rw [hcontent]
    exact hkept.supplies

/-- **Files.**  Whatever prepared entries `write` has serialized, a regular file of the image is
found at its nid and is delivered as it was, whether its data is in the image or on the devices: all
at once, or by `Read` calls of any lengths and `WriteTo` for what they leave. -/
theorem files_delivered {out out' : Out} (h : w.Prepared xs) (hne : xs ≠ [])
    (htime : w.buildTime < 2 ^ 64) (htimeNs : w.buildTimeNs < 2 ^ 32) (hbits : w.chunkBits = 0)
    (henc : ∀ q ∈ xs, q.1.entry.Encodable q.1.direntSize) (hok : w.write xs out = .ok out')
    (hnew : out.bytes = []) (hpos : out.pos = 0) (hc : c 0 = out'.bytes)
    (hsizes : ∀ i, sizes i = none ∨ sizes i = some ((c i).length : Int)) :
    ∃ img, (openImage w.devices.length sizes).run (holding c) = .ok img ∧
      ∀ a ∈ w.assigned xs, a.planned.entry.mode.typ = Mode.reg →
      ∀ content, w.FileContent c a content → ∀ name, ∃ ino, w.Finds img c a name ino ∧
        ∀ f : OpenFile, f.info = some ino → f.direct = none → f.offset = 0 →
          (img.readAll f ino.size).run (holding c) = .ok content ∧
          ∀ (sink : OpenFile.Sink) (ns : List ℕ), (∀ m b, (sink.write m b).2 = none) →
            (∀ n ∈ ns, 0 < n) →
            ∃ f' f'' err, (OpenFile.readUntil img f [] ns).run (holding c) =
                ⟨f', content.take ns.sum, err⟩ ∧
              (err = none ∨ err = some eofError ∧ content.length < ns.sum) ∧
              (f'.writeTo img sink).run (holding c) = ⟨f'', content.drop ns.sum, none⟩ := by
  have hlaid := write_laid h hok hnew hpos
  rw [← hc] at hlaid
  obtain ⟨_, hlimits, -⟩ := except_bind_ok hok
  obtain ⟨img, hopen, hopens⟩ := openImage_written h hlimits hne htime htimeNs hlaid (hsizes 0)
  have hwritten : w.WrittenAs xs c img := ⟨h, hlimits, hlaid, ⟨sizes, hopens⟩, hbits, henc⟩
  refine ⟨img, hopen, fun a ha hreg content hcontent name => ?_⟩
  obtain ⟨ino, hf⟩ := finds_written hwritten ha name
  have hsupplies := supplies_file hwritten hopens hsizes ha hreg hf hcontent
  refine ⟨ino, hf, fun f hinfo hd hoff => ?_⟩
  have hhandle : img.HandleOf c ino f := .opened hinfo hd
  exact ⟨hsupplies.readAll hhandle hoff, fun sink ns hall hns =>
    hsupplies.delivers hall hhandle hoff hns⟩

/-- The file of the set has one block, which stands at block 3 of the image, and a tail. -/
theorem tailTree_backed {image : Bytes} (hlen : 2048 ≤ image.length) :
    tailWriter.Backed (fun _ => image) tailEntry (held image 1536 512) := by
  have hheld : (held image 1536 512).length = 512 := by
    rw [length_held]
    omega
  have hplaces : expand tailEntry.chunks = [some (0, 3)] := by decide
  refine ⟨?_, fun hcont => absurd hcont (by decide), ?_, ?_, ?_, fun _ => ?_⟩
  · intro r hr
    have hmem : r ∈ ([⟨3, 1, 0⟩] : List Chunk) := hr
    rw [List.mem_singleton.1 hmem]
    exact ⟨by decide, by decide, .inr (by decide)⟩
  · intro b dev blk hb hdev
    rw [hplaces] at hb
    have hmem := List.mem_singleton.1 (List.mem_of_getElem? hb)
    cases hmem
    exact absurd hdev (Nat.lt_irrefl 0)
  · intro b hb
    have hbs : tailWriter.blockSize = 512 := rfl
    rw [hheld, hbs] at hb
    obtain rfl : b = 0 := by omega
    rw [hplaces, hbs, Nat.zero_mul, List.drop_zero, List.take_of_length_le hheld.le]
    exact List.take_prefix _ _
  · rw [hheld]
    rfl
  · rw [hheld, hplaces]
    rfl

/-- The file is delivered with its tail, in three pieces; with a buffer longer than what is left,
in two. -/
theorem tailTree_delivered :
    ∃ out' img ino, tailWriter.write tailTree {} = .ok out' ∧
      (openImage 0 fun _ => none).run (holding fun _ => out'.bytes) = .ok img ∧
      (img.readInfo [102] 3 0).run (holding fun _ => out'.bytes) = .ok ino ∧
      (img.readAll ⟨[102], 3, 0, 0, some ino, none⟩ ino.size).run (holding fun _ => out'.bytes) =
        .ok (held out'.bytes 1536 512 ++ [1, 2]) ∧
      (∃ f' f'', (OpenFile.readUntil img ⟨[102], 3, 0, 0, some ino, none⟩ [] [100, 412]).run
          (holding fun _ => out'.bytes) = ⟨f', held out'.bytes 1536 512, none⟩ ∧
        (f'.writeTo img ⟨fun _ b => (b.length, none), fun _ _ => le_rfl,
          fun _ _ hlt => absurd hlt (Nat.lt_irrefl _)⟩).run (holding fun _ => out'.bytes) =
          ⟨f'', [1, 2], none⟩) ∧
      ∃ f' err, (OpenFile.readUntil img ⟨[102], 3, 0, 0, some ino, none⟩ [] [100, 4096]).run
          (holding fun _ => out'.bytes) = ⟨f', held out'.bytes 1536 512 ++ [1, 2], err⟩ := by
  obtain ⟨out', hok⟩ := @write_never tailWriter tailTree {} tailTree_prepared (by decide)
    (by decide) fun _ => rfl
  obtain ⟨img, hopen, hfiles⟩ := @files_delivered tailWriter tailTree (fun _ => out'.bytes)
    (fun _ => none) {} out' tailTree_prepared (by decide) (by decide) (by decide) rfl
    tailTree_encodable hok rfl rfl rfl fun _ => .inl rfl
  have hlaid := write_laid tailTree_prepared hok rfl rfl
  have hlen : 2048 ≤ out'.bytes.length := by
    rw [hlaid.length]
    decide
  obtain ⟨a, ha, hentry, hnid, hlay⟩ : ∃ a ∈ tailWriter.assigned tailTree,
      a.planned.entry = tailEntry ∧ a.plan.nid = 3 ∧ a.plan.layout = .chunkBased :=
    ⟨(tailWriter.assigned tailTree)[1], List.getElem_mem (by decide), by decide, by decide,
      by decide⟩
  have hheld : (held out'.bytes 1536 512).length = 512 := by
    rw [length_held]
    omega
  obtain ⟨ino, hf, hread⟩ := hfiles a ha (by rw [hentry]; decide)
    (held out'.bytes 1536 512 ++ [1, 2]) (by
      unfold ErofsWriter.FileContent
      rw [if_pos hlay, hentry]
      exact ⟨_, tailTree_backed hlen, rfl⟩) [102]
  have hinfo := hf.read
  have hftype : a.ftype = 0 := by
    rw [Assigned.ftype, hentry]
    decide
  rw [hnid, hftype] at hinfo
  obtain ⟨hall, hcalls⟩ := hread ⟨[102], 3, 0, 0, some ino, none⟩ rfl rfl rfl
  have hcalls := fun ns => hcalls ⟨fun _ b => (b.length, none), fun _ _ => le_rfl,
    fun _ _ hlt => absurd hlt (Nat.lt_irrefl _)⟩ ns fun _ _ => rfl
  refine ⟨out', img, ino, hok, hopen, hinfo, hall, ?_, ?_⟩
  · obtain ⟨f', f'', err, huntil, herr, hrest⟩ := hcalls [100, 412] (by decide)
    have hsum : (held out'.bytes 1536 512).length = [100, 412].sum := hheld
    rw [List.take_left' hsum] at huntil
    rw [List.drop_left' hsum] at hrest
    obtain rfl : err = none := by
      refine herr.resolve_right fun hlt => ?_
      rw [List.length_append, hheld] at hlt
      exact absurd hlt.2 (by decide)
    exact ⟨f', f'', huntil, hrest⟩
  · obtain ⟨f', f'', err, huntil, -, -⟩ := hcalls [100, 4096] (by decide)
    rw [List.take_of_length_le (by rw [List.length_append, hheld]; decide)] at huntil
    exact ⟨f', err, huntil⟩

end Chunked

end Erofs
