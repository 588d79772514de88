import Erofs.Reader.Supplied
import Erofs.Writer.Superblock

/-!
# Reading a written image back

`Open` gives the reader an image and nothing else: from there on it finds an inode by its nid, and
data by what the inode says.  Here an image that `write` left is followed from that side.

The main results:

* `readInfo_written` — the inode of an entry is found at its nid, and is the entry's;
* `KeptAt.loadBlock`, `KeptAt.readWith`, `KeptAt.readAll` — what is read of data that is kept in one
  place of the image;
* `keptAt_written` — the data of an entry that is not chunk-based is.
-/

namespace Erofs

open GoPath LittleEndian Oracle

/-- The image `img`, whose reader holds `c 0`, is what `w` has written of the entries `xs`. -/
structure ErofsWriter.WrittenAs (w : ErofsWriter) (xs : List (Planned × ErofsDir)) (c : ℕ → Bytes)
    (img : Image) : Prop where
  prepared : w.Prepared xs
  limits : w.checkLimits (xs.map Prod.fst) = .ok ()
  laid : w.LaidOut xs (c 0)
  opens : ∃ sizes, w.Opens xs (c 0).length sizes img
  chunkBits : w.chunkBits = 0
  encodable : ∀ q ∈ xs, q.1.entry.Encodable q.1.direntSize

section WrittenAs

variable {w : ErofsWriter} {xs : List (Planned × ErofsDir)} {c : ℕ → Bytes} {img : Image}
  {a : Assigned} {name : Bytes} {ino : Inode}

namespace ErofsWriter.WrittenAs

variable (h : w.WrittenAs xs c img)

include h

theorem blockSize : img.blockSize = w.blockSize := by
  obtain ⟨sizes, hopens⟩ := h.opens
  exact blockSize_opened h.prepared.sized _ hopens.sb

theorem size : img.size = (c 0).length := by
  obtain ⟨sizes, hopens⟩ := h.opens
  exact hopens.size

/-- The image is far shorter than an `int64` can count. -/
theorem length_le : (c 0).length ≤ 2 ^ 48 := by
  have htotal := totalBlocks_bound h.prepared h.limits
  rw [h.laid.length]
  calc _ ≤ 2 ^ 32 * 65536 := Nat.mul_le_mul (by omega) h.prepared.sized.hi
    _ = 2 ^ 48 := by decide

theorem buildTimes : img.sb.buildTime = w.buildTime ∧ img.sb.buildTimeNs = w.buildTimeNs := by
  obtain ⟨sizes, hopens⟩ := h.opens
  have hreads := hopens.readsFrom h.prepared
  exact ⟨hreads.buildTime, hreads.buildTimeNs⟩

/-- No device is mapped into the image. -/
theorem findMapped (pa : Int) (k : ℕ) : img.findMapped pa k img.devices = none := by
  obtain ⟨sizes, hopens⟩ := h.opens
  have hzero : ∀ d ∈ img.devices, d.mappedBlkAddr = 0 := by
    rw [hopens.devices]
    intro d hd
    obtain ⟨i, hi, rfl⟩ := List.mem_mapIdx.1 hd
    rfl
  generalize img.devices = ds at hzero
  induction ds generalizing k with
  | nil => rfl
  | cons d ds ih =>
    have hmaps : img.mapsTo d pa = false := by
      rw [Image.mapsTo, hzero d List.mem_cons_self]
      rfl
    rw [Image.findMapped, hmaps]
    exact ih (k + 1) fun e he => hzero e (List.mem_cons_of_mem _ he)

theorem pair_mem (ha : a ∈ w.assigned xs) : (a.planned, a.dir) ∈ xs := by
  have hpairs := @assignedFrom_pairs w xs w.sbAreaBlocks
  rw [← (assigned_eq h.prepared h.limits).1] at hpairs
  rw [← hpairs]
  exact List.mem_map.2 ⟨a, ha, rfl⟩

/-- Each entry has passed the check of limits. -/
theorem accepted (ha : a ∈ w.assigned xs) : w.Accepted a.planned :=
  (checkLimits_ok h.limits).1 a.planned (List.mem_map.2 ⟨_, h.pair_mem ha, rfl⟩)

/-- Each entry with its addresses is one of those that were prepared. -/
theorem entry (ha : a ∈ w.assigned xs) : w.Ready a.planned a.dir ∧ w.Made a.planned ∧
    a.planned.entry.Encodable a.planned.direntSize ∧
    ∃ off, a.plan = (w.planEntry a.planned.entry a.planned.direntSize off).1 := by
  obtain ⟨hready, -⟩ := assigned_ready h.prepared h.limits
  obtain ⟨es, hes⟩ := h.prepared.planned
  have hmem := h.pair_mem ha
  have hplanned : a.planned ∈ w.planned es := by
    rw [← hes]
    exact List.mem_map.2 ⟨_, hmem, rfl⟩
  exact ⟨(hready a ha).1, (hready a ha).2, h.encodable _ hmem, (planned_mem hplanned).2⟩

/-- The slot of an entry is one `planLayout` has placed. -/
theorem slot (ha : a ∈ w.assigned xs) : ∃ cur, w.Slot cur a.plan := by
  obtain ⟨-, hslots⟩ := assigned_ready h.prepared h.limits
  exact (hslots.mem (List.mem_map.2 ⟨a, ha, rfl⟩)).2.2

/-- The reader's offset of an inode is where the writer has put it. -/
theorem inodeStart_eq (a : Assigned) : img.inodeStart a.plan.nid =
    (w.assignDataBlocks (xs.map Prod.fst)).2 * w.blockSize + a.plan.off := by
  obtain ⟨sizes, hopens⟩ := h.opens
  obtain ⟨checksum, hsb⟩ := hopens.sb
  rw [Image.inodeStart, Image.metaStartPos, h.blockSize, hsb]
  rfl

theorem hasAt_inode (ha : a ∈ w.assigned xs) :
    HasAt (c 0) (img.inodeStart a.plan.nid) (w.inodeHeader a ++ w.trailing a) := by
  rw [h.inodeStart_eq]
  exact h.laid.inodes a ha

/-- The inode of an entry lies inside the image. -/
theorem inode_end (ha : a ∈ w.assigned xs) :
    img.inodeStart a.plan.nid + a.plan.headerSize ≤ (c 0).length := by
  obtain ⟨hready, hmade, -⟩ := h.entry ha
  have hheader := length_inodeHeader hready hmade
  have hcore := inodeCoreSize_cases a.plan.compact
  have hpos : 0 < a.plan.headerSize := by
    rw [Plan.headerSize]
    omega
  have hend := (h.hasAt_inode ha).left.end_le (List.ne_nil_of_length_pos (by omega))
  omega

theorem checkNid_ok (ha : a ∈ w.assigned xs) : img.checkNid a.plan.nid = .ok () := by
  have hend := h.inode_end ha
  have hlen := h.length_le
  have hcore := inodeCoreSize_cases a.plan.compact
  have hstart : a.plan.nid * 32 ≤ img.inodeStart a.plan.nid := Nat.le_add_left _ _
  rw [Plan.headerSize] at hend
  unfold Image.checkNid
  rw [h.size, if_neg, if_neg]
  · simp only [Disk.sizeInodeCompact]
    omega
  · simp only [Disk.sizeInodeExtended, Disk.sizeInodeCompact, maxInt64]
    omega

/-- No address that was handed out is the null one. -/
theorem addr_lt (ha : a ∈ w.assigned xs) :
    a.dataBlkAddr < 2 ^ 32 - 1 ∧ a.tailBlkAddr < 2 ^ 32 - 1 := by
  have hlo := h.prepared.sized.lo
  have htotal := totalBlocks_bound h.prepared h.limits
  rw [ErofsWriter.totalBlocks] at htotal
  obtain ⟨-, -, hlt⟩ := @assignWith_exact w (xs.map Prod.fst) w.sbAreaBlocks (by omega) (by omega)
  have hgetD : ∀ (o : Option ℕ), (∀ b, o = some b → b < 2 ^ 32 - 1) → o.getD 0 < 2 ^ 32 - 1 := by
    intro o ho
    cases o with
    | none => decide
    | some b => exact ho b rfl
  rw [(assigned_eq h.prepared h.limits).1] at ha
  obtain ⟨q, hq, rfl⟩ := List.mem_map.1 ha
  have haddrs := (List.of_mem_zip hq).2
  exact ⟨hgetD _ fun b hb => hlt _ haddrs b (.inl hb), hgetD _ fun b hb => hlt _ haddrs b (.inr hb)⟩

end ErofsWriter.WrittenAs

/-! ## Inodes -/

theorem format_written {e : ErofsEntry} {direntSize addr : ℕ} {p : Plan} {buf rest : Bytes}
    (hlayout : p.layout = .flatPlain ∨ p.layout = .flatInline ∨ p.layout = .chunkBased)
    (hbuf : buf <+: w.writeInode e direntSize p addr ++ rest)
    (hlen : inodeCoreSize p.compact ≤ buf.length) :
    field buf 0 2 = inodeFormat p.layout p.compact := by
  have hlt := (inodeFormat_reads hlayout p.compact).1
  unfold ErofsWriter.writeInode at hbuf
  cases hc : p.compact with
  | true =>
    rw [hc, if_pos rfl] at hbuf
    rw [hc] at hlen hlt
    have hroom : 32 ≤ buf.length := hlen
    have hfields : HasFields buf 0 (w.compactFields e direntSize p addr) :=
      hasFields_record hbuf (by simpa [ErofsWriter.compactFields] using hroom)
    exact hfields.1 hlt
  | false =>
    rw [hc, if_neg (by decide)] at hbuf
    rw [hc] at hlen hlt
    have hroom : 64 ≤ buf.length := hlen
    have hfields : HasFields buf 0 (w.extendedFields e direntSize p addr) :=
      hasFields_record hbuf (by simpa [ErofsWriter.extendedFields] using hroom)
    exact hfields.1 hlt

theorem checkInodeFormat_written {layout : Layout}
    (h : layout = .flatPlain ∨ layout = .flatInline ∨ layout = .chunkBased) (compact : Bool)
    (nid : ℕ) : checkInodeFormat nid (inodeFormat layout compact) = .ok () := by
  rcases h with rfl | rfl | rfl <;> cases compact <;> rfl

/-- The inode of an entry does not depend on the chunk of its tail. -/
theorem inodeHeader_eq (a : Assigned) : w.inodeHeader a =
    w.writeInode a.planned.entry a.planned.direntSize a.plan a.dataBlkAddr ++
      xattrBytes a.planned.entry.xattrs := by
  rw [ErofsWriter.inodeHeader, a.entry_eq]
  rfl

/-- A target that is kept inline is what follows the attributes. -/
theorem trailing_symlink (hlink : a.planned.entry.mode.typ = Mode.symlink)
    (hlay : a.plan.layout = .flatInline) : w.trailing a = a.planned.entry.symTarget := by
  rw [ErofsWriter.trailing, hlay]
  exact content_symlink hlink

/-- **Inodes are found.**  `readInfo` at the nid of an entry, for the type its dirent has, gives the
inode of the entry. -/
theorem readInfo_written (h : w.WrittenAs xs c img) (ha : a ∈ w.assigned xs) (name : Bytes) :
    ∃ ino, (img.readInfo name a.plan.nid
        (eroFSModeToGoFileMode a.planned.entry.mode).typ).run (holding c) = .ok ino ∧
      ino.nid = a.plan.nid ∧
      ino.ReadsBack a.planned.entry a.planned.direntSize a.plan a.dataBlkAddr ∧
      ino.inodeData = w.inodeData a.planned.entry a.plan a.dataBlkAddr := by
  obtain ⟨hready, hmade, henc, off, hplan⟩ := h.entry ha
  have haddr := (h.addr_lt ha).1
  have hlayout : a.plan.layout = .flatPlain ∨ a.plan.layout = .flatInline ∨
      a.plan.layout = .chunkBased := hmade.layout.imp_right fun hl => hl.imp_right And.left
  have hend := h.inode_end ha
  have hcore := inodeCoreSize_cases a.plan.compact
  -- what is read is the beginning of what follows from the inode on
  obtain ⟨more, hmore⟩ := h.hasAt_inode ha
  set buf := held (c 0) (img.inodeStart a.plan.nid) (img.inodeWindow a.plan.nid) with hbufdef
  have hbuf : buf <+: w.writeInode a.planned.entry a.planned.direntSize a.plan a.dataBlkAddr ++
      (xattrBytes a.planned.entry.xattrs ++ (w.trailing a ++ more)) := by
    rw [← List.append_assoc, ← inodeHeader_eq, ← List.append_assoc, hmore]
    exact List.take_prefix _ _
  have hlen : inodeCoreSize a.plan.compact ≤ buf.length := by
    have hwindow : 64 ≤ img.inodeWindow a.plan.nid := le_max_left _ _
    rw [Plan.headerSize] at hend
    rw [hbufdef, length_held]
    omega
  have hxattr : a.plan.xattrSize = calcXattrSize a.planned.entry.xattrs := hmade.xattrSize
  obtain ⟨decoded, hdec, hcount, hnid, -, hholds⟩ := @ErofsWriter.decodeInode_writeInode w
    a.planned.entry a.planned.direntSize off a.dataBlkAddr a.plan img.sb name buf _ a.plan.nid
    h.chunkBits henc (by omega) h.buildTimes hplan hbuf hlen
  have hsize : xattrSize decoded.nid (field buf 2 2) = .ok a.plan.xattrSize := by
    rw [hcount, hxattr]
    exact xattrSize_xattrCount henc.xattrs _
  have hholds' : ErofsWriter.Holds { decoded with xsize := a.plan.xattrSize } a.planned.entry
      a.planned.direntSize a.plan (w.inodeData a.planned.entry a.plan a.dataBlkAddr) :=
    { hholds with }
  have hfast := @ErofsWriter.checkFastSymlink_holds w a.planned.entry a.planned.direntSize off
    a.dataBlkAddr a.plan buf (w.trailing a ++ more) { decoded with xsize := a.plan.xattrSize }
    h.prepared.sized.hi henc hplan hholds' hxattr hbuf fun hlink hlay => by
      rw [trailing_symlink hlink hlay]
      exact List.prefix_append _ _
  refine ⟨{ decoded with xsize := a.plan.xattrSize }, ?_, hnid,
    ErofsWriter.readsBack_of_holds hholds' rfl, hholds.inodeData⟩
  have hread : (readerAt 0 (img.inodeStart a.plan.nid) (img.inodeWindow a.plan.nid)).run
      (holding c) =
        ⟨buf, if buf.length < img.inodeWindow a.plan.nid then some eofError else none⟩ :=
    holding_held c 0 _ _
  have hdecoded : checkDecoded (eroFSModeToGoFileMode a.planned.entry.mode).typ decoded =
      .ok () := by
    unfold checkDecoded
    rw [hholds.size, if_neg (not_le.2 henc.size), hholds.mode, if_neg (not_not.2 rfl)]
  unfold Image.readInfo
  rw [h.checkNid_ok ha]
  dsimp only
  rw [Prog.run_bind, hread, Prog.run_done]
  have hsoft : (⟨buf, if buf.length < img.inodeWindow a.plan.nid then some eofError else none⟩ :
      Answer).hardError = none := by
    unfold Answer.hardError
    split_ifs <;> rfl
  unfold parseInfo
  rw [hsoft]
  dsimp only
  rw [if_neg (by simp only [Disk.sizeInodeCompact]; omega), format_written hlayout hbuf hlen,
    checkInodeFormat_written hlayout, ok_bind, ← format_written hlayout hbuf hlen, hdec, ok_bind,
    hdecoded, ok_bind, finishInfo, hsize, ok_bind]
  dsimp only
  rw [ErofsWriter.checkChunkFormat_holds h.chunkBits hplan hholds', ok_bind, hfast]
  rfl

end WrittenAs

/-! ## Data in one place -/

namespace Image

/-- The bytes of a file are kept in the image from `base` on, and both ways of reading it go
there. -/
structure KeptAt (img : Image) (c : ℕ → Bytes) (ino : Inode) (base : ℕ) (content : Bytes) :
    Prop where
  length : content.length = ino.size
  content : HasAt (c 0) base content
  bounded : ((base + ino.size : ℕ) : Int) ≤ maxInt64
  direct : 0 < ino.size → (img.openDirect ino).run (holding c) = some ⟨0, base, ino.size⟩
  place : ∀ pos < ino.size, img.blockPlace (c 0) ino pos = some (.data 0 (base + pos : ℕ))

namespace KeptAt

variable {img : Image} {c : ℕ → Bytes} {ino : Inode} {base off n pos : ℕ} {content : Bytes}
  {f : OpenFile} (h : img.KeptAt c ino base content)

include h

theorem held_eq (hn : off + n ≤ ino.size) :
    held (c 0) (base + off) n = (content.drop off).take n := by
  have hlen : ((content.drop off).take n).length = n := by
    rw [List.length_take, List.length_drop, h.length]
    omega
  have hat : HasAt (c 0) (base + off) ((content.drop off).take n) :=
    h.content.within (List.take_prefix _ _)
  have htake := hat.take_drop
  rwa [hlen] at htake

/-- A read inside the data gives it, without an error. -/
theorem run_readerAt (hn : off + n ≤ ino.size) :
    (readerAt 0 (base + off : ℕ) n).run (holding c) = ⟨(content.drop off).take n, none⟩ := by
  have hlen : ((content.drop off).take n).length = n := by
    rw [List.length_take, List.length_drop, h.length]
    omega
  rw [holding_held, h.held_eq hn, hlen, if_neg (lt_irrefl n)]

theorem loadBlock (hpos : pos < ino.size) : (img.loadBlock ino pos).run (holding c) =
    .ok ((content.drop pos).take (img.blockLen ino.size pos)) := by
  have hle : pos + img.blockLen ino.size pos ≤ ino.size := blockLen_le hpos
  refine (loadBlock_iff hpos).2 ⟨_, h.place pos hpos, ?_, ?_⟩
  · rw [deviceReader, if_pos rfl, h.run_readerAt hle]
  · rw [List.length_take, List.length_drop, h.length]
    omega

theorem readSection (hoff : off < ino.size) (hn : off + n ≤ ino.size) :
    (img.readSection ⟨0, base, ino.size⟩ off n).run (holding c) =
      ⟨(content.drop off).take n, none⟩ := by
  have hbounded := h.bounded
  have hlimit : sectionLimit base ino.size = base + ino.size := by
    rw [sectionLimit, if_pos (by omega)]
  unfold Image.readSection sectionReadAt
  dsimp only
  rw [hlimit, if_neg (by omega), if_neg (by omega), ← Nat.cast_add, Nat.add_comm off base,
    deviceReader, if_pos rfl]
  exact h.run_readerAt hn

/-- `Read` gives the bytes from the offset on, as many as the buffer takes. -/
theorem readWith (hd : f.direct = none ∨ f.direct = some (some ⟨0, base, ino.size⟩))
    (hoff : f.offset < ino.size) : (f.readWith img ino n).run (holding c) =
      ⟨OpenFile.advance { f with direct := some (some ⟨0, base, ino.size⟩) }
          (min n (ino.size - f.offset)), (content.drop f.offset).take n, none⟩ := by
  have hdirect : (f.directReader img ino).run (holding c) =
      ({ f with direct := some (some ⟨0, base, ino.size⟩) }, some ⟨0, base, ino.size⟩) := by
    unfold OpenFile.directReader
    rcases hd with hnone | hsome
    · rw [hnone]
      dsimp only
      rw [Prog.run_bind, h.direct (by omega), Prog.run_done]
    · rw [hsome]
      dsimp only
      rw [Prog.run_done, ← hsome]
  have hlen : ((content.drop f.offset).take (min n (ino.size - f.offset))).length =
      min n (ino.size - f.offset) := by
    rw [List.length_take, List.length_drop, h.length]
    omega
  have htake : (content.drop f.offset).take (min n (ino.size - f.offset)) =
      (content.drop f.offset).take n := by
    rw [← h.length, ← List.length_drop, ← List.take_take, List.take_length]
  unfold OpenFile.readWith
  rw [Prog.run_bind, hdirect]
  dsimp only
  unfold OpenFile.readDirect
  dsimp only
  rw [if_neg (not_le.2 hoff), Prog.run_bind, h.readSection hoff (by omega), Prog.run_done, hlen,
    htake, if_pos rfl]
  rfl

/-- What is kept in one place of the image is the content of the file. -/
theorem supplies : img.Supplies c ino content := by
  refine ⟨h.length, fun pos hpos => h.loadBlock hpos, fun s hs pos hpos n hn => ?_⟩
  rw [h.direct (by omega)] at hs
  cases hs
  exact h.readSection hpos hn

/-- `readAll` of a file that was just opened gives all of it. -/
theorem readAll (hinfo : f.info = some ino) (hd : f.direct = none) (hoff : f.offset = 0) :
    (img.readAll f ino.size).run (holding c) = .ok content :=
  h.supplies.readAll (.opened hinfo hd) hoff

/-- The blocks of a directory are those of its data. -/
theorem hasContent (hfit : (c 0).length + img.blockSize ≤ 2 ^ 63) :
    img.HasContent (holding c) ino content := by
  have hlen : content.length ≤ (c 0).length := by
    by_cases hnil : content = []
    · rw [hnil]
      exact Nat.zero_le _
    · have hend := h.content.end_le hnil
      omega
  refine ⟨h.length, by omega, fun b hb => ?_⟩
  have hlt : b * img.blockSize < ino.size := lt_dirBlocks_iff.1 hb
  unfold dirBlock
  rw [h.loadBlock hlt, blockLen, Nat.mul_mod_left, Nat.sub_zero]
  congr 1
  rw [← h.length, ← List.length_drop, ← List.take_take, List.take_length]

end KeptAt

end Image

/-! ## The data of an entry -/

section Data

variable {w : ErofsWriter} {xs : List (Planned × ErofsDir)} {c : ℕ → Bytes} {img : Image}
  {a : Assigned} {ino : Inode} {off n nid blk : ℕ}

namespace ErofsWriter.WrittenAs

variable (h : w.WrittenAs xs c img)

include h

theorem checkImageRange_ok (hle : off + n ≤ (c 0).length) : img.checkImageRange off n = .ok () := by
  have hlen := h.length_le
  unfold Image.checkImageRange
  rw [h.size, if_neg (by rw [maxInt64]; omega), if_neg (by omega)]

/-- A range of the image is in the image, and on no device. -/
theorem locateRange_ok (hle : off + n ≤ (c 0).length) :
    img.locateRange off n = .ok (0, (off : Int)) := by
  have hlen := h.length_le
  unfold Image.locateRange
  rw [h.findMapped, h.checkImageRange_ok hle, if_neg (by rw [maxInt64]; omega)]
  rfl

theorem blockAddr_ok (hle : blk * w.blockSize ≤ (c 0).length) :
    img.blockAddr nid blk = .ok (blk * w.blockSize : ℕ) := by
  have hlen := h.length_le
  have hlo := h.prepared.sized.lo
  have hblk : blk * 512 ≤ blk * w.blockSize := Nat.mul_le_mul_left _ hlo
  have hhi := h.prepared.sized.hi
  have hmax : (2 ^ 40 : Int) ≤ maxInt64 / w.blockSize := by
    rw [Int.le_ediv_iff_mul_le (by omega), maxInt64]
    omega
  unfold Image.blockAddr
  rw [h.blockSize, if_neg (by omega)]

end ErofsWriter.WrittenAs

/-- What an inode declares as its size is what the entry has. -/
theorem length_content (hw : w.Sized) (hready : w.Ready a.planned a.dir)
    (htyp : a.planned.entry.mode.typ = Mode.reg ∨ a.planned.entry.mode.typ = Mode.dir ∨
      a.planned.entry.mode.typ = Mode.symlink) (hlay : a.plan.layout ≠ .chunkBased) :
    (w.content a.planned a.dir).length = inodeFileSize a.planned.entry a.planned.direntSize := by
  have hdistinct : Mode.reg ≠ Mode.dir ∧ Mode.reg ≠ Mode.symlink ∧ Mode.symlink ≠ Mode.dir := by
    decide
  rcases htyp with hreg | hdir | hlink
  · rw [content_reg hready hreg hlay, inodeFileSize, hreg, if_neg hdistinct.1,
      if_neg hdistinct.2.1]
  · obtain ⟨hcontent, hlen⟩ := content_dir hw hready hdir
    rw [hcontent, hlen, inodeFileSize, if_pos hdir]
  · rw [content_symlink hlink, inodeFileSize, hlink, if_neg hdistinct.2.2, if_pos rfl]

/-- Data with blocks of its own is kept from the first of them on. -/
theorem keptAt_plain (h : w.WrittenAs xs c img) (ha : a ∈ w.assigned xs)
    (htyp : a.planned.entry.mode.typ = Mode.reg ∨ a.planned.entry.mode.typ = Mode.dir ∨
      a.planned.entry.mode.typ = Mode.symlink)
    (hlay : a.plan.layout = .flatPlain)
    (hback : ino.ReadsBack a.planned.entry a.planned.direntSize a.plan a.dataBlkAddr) :
    img.KeptAt c ino (a.dataBlkAddr * w.blockSize) (w.content a.planned a.dir) := by
  obtain ⟨hready, -⟩ := h.entry ha
  have hsized := h.prepared.sized
  have hnot : a.plan.layout ≠ .chunkBased := by
    rw [hlay]
    decide
  have hlen : (w.content a.planned a.dir).length = ino.size := by
    rw [hback.size, length_content hsized hready htyp hnot]
  have hds := flatPlainDataSize_eq hsized hready hlay
  have haddr := (h.addr_lt ha).1
  have hhi := hsized.hi
  have himage := h.length_le
  have hstart : 0 < ino.size → ino.startBlock = a.dataBlkAddr := by
    intro hpos
    refine hback.start hlay (htyp.imp_left fun hreg => ⟨hreg, ?_⟩)
    rw [← content_reg hready hreg hnot, hlen]
    exact hpos
  have hat : HasAt (c 0) (a.dataBlkAddr * w.blockSize) (w.content a.planned a.dir) := by
    by_cases hzero : ErofsWriter.flatPlainDataSize a.planned = 0
    · rw [List.eq_nil_of_length_eq_zero (by omega : (w.content a.planned a.dir).length = 0)]
      exact List.nil_prefix
    · exact (h.laid.data a ha).data hzero
  have hend : 0 < ino.size → a.dataBlkAddr * w.blockSize + ino.size ≤ (c 0).length := by
    intro hpos
    have := hat.end_le (List.ne_nil_of_length_pos (by omega))
    omega
  have hnull : 0 < ino.size → ino.nullAddress = false := by
    intro hpos
    have hsmall : ∀ bits, 32 ≤ bits → ino.startBlock % 2 ^ bits ≠ 2 ^ bits - 1 := by
      intro bits hbits
      have hpow : 2 ^ 32 ≤ 2 ^ bits := Nat.pow_le_pow_right Nat.two_pos hbits
      rw [hstart hpos, Nat.mod_eq_of_lt (by omega)]
      omega
    have hstored : Inode.nullStartBlock ino.startBlock ino.addr48 = false := by
      unfold Inode.nullStartBlock
      rw [beq_eq_false_iff_ne]
      split_ifs
      · exact hsmall 48 (by decide)
      · exact hsmall 32 le_rfl
    rw [Inode.nullAddress, hstored, Bool.and_false]
  have hbound : a.dataBlkAddr * w.blockSize ≤ (2 ^ 32 - 1) * 65536 :=
    Nat.mul_le_mul (by omega) hhi
  refine ⟨hlen, hat, ?_, fun hpos => ?_, fun pos hpos => ?_⟩
  · rcases Nat.eq_zero_or_pos ino.size with hzero | hpos
    · rw [hzero, maxInt64]
      omega
    · have := hend hpos
      rw [maxInt64]
      omega
  · have hstart' := hend hpos
    rw [Image.openDirect, if_neg (by omega), hback.layout, hlay]
    dsimp only
    rw [Prog.run_done, Image.openPlain, hnull hpos, Image.locateStart, hstart hpos,
      h.blockAddr_ok (by omega)]
    dsimp only
    rw [h.locateRange_ok hstart']
    rfl
  · have hpos' : 0 < ino.size := by omega
    have hstart' := hend hpos'
    have hle : pos + img.blockLen ino.size pos ≤ ino.size := Image.blockLen_le hpos
    have hsplit : (a.dataBlkAddr + pos / w.blockSize) * w.blockSize + pos % w.blockSize =
        a.dataBlkAddr * w.blockSize + pos := by
      rw [Nat.add_mul, Nat.add_assoc, Nat.div_add_mod']
    rw [Image.blockPlace, hback.layout, hlay]
    dsimp only
    rw [hnull hpos', Image.flatPlace, hstart hpos', h.blockSize, h.blockAddr_ok (by omega)]
    dsimp only
    rw [← Nat.cast_add, hsplit, h.locateRange_ok (by omega)]
    rfl

/-- Inline data ends in the block it starts in. -/
theorem inline_room (h : w.WrittenAs xs c img) (ha : a ∈ w.assigned xs)
    (hlay : a.plan.layout = .flatInline) (hpos : 0 < a.plan.trailingSize) :
    (img.inodeStart a.plan.nid + a.plan.headerSize) % w.blockSize + a.plan.trailingSize ≤
      w.blockSize := by
  obtain ⟨cur, hslot⟩ := h.slot ha
  have hroom := hslot.inline hlay
  have hdiv := Nat.div_add_mod' a.plan.off w.blockSize
  have hsum : img.inodeStart a.plan.nid + a.plan.headerSize =
      (a.plan.off % w.blockSize + a.plan.headerSize) +
        ((w.assignDataBlocks (xs.map Prod.fst)).2 + a.plan.off / w.blockSize) * w.blockSize := by
    rw [h.inodeStart_eq, Nat.add_mul]
    omega
  rw [hsum, Nat.add_mul_mod_self_right, Nat.mod_eq_of_lt (by omega)]
  omega

/-- Inline data is kept behind the inode and its attributes. -/
theorem keptAt_inline (h : w.WrittenAs xs c img) (ha : a ∈ w.assigned xs)
    (htyp : a.planned.entry.mode.typ = Mode.reg ∨ a.planned.entry.mode.typ = Mode.dir ∨
      a.planned.entry.mode.typ = Mode.symlink)
    (hlay : a.plan.layout = .flatInline) (hnid : ino.nid = a.plan.nid)
    (hback : ino.ReadsBack a.planned.entry a.planned.direntSize a.plan a.dataBlkAddr) :
    img.KeptAt c ino (img.inodeStart a.plan.nid + a.plan.headerSize)
      (w.content a.planned a.dir) := by
  obtain ⟨hready, hmade, -⟩ := h.entry ha
  have hsized := h.prepared.sized
  have hbs := h.blockSize
  have hnot : a.plan.layout ≠ .chunkBased := by
    rw [hlay]
    decide
  have hlen : (w.content a.planned a.dir).length = ino.size := by
    rw [hback.size, length_content hsized hready htyp hnot]
  have hsize : a.plan.trailingSize = ino.size := by
    rw [← hlen]
    exact trailingSize_inline hsized hready hmade hlay
  have htrailing : w.trailing a = w.content a.planned a.dir := by
    rw [ErofsWriter.trailing, hlay]
    rfl
  have hinode := (h.hasAt_inode ha).right
  rw [length_inodeHeader hready hmade, htrailing] at hinode
  have hend := h.inode_end ha
  have himage := h.length_le
  have hroom := inline_room h ha hlay
  rw [hsize] at hroom
  have hoffset : img.inodeStart ino.nid + ino.flatDataOffset =
      img.inodeStart a.plan.nid + a.plan.headerSize := by
    rw [hback.trailing, hnid, Plan.headerSize]
  have haddr : img.trailingAddr ino =
      ((img.inodeStart a.plan.nid + a.plan.headerSize : ℕ) : Int) := by
    rw [Image.trailingAddr, hoffset]
    refine int64_of (Int.natCast_nonneg _) ?_
    rw [maxInt64]
    generalize img.inodeStart a.plan.nid + a.plan.headerSize = base at hend ⊢
    omega
  generalize img.inodeStart a.plan.nid + a.plan.headerSize = base at hend haddr hroom hinode ⊢
  have hlo := hsized.lo
  have hhi := hsized.hi
  have hinside : 0 < ino.size → base + ino.size ≤ (c 0).length := by
    intro hpos
    rw [← hlen] at hpos ⊢
    exact hinode.end_le (List.ne_nil_of_length_pos hpos)
  refine ⟨hlen, hinode, ?_, fun hpos => ?_, fun pos hpos => ?_⟩
  · clear haddr
    rcases Nat.eq_zero_or_pos ino.size with hzero | hpos
    · rw [hzero, maxInt64]
      omega
    · have := hinside hpos
      rw [maxInt64]
      omega
  · have hfits := hroom hpos
    rw [Image.openDirect, if_neg hpos.ne', hback.layout, hlay]
    dsimp only
    rw [Prog.run_done, Image.openInline, haddr, hbs, ← Int.natCast_mod, if_neg,
      h.checkImageRange_ok (hinside hpos)]
    clear haddr
    omega
  · have hpos' : 0 < ino.size := Nat.zero_lt_of_lt hpos
    have hfits := hroom hpos'
    have hin := hinside hpos'
    have hle : pos + img.blockLen ino.size pos ≤ ino.size := Image.blockLen_le hpos
    have hfirst : pos / w.blockSize * w.blockSize = 0 := by
      clear haddr
      rw [Nat.div_eq_of_lt (by omega), Nat.zero_mul]
    have hrange := @ErofsWriter.WrittenAs.checkImageRange_ok w xs c img (base + pos)
      (img.blockLen ino.size pos) h (by
        clear haddr
        omega)
    rw [Image.blockPlace, hback.layout, hlay]
    dsimp only
    rw [Image.inlinePlace, haddr, hbs, hfirst, Nat.sub_zero, Nat.sub_zero, if_pos,
      ← Int.natCast_mod, if_neg, ← Nat.cast_add, hrange]
    · clear haddr
      omega
    · clear haddr
      omega

/-- **Data is found.**  The bytes of a file, a directory or a symlink that is not chunk-based are
kept in one place of the image, where its inode leads. -/
theorem keptAt_written (h : w.WrittenAs xs c img) (ha : a ∈ w.assigned xs)
    (htyp : a.planned.entry.mode.typ = Mode.reg ∨ a.planned.entry.mode.typ = Mode.dir ∨
      a.planned.entry.mode.typ = Mode.symlink)
    (hlay : a.plan.layout ≠ .chunkBased) (hnid : ino.nid = a.plan.nid)
    (hback : ino.ReadsBack a.planned.entry a.planned.direntSize a.plan a.dataBlkAddr) :
    ∃ base, img.KeptAt c ino base (w.content a.planned a.dir) := by
  obtain ⟨-, hmade, -⟩ := h.entry ha
  rcases hmade.layout with hplain | hinline | ⟨hchunk, -⟩
  · exact ⟨_, keptAt_plain h ha htyp hplain hback⟩
  · exact ⟨_, keptAt_inline h ha htyp hinline hnid hback⟩
  · exact absurd hchunk hlay

end Data

end Erofs
