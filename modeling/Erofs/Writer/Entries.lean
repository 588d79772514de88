import Erofs.Reader.Lookup
import Erofs.Writer.ReadBack

/-!
# Calls on the entries of a written image

What the reader's calls give for an entry of an image that was written: a directory is listed and
searched, a symlink leads to its target, attributes are read, and a file is read whole or in parts.

The main results:

* `readDir_written`, `lookupIn_written` — a directory has its children, and no other name;
* `linkTarget_written`, `loadXattrs_written` — a symlink's target and an inode's attributes;
* `entries_served` — all of these, for every entry.
-/

namespace Erofs

open GoPath LittleEndian Oracle

/-! ## The blocks of a directory -/

section Blocks

variable {bs : ℕ} {dir : ErofsDir}

/-- What `writeDirents` writes are well-formed blocks of the sorted dirents. -/
theorem dirents_blocks (hlo : 512 ≤ bs) (hhi : bs ≤ 65536) (h : dir.Ok) :
    ∃ bl : List Bytes, Blocked bs bl ∧ bl.flatten = writeDirents bs dir ∧
      (∀ buf ∈ bl, DirBlock.Sound buf) ∧ bl.flatMap blockDirents = allEnts dir := by
  have hall : ∀ de ∈ allEnts dir, de.Fits ∧ de.name.length ≤ 255 := fun de hde =>
    h.dirents_fits de (allEnts_perm.mem_iff.1 hde)
  have hshort : ∀ de ∈ allEnts dir, de.name.length ≤ 255 := fun de hde => (hall de hde).2
  have hflat := @pack_flatten bs (allEnts dir).length (allEnts dir) hlo hshort le_rfl
  have hfits := @pack_fits bs (allEnts dir).length (allEnts dir) hlo hshort
  obtain ⟨hsound, hdirents⟩ := blocksOf_decode hhi fun c hc => ⟨hfits c hc, fun de hde =>
    (hall de (hflat ▸ List.mem_flatten_of_mem hc hde)).1⟩
  refine ⟨_, blocked_blocksOf hfits, (writeBlocks_eq hlo hshort le_rfl).symm, hsound, ?_⟩
  rw [hdirents, hflat]

end Blocks

/-! ## Listing and searching -/

namespace Image

variable {img : Image} {o : Req → Answer} {fi : Inode} {dir : ErofsDir} {d : OpenDir}

theorem mem_blockDirents {buf : Bytes} {i : ℕ} (hi : i < DirBlock.count buf) :
    direntInfoAt buf i ∈ blockDirents buf :=
  List.mem_map.2 ⟨i, List.mem_range.2 hi, rfl⟩

/-- The dirents of a block in the order of their numbers. -/
theorem pairwise_blockDirents {buf : Bytes} (h : (blockDirents buf).Pairwise (·.name < ·.name)) :
    Ascending buf := by
  intro i j hij hj
  rw [blockDirents, List.pairwise_map] at h
  have hlen : (List.range (DirBlock.count buf)).length = DirBlock.count buf := List.length_range
  have := List.pairwise_iff_getElem.1 h i j (by omega) (by omega) hij
  simp only [List.getElem_range] at this
  exact this

section Content

variable (hlo : 512 ≤ img.blockSize) (hhi : img.blockSize ≤ 65536) (h : dir.Ok)
  (hc : img.HasContent o fi (writeDirents img.blockSize dir))

include hlo hhi h hc

/-- `ReadDir(-1)` lists the children in the order of their names. -/
theorem readDir_content (hk : img.Known o fi d) (hbn : d.bn = 0) (hcons : d.consumed = 0) :
    ((d.readDir img none).run o).2 =
      (((allEnts dir).filter (·.Shown)).map DirentInfo.entry, none) := by
  obtain ⟨bl, hblocked, hflat, hsound, hdirents⟩ := dirents_blocks hlo hhi h
  rw [← hflat] at hc
  rw [readDir_blocks hc hblocked hsound hk hbn hcons, ← hdirents, List.filter_flatMap,
    List.map_flatMap]
  congr 1
  exact List.flatMap_congr fun buf hbuf => decoded_dirents (hsound buf hbuf)

/-- The names ascend in each block and from block to block. -/
theorem sortedDir_content : img.SortedDir o fi := by
  obtain ⟨bl, hblocked, hflat, hsound, hdirents⟩ := dirents_blocks hlo hhi h
  rw [← hflat] at hc
  have hsorted := h.ascending
  rw [← hdirents, List.pairwise_flatMap] at hsorted
  obtain ⟨hwithin, hacross⟩ := hsorted
  have hcount := dirBlocks_eq hc hblocked
  have hload : ∀ {b : ℕ} (hb : b < bl.length), img.dirBlock o fi b = .ok bl[b] := fun hb =>
    dirBlock_eq hc hblocked (List.getElem?_eq_getElem hb)
  refine ⟨fun b hb => ?_, fun b hb buf hbuf => ?_,
    fun b b' hlt hb' buf buf' hbuf hbuf' i hi j hj => ?_⟩
  · rw [hcount] at hb
    exact ⟨bl[b], hload hb, hsound _ (List.getElem_mem hb)⟩
  · rw [hcount] at hb
    rw [hload hb] at hbuf
    cases hbuf
    exact pairwise_blockDirents (hwithin _ (List.getElem_mem hb))
  · rw [hcount] at hb'
    rw [hload (hlt.trans hb')] at hbuf
    rw [hload hb'] at hbuf'
    cases hbuf
    cases hbuf'
    exact List.pairwise_iff_getElem.1 hacross b b' (hlt.trans hb') hb' hlt _ (mem_blockDirents hi) _
      (mem_blockDirents hj)

/-- A name is found exactly where the directory has it, with its nid and its type. -/
theorem lookup_content {lookup : Bytes → Except GoError (ℕ × FileMode)}
    (hlookup : img.LookupExact o fi lookup) :
    (∀ de ∈ dir.dirents, lookup de.name = .ok (de.nid, eroFSFtypeToFileMode de.fileType)) ∧
      ∀ target, target ∉ namesOf dir.dirents → lookup target = .error errNotExist := by
  obtain ⟨bl, hblocked, hflat, hsound, hdirents⟩ := dirents_blocks hlo hhi h
  rw [← hflat] at hc
  have hcount := dirBlocks_eq hc hblocked
  have hload : ∀ {b : ℕ} (hb : b < bl.length), img.dirBlock o fi b = .ok bl[b] := fun hb =>
    dirBlock_eq hc hblocked (List.getElem?_eq_getElem hb)
  refine ⟨fun de hde => ?_, fun target habsent => ?_⟩
  · have hmem : de ∈ bl.flatMap blockDirents := by
      rw [hdirents]
      exact allEnts_perm.mem_iff.2 hde
    obtain ⟨buf, hbuf, hin⟩ := List.mem_flatMap.1 hmem
    obtain ⟨i, hi, rfl⟩ := List.mem_map.1 hin
    obtain ⟨b, hb, rfl⟩ := List.mem_iff_getElem.1 hbuf
    exact hlookup.found b (by rw [hcount]; exact hb) _ (hload hb) i (List.mem_range.1 hi)
  · refine hlookup.absent target fun b hb buf hbuf i hi heq => habsent ?_
    rw [hcount] at hb
    rw [hload hb] at hbuf
    cases hbuf
    have hmem : direntInfoAt bl[b] i ∈ dir.dirents := by
      rw [← allEnts_perm.mem_iff, ← hdirents]
      exact List.mem_flatMap.2 ⟨_, List.getElem_mem hb, mem_blockDirents hi⟩
    rw [← heq]
    exact List.mem_map.2 ⟨_, hmem, rfl⟩

end Content

end Image

/-! ## Types -/

/-- The type an inode has is the one its dirent has. -/
theorem typ_goFileMode {m : Mode} (h : m.Typed) :
    (eroFSModeToGoFileMode m).typ = eroFSFtypeToFileMode (modeToFileType m) := by
  have hor : ∀ a b : FileMode, (a ||| b).typ = a.typ ||| b.typ := by
    intro a b
    rw [FileMode.typ, BitVec.and_comm, BitVec.and_or_distrib_left, BitVec.and_comm,
      BitVec.and_comm FileMode.typeBits b]
    rfl
  have hperm : FileMode.typ (m.setWidth 32 &&& FileMode.perm) = 0 := by
    rw [FileMode.typ, BitVec.and_assoc, show FileMode.perm &&& FileMode.typeBits = 0 from rfl]
    exact BitVec.and_zero
  have hbit : ∀ (p : Prop) [Decidable p] (b : FileMode), b.typ = 0 →
      (if p then b else 0 : FileMode).typ = 0 := by
    intro p _ b hb
    split_ifs
    · exact hb
    · rfl
  rw [eroFSModeToGoFileMode, hor, hor, hor, hor, hperm, hbit _ FileMode.setuid rfl,
    hbit _ FileMode.setgid rfl, hbit _ FileMode.sticky rfl, modeToFileType]
  rcases h with hm | hm | hm | hm | hm | hm | hm <;> rw [hm] <;> rfl

/-! ## Calls -/

section Calls

variable {w : ErofsWriter} {xs : List (Planned × ErofsDir)} {c : ℕ → Bytes} {img : Image}
  {a : Assigned} {ino : Inode} {name : Bytes}

/-- The Go type of an entry. -/
def Assigned.ftype (a : Assigned) : FileMode := (eroFSModeToGoFileMode a.planned.entry.mode).typ

/-- The inode of an entry as a file that was just opened knows it. -/
structure ErofsWriter.Finds (w : ErofsWriter) (img : Image) (c : ℕ → Bytes) (a : Assigned)
    (name : Bytes) (ino : Inode) : Prop where
  read : (img.readInfo name a.plan.nid a.ftype).run (holding c) = .ok ino
  nid : ino.nid = a.plan.nid
  back : ino.ReadsBack a.planned.entry a.planned.direntSize a.plan a.dataBlkAddr
  data : ino.inodeData = w.inodeData a.planned.entry a.plan a.dataBlkAddr

theorem finds_written (h : w.WrittenAs xs c img) (ha : a ∈ w.assigned xs) (name : Bytes) :
    ∃ ino, w.Finds img c a name ino := by
  obtain ⟨ino, hread, hnid, hback, hdata⟩ := readInfo_written h ha name
  exact ⟨ino, hread, hnid, hback, hdata⟩

theorem ftype_dir (hdir : a.planned.entry.mode.typ = Mode.dir) : a.ftype = FileMode.dir := by
  rw [Assigned.ftype, typ_goFileMode (.inr (.inl hdir)), modeToFileType, hdir]
  rfl

theorem ftype_symlink (hlink : a.planned.entry.mode.typ = Mode.symlink) :
    a.ftype = FileMode.symlink := by
  rw [Assigned.ftype, typ_goFileMode (.inr (.inr (.inl hlink))), modeToFileType, hlink]
  rfl

/-- A file that is opened at an entry finds its inode. -/
theorem ErofsWriter.Finds.readInfo (hf : w.Finds img c a name ino) :
    (OpenFile.readInfo img { name, nid := a.plan.nid, ftype := a.ftype }).run (holding c) =
      .ok ({ name, nid := a.plan.nid, ftype := a.ftype, info := some ino }, ino) := by
  unfold OpenFile.readInfo
  dsimp only
  rw [Prog.exec_bind, hf.read]
  rfl

/-- Only a regular file is chunk-based. -/
theorem flat_of_ne_reg {x : Planned} (hm : w.Made x) (hne : x.entry.mode.typ ≠ Mode.reg) :
    x.plan.layout ≠ .chunkBased := by
  intro hchunk
  rcases hm.layout with hl | hl | ⟨-, hreg⟩
  · exact absurd (hchunk.symm.trans hl) (by decide)
  · exact absurd (hchunk.symm.trans hl) (by decide)
  · exact hne hreg

/-- The dirents of a directory are its content. -/
theorem hasContent_written (h : w.WrittenAs xs c img) (ha : a ∈ w.assigned xs)
    (hdir : a.planned.entry.mode.typ = Mode.dir) (hf : w.Finds img c a name ino) :
    a.dir.Ok ∧ img.HasContent (holding c) ino (writeDirents img.blockSize a.dir) := by
  obtain ⟨hready, hmade, -⟩ := h.entry ha
  have hlay := flat_of_ne_reg hmade (by rw [hdir]; decide)
  obtain ⟨base, hkept⟩ := keptAt_written h ha (.inr (.inl hdir)) hlay hf.nid hf.back
  have hcontent := (content_dir h.prepared.sized hready hdir).1
  rw [hcontent, ← h.blockSize] at hkept
  have hlen := h.length_le
  have hhi := h.prepared.sized.hi
  exact ⟨hready.dirents hdir, hkept.hasContent (by rw [h.blockSize]; omega)⟩

/-- `ReadDir` of a directory lists its children. -/
theorem readDir_written (h : w.WrittenAs xs c img) (ha : a ∈ w.assigned xs)
    (hdir : a.planned.entry.mode.typ = Mode.dir) (name : Bytes) :
    ((OpenDir.readDir img none { file := { name, nid := a.plan.nid, ftype := FileMode.dir } }).run
        (holding c)).2 = (((allEnts a.dir).filter (·.Shown)).map DirentInfo.entry, none) := by
  obtain ⟨ino, hf⟩ := finds_written h ha name
  obtain ⟨hok, hcontent⟩ := hasContent_written h ha hdir hf
  have hread := hf.readInfo
  rw [ftype_dir hdir] at hread
  have hlo := h.prepared.sized.lo
  have hhi := h.prepared.sized.hi
  rw [← h.blockSize] at hlo hhi
  exact Image.readDir_content hlo hhi hok hcontent ⟨_, hread, rfl⟩ rfl rfl

/-- `lookup` in a directory finds its dirents, and no other name. -/
theorem lookupIn_written (h : w.WrittenAs xs c img) (ha : a ∈ w.assigned xs)
    (hdir : a.planned.entry.mode.typ = Mode.dir) (name : Bytes) :
    (∀ de ∈ a.dir.dirents, (lookupIn img name a.plan.nid FileMode.dir de.name).run (holding c) =
        .ok (de.nid, eroFSFtypeToFileMode de.fileType)) ∧
      ∀ target, target ∉ namesOf a.dir.dirents →
        (lookupIn img name a.plan.nid FileMode.dir target).run (holding c) =
          .error errNotExist := by
  obtain ⟨ino, hf⟩ := finds_written h ha name
  obtain ⟨hok, hcontent⟩ := hasContent_written h ha hdir hf
  have hread := hf.read
  rw [ftype_dir hdir] at hread
  have hlo := h.prepared.sized.lo
  have hhi := h.prepared.sized.hi
  rw [← h.blockSize] at hlo hhi
  have hsize : ino.size + img.blockSize ≤ 2 ^ 63 := by
    obtain ⟨-, hmade, -⟩ := h.entry ha
    obtain ⟨base, hkept⟩ := keptAt_written h ha (.inr (.inl hdir))
      (flat_of_ne_reg hmade (by rw [hdir]; decide)) hf.nid hf.back
    have hle := hkept.content.length_le
    have himage := h.length_le
    rw [hkept.length] at hle
    omega
  exact Image.lookup_content hlo hhi hok hcontent
    (Image.lookupExact_of hread (Image.sortedDir_content hlo hhi hok hcontent) hsize)

/-- A symlink of a length the reader follows leads to its target. -/
theorem linkTarget_written (h : w.WrittenAs xs c img) (ha : a ∈ w.assigned xs)
    (hlink : a.planned.entry.mode.typ = Mode.symlink)
    (hlen : a.planned.entry.symTarget.length ≤ Image.maxSymlinkSize) (name : Bytes) :
    (img.linkTarget a.plan.nid name).run (holding c) = .ok a.planned.entry.symTarget := by
  obtain ⟨-, hmade, henc, -⟩ := h.entry ha
  obtain ⟨hne, hnul⟩ := henc.target hlink
  obtain ⟨ino, hf⟩ := finds_written h ha name
  obtain ⟨base, hkept⟩ := keptAt_written h ha (.inr (.inr hlink))
    (flat_of_ne_reg hmade (by rw [hlink]; decide)) hf.nid hf.back
  rw [content_symlink hlink] at hkept
  have hsize := hkept.length
  have hpos := List.length_pos_iff.2 hne
  have hread := hf.readInfo
  rw [ftype_symlink hlink] at hread
  have hall := @Image.KeptAt.readAll img c ino base a.planned.entry.symTarget
    { name, nid := a.plan.nid, ftype := FileMode.symlink, info := some ino } hkept rfl rfl rfl
  unfold Image.linkTarget
  rw [Prog.exec_bind, hread]
  dsimp only
  rw [if_neg (by omega), if_neg (by omega), Prog.exec_bind, hall]
  dsimp only
  rw [Prog.run_done, if_neg hnul]

/-- The attributes of an inode are those of its entry, in the order they are stored. -/
theorem loadXattrs_written (h : w.WrittenAs xs c img) (ha : a ∈ w.assigned xs)
    (hf : w.Finds img c a name ino) (hne : a.planned.entry.xattrs ≠ []) :
    (img.loadXattrs ino).run (holding c) = .ok (sortedXattrs a.planned.entry.xattrs) := by
  obtain ⟨hready, hmade, -⟩ := h.entry ha
  have hlen := length_xattrBytes hready.names
  have hxsize : ino.xsize = calcXattrSize a.planned.entry.xattrs := by
    rw [hf.back.xsize]
    exact hmade.xattrSize
  have hcore : ino.icsize = inodeCoreSize a.plan.compact := by
    have htrailing := hf.back.trailing
    rw [Inode.flatDataOffset, hf.back.xsize] at htrailing
    omega
  have hwritten : (w.writeInode a.planned.entry a.planned.direntSize a.plan
      a.dataBlkAddr).length = inodeCoreSize a.plan.compact := by
    rw [ErofsWriter.writeInode, length_record]
    cases a.plan.compact <;> rfl
  have hat : HasAt (c 0) (img.inodeStart ino.nid + ino.icsize)
      (xattrBytes a.planned.entry.xattrs) := by
    have hinode := (h.hasAt_inode ha).left
    rw [inodeHeader_eq] at hinode
    have hright := hinode.right
    rwa [hwritten, ← hcore, ← hf.nid] at hright
  have harea : img.xattrArea c ino = xattrBytes a.planned.entry.xattrs := by
    rw [Image.xattrArea, held, hxsize, ← hlen]
    exact hat.take_drop
  obtain ⟨k, hk⟩ := calcXattrSize_of_ne hne
  have hend := hat.end_le (List.ne_nil_of_length_pos (by omega))
  have himage := h.length_le
  have hinside : img.Inside c (img.inodeStart ino.nid + ino.icsize) ino.xsize := by
    refine ⟨by omega, fun _ => ?_, ?_⟩
    · rw [h.size]
      omega
    · rw [maxInt64]
      omega
  have hbits : 9 ≤ img.sb.blkSizeBits := by
    have hlo := h.prepared.sized.lo
    rw [← h.blockSize] at hlo
    exact (Nat.pow_le_pow_iff_right (by decide : 1 < 2)).1 hlo
  have hdec := decodes_xattrBytes hne hready.names (h.accepted ha).xattrs img
  have hunshared : Image.sharedCount (img.xattrArea c ino) = 0 := by
    rw [harea, sharedCount_xattrBytes]
  refine (Image.loadXattrs_unshared hbits hinside hunshared).2 ⟨?_, ?_⟩
  · rw [harea, hlen, hk]
    simp only [Disk.sizeXattrBodyHeader]
    omega
  · rw [harea, hxsize, ← hlen]
    exact hdec

/-- What the reader's calls give at the nid of an entry: its inode and attributes, the bytes of a
file, whole or from an offset on, the children of a directory in order and each by its name, and the
target of a symlink. -/
structure ErofsWriter.Served (w : ErofsWriter) (img : Image) (c : ℕ → Bytes) (a : Assigned) :
    Prop where
  inode : ∀ name, ∃ ino, w.Finds img c a name ino
  xattrs : ∀ name ino, w.Finds img c a name ino → a.planned.entry.xattrs ≠ [] →
    (img.loadXattrs ino).run (holding c) = .ok (sortedXattrs a.planned.entry.xattrs)
  file : a.planned.entry.mode.typ = Mode.reg → a.plan.layout ≠ .chunkBased → ∀ name ino,
    w.Finds img c a name ino → ∀ f : OpenFile, f.info = some ino → f.direct = none →
      (f.offset = 0 → (img.readAll f ino.size).run (holding c) =
        .ok (w.content a.planned a.dir)) ∧
      (f.offset < ino.size → ∀ n, ((f.read img n).run (holding c)).data =
        ((w.content a.planned a.dir).drop f.offset).take n ∧
        ((f.read img n).run (holding c)).err = none)
  listed : a.planned.entry.mode.typ = Mode.dir → ∀ name,
    ((OpenDir.readDir img none { file := { name, nid := a.plan.nid, ftype := FileMode.dir } }).run
      (holding c)).2 = (((allEnts a.dir).filter (·.Shown)).map DirentInfo.entry, none)
  found : a.planned.entry.mode.typ = Mode.dir → ∀ name, ∀ de ∈ a.dir.dirents,
    (lookupIn img name a.plan.nid FileMode.dir de.name).run (holding c) =
      .ok (de.nid, eroFSFtypeToFileMode de.fileType)
  absent : a.planned.entry.mode.typ = Mode.dir → ∀ name target,
    target ∉ namesOf a.dir.dirents →
      (lookupIn img name a.plan.nid FileMode.dir target).run (holding c) = .error errNotExist
  target : a.planned.entry.mode.typ = Mode.symlink →
    a.planned.entry.symTarget.length ≤ Image.maxSymlinkSize → ∀ name,
      (img.linkTarget a.plan.nid name).run (holding c) = .ok a.planned.entry.symTarget

/-- A file is read from where it is kept. -/
theorem file_written (h : w.WrittenAs xs c img) (ha : a ∈ w.assigned xs)
    (hreg : a.planned.entry.mode.typ = Mode.reg) (hlay : a.plan.layout ≠ .chunkBased)
    (hf : w.Finds img c a name ino) {f : OpenFile} (hinfo : f.info = some ino)
    (hd : f.direct = none) :
    (f.offset = 0 → (img.readAll f ino.size).run (holding c) = .ok (w.content a.planned a.dir)) ∧
      (f.offset < ino.size → ∀ n, ((f.read img n).run (holding c)).data =
        ((w.content a.planned a.dir).drop f.offset).take n ∧
        ((f.read img n).run (holding c)).err = none) := by
  obtain ⟨base, hkept⟩ := keptAt_written h ha (.inl hreg) hlay hf.nid hf.back
  refine ⟨fun hoff => hkept.readAll hinfo hd hoff, fun hoff n => ?_⟩
  have hread : (f.read img n).run (holding c) = (f.readWith img ino n).run (holding c) := by
    rw [OpenFile.read, OpenFile.readInfo, hinfo, Prog.run_bind]
    rfl
  rw [hread, hkept.readWith (.inl hd) hoff]
  exact ⟨rfl, rfl⟩

theorem served_written (h : w.WrittenAs xs c img) (ha : a ∈ w.assigned xs) : w.Served img c a where
  inode name := finds_written h ha name
  xattrs _ _ hf hne := loadXattrs_written h ha hf hne
  file hreg hlay _ _ hf _ hinfo hd := file_written h ha hreg hlay hf hinfo hd
  listed hdir name := readDir_written h ha hdir name
  found hdir name := (lookupIn_written h ha hdir name).1
  absent hdir name := (lookupIn_written h ha hdir name).2
  target hlink hlen name := linkTarget_written h ha hlink hlen name

/-- What `write` has left is, once it is opened, an image written of the entries. -/
theorem writtenAs_open {sizes : ℕ → Option Int} {out out' : Out} (h : w.Prepared xs) (hne : xs ≠ [])
    (htime : w.buildTime < 2 ^ 64) (htimeNs : w.buildTimeNs < 2 ^ 32) (hbits : w.chunkBits = 0)
    (henc : ∀ q ∈ xs, q.1.entry.Encodable q.1.direntSize) (hok : w.write xs out = .ok out')
    (hnew : out.bytes = []) (hpos : out.pos = 0) (hc : c 0 = out'.bytes)
    (hsizes : sizes 0 = none ∨ sizes 0 = some ((c 0).length : Int)) :
    ∃ img, (openImage w.devices.length sizes).run (holding c) = .ok img ∧
      w.WrittenAs xs c img := by
  have hlaid := write_laid h hok hnew hpos
  rw [← hc] at hlaid
  obtain ⟨_, hlimits, -⟩ := except_bind_ok hok
  obtain ⟨img, hopen, hopens⟩ := openImage_written h hlimits hne htime htimeNs hlaid hsizes
  exact ⟨img, hopen, h, hlimits, hlaid, ⟨sizes, hopens⟩, hbits, henc⟩

/-- **Round trip.**  Whatever prepared entries `write` has serialized, `Open` of the result gives an
image that serves every one of them as it was. -/
theorem entries_served {sizes : ℕ → Option Int} {out out' : Out} (h : w.Prepared xs) (hne : xs ≠ [])
    (htime : w.buildTime < 2 ^ 64) (htimeNs : w.buildTimeNs < 2 ^ 32) (hbits : w.chunkBits = 0)
    (henc : ∀ q ∈ xs, q.1.entry.Encodable q.1.direntSize) (hok : w.write xs out = .ok out')
    (hnew : out.bytes = []) (hpos : out.pos = 0) (hc : c 0 = out'.bytes)
    (hsizes : sizes 0 = none ∨ sizes 0 = some ((c 0).length : Int)) :
    ∃ img, (openImage w.devices.length sizes).run (holding c) = .ok img ∧
      ∀ a ∈ w.assigned xs, w.Served img c a := by
  obtain ⟨img, hopen, hwritten⟩ :=
    writtenAs_open h hne htime htimeNs hbits henc hok hnew hpos hc hsizes
  exact ⟨img, hopen, fun a ha => served_written hwritten ha⟩

theorem tailTree_encodable : ∀ q ∈ tailTree, q.1.entry.Encodable q.1.direntSize := by
  intro q hq
  obtain rfl | rfl : q = (⟨_, _, _⟩, ⟨0, 0, [⟨[102], 3, 1⟩]⟩) ∨ q = (⟨_, _, _⟩, ⟨0, 0, []⟩) := by
    simpa [tailTree, ErofsWriter.planned, tailSet, ErofsWriter.planLayout,
      ErofsWriter.planEntries] using hq
  · exact ⟨.inr (.inl rfl), by decide, by decide, by decide, by decide, by decide, by decide,
      by decide, fun hl => absurd hl (by decide), by decide, by decide⟩
  · exact ⟨.inl rfl, by decide, by decide, by decide, by decide, by decide, by decide, by decide,
      fun hl => absurd hl (by decide), by decide, by decide⟩

/-- A directory of four files: one beside its inode and with an attribute, one in blocks of its own,
a symlink, and the one with chunks and a tail. -/
def mixedSet : List (ErofsEntry × ℕ) :=
  [({ mode := Mode.dir, nlink := 2, name := [], path := [] }, 79),
    ({ mode := Mode.reg, nlink := 1, size := 5, name := [97], path := [[97]]
       data := some { bytes := [1, 2, 3, 4, 5] }
       xattrs := [(ascii ['u', 's', 'e', 'r', '.', 'a'], ascii ['b'])] }, 0),
    ({ mode := Mode.reg, nlink := 1, size := 700, name := [98], path := [[98]]
       data := some { bytes := List.replicate 700 7 } }, 0),
    ({ mode := Mode.symlink, nlink := 1, size := 1, name := [99], path := [[99]]
       symTarget := [97] }, 0),
    (tailEntry, 0)]

/-- The directory, with the nids its files are given. -/
def mixedDir : ErofsDir := ⟨0, 0, [⟨[97], 4, 1⟩, ⟨[98], 6, 1⟩, ⟨[99], 7, 7⟩, ⟨[102], 9, 1⟩]⟩

/-- The set as it is written. -/
def mixedTree : List (Planned × ErofsDir) :=
  (tailWriter.planned mixedSet).zip (mixedDir :: List.replicate 4 ⟨0, 0, []⟩)

theorem mixedDir_ok : mixedDir.Ok := by
  refine ⟨by decide, ?_, by decide, by decide, by decide, by decide⟩
  intro de hde
  obtain rfl | rfl | rfl | rfl : de = ⟨[97], 4, 1⟩ ∨ de = ⟨[98], 6, 1⟩ ∨ de = ⟨[99], 7, 7⟩ ∨
      de = ⟨[102], 9, 1⟩ := by simpa [mixedDir] using hde
  all_goals exact ⟨by decide, by decide, by decide⟩

theorem mixedTree_prepared : tailWriter.Prepared mixedTree := by
  refine ⟨⟨9, by decide, by decide, rfl⟩, by decide, ⟨mixedSet, rfl⟩, ?_⟩
  intro q hq
  obtain rfl | hq := List.mem_cons.1 hq
  · exact ⟨by decide, by decide, fun h => absurd h (by decide), by decide, fun _ => by decide,
      fun _ => mixedDir_ok⟩
  obtain rfl | hq := List.mem_cons.1 hq
  · exact ⟨by decide, by decide, fun _ _ _ => ⟨_, rfl, by decide⟩, by decide,
      fun h => absurd h (by decide), fun h => absurd h (by decide)⟩
  obtain rfl | hq := List.mem_cons.1 hq
  · exact ⟨by decide, by decide, fun _ _ _ => ⟨_, rfl, by decide +kernel⟩, by decide,
      fun h => absurd h (by decide), fun h => absurd h (by decide)⟩
  obtain rfl | hq := List.mem_cons.1 hq
  · exact ⟨by decide, by decide, fun h => absurd h (by decide), by decide,
      fun h => absurd h (by decide), fun h => absurd h (by decide)⟩
  obtain rfl := List.mem_singleton.1 hq
  exact ⟨by decide, by decide, fun _ h => absurd (by decide +kernel) h, by decide,
    fun h => absurd h (by decide), fun h => absurd h (by decide)⟩

theorem mixedTree_encodable : ∀ q ∈ mixedTree, q.1.entry.Encodable q.1.direntSize := by
  intro q hq
  obtain rfl | hq := List.mem_cons.1 hq
  · exact ⟨.inr (.inl rfl), by decide, by decide, by decide, by decide, by decide, by decide,
      by decide, fun hl => absurd hl (by decide), by decide, by decide⟩
  obtain rfl | hq := List.mem_cons.1 hq
  · exact ⟨.inl rfl, by decide, by decide, by decide, by decide, by decide, by decide, by decide,
      fun hl => absurd hl (by decide), by decide, by decide⟩
  obtain rfl | hq := List.mem_cons.1 hq
  · exact ⟨.inl rfl, by decide, by decide, by decide, by decide, by decide, by decide, by decide,
      fun hl => absurd hl (by decide), by decide, by decide⟩
  obtain rfl | hq := List.mem_cons.1 hq
  · exact ⟨.inr (.inr (.inl rfl)), by decide, by decide, by decide, by decide, by decide,
      by decide, by decide, fun _ => by decide, by decide, by decide⟩
  obtain rfl := List.mem_singleton.1 hq
  exact ⟨.inl rfl, by decide, by decide, by decide, by decide, by decide, by decide, by decide,
    fun hl => absurd hl (by decide), by decide, by decide⟩

/-- All five entries of the set are served, at the nids the directory has and in all the layouts the
writer uses. -/
theorem mixedTree_served :
    ∃ out' img, tailWriter.write mixedTree {} = .ok out' ∧
      (openImage 0 fun _ => none).run (holding fun _ => out'.bytes) = .ok img ∧
      (tailWriter.assigned mixedTree).map (·.plan.nid) = [0, 4, 6, 7, 9] ∧
      (tailWriter.assigned mixedTree).map (·.plan.layout) =
        [.flatInline, .flatInline, .flatPlain, .flatInline, .chunkBased] ∧
      ∀ a ∈ tailWriter.assigned mixedTree, tailWriter.Served img (fun _ => out'.bytes) a := by
  have hlimits : tailWriter.checkLimits (mixedTree.map Prod.fst) = .ok () := by decide +kernel
  obtain ⟨out', hok⟩ := @write_never tailWriter mixedTree {} mixedTree_prepared hlimits
    (by decide) fun _ => rfl
  obtain ⟨img, hopen, hserved⟩ := @entries_served tailWriter mixedTree (fun _ => out'.bytes)
    (fun _ => none) {} out' mixedTree_prepared (by decide +kernel) (by decide) (by decide) rfl
    mixedTree_encodable hok rfl rfl rfl (.inl rfl)
  exact ⟨out', img, hok, hopen, by decide +kernel, by decide +kernel, hserved⟩

end Calls

end Erofs
