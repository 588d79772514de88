import Erofs.Writer.Layout

/-!
# Writing an inode

`writeInode` (`writer.go`) writes an inode in one of two formats.  The compact one has 16 bits for
an owner and for the link count, 32 for the size, and no time; `planLayout` chooses it where nothing
is lost by that.

The main results:

* `inodeFormat_reads` — what the reader takes from the format word;
* `inode_read_back` — `decodeInode` and `finishInfo` give back what was written.
-/

namespace Erofs

open GoPath LittleEndian

/-- `inodeFormat`. -/
def inodeFormat (layout : Layout) (compact : Bool) : ℕ :=
  layout.toNat * 2 ||| if compact then 0 else 1

namespace ErofsWriter

variable (w : ErofsWriter)

/-- `inodeData` of `writeInode`: the chunk format, a start block, or a device number. -/
def inodeData (e : ErofsEntry) (p : Plan) (dataBlkAddr : ℕ) : ℕ :=
  if e.mode.typ = Mode.reg then
    if p.layout = .chunkBased then 0x20 ||| w.entryChunkBits p.chunkBits
    else if p.layout = .flatPlain ∧ 0 < e.size then dataBlkAddr
    else 0
  else if e.mode.typ = Mode.dir ∨ e.mode.typ = Mode.symlink then
    if p.layout = .flatPlain then dataBlkAddr else 0
  else if e.mode.typ = Mode.chrdev ∨ e.mode.typ = Mode.blkdev ∨ e.mode.typ = Mode.fifo ∨
      e.mode.typ = Mode.sock then e.rdev
  else 0

/-- The fields of a compact inode. -/
def compactFields (e : ErofsEntry) (direntSize : ℕ) (p : Plan) (dataBlkAddr : ℕ) : List (ℕ × ℕ) :=
  [(2, inodeFormat p.layout true), (2, xattrCount p.xattrSize), (2, e.mode.toNat), (2, e.nlink),
    (4, inodeFileSize e direntSize), (4, 0), (4, w.inodeData e p dataBlkAddr), (4, 0), (2, e.uid),
    (2, e.gid), (4, 0)]

/-- The fields of an extended inode. -/
def extendedFields (e : ErofsEntry) (direntSize : ℕ) (p : Plan) (dataBlkAddr : ℕ) : List (ℕ × ℕ) :=
  [(2, inodeFormat p.layout false), (2, xattrCount p.xattrSize), (2, e.mode.toNat), (2, 0),
    (8, inodeFileSize e direntSize), (4, w.inodeData e p dataBlkAddr), (4, 0), (4, e.uid),
    (4, e.gid), (8, e.mtime), (4, e.mtimeNs), (4, e.nlink), (16, 0)]

/-- `writeInode`. -/
def writeInode (e : ErofsEntry) (direntSize : ℕ) (p : Plan) (dataBlkAddr : ℕ) : Bytes :=
  record (if p.compact then w.compactFields e direntSize p dataBlkAddr
    else w.extendedFields e direntSize p dataBlkAddr)

end ErofsWriter

/-! ## What an entry may hold -/

/-- The seven types of an inode. -/
def Mode.Typed (m : Mode) : Prop :=
  m.typ = Mode.reg ∨ m.typ = Mode.dir ∨ m.typ = Mode.symlink ∨ m.typ = Mode.chrdev ∨
    m.typ = Mode.blkdev ∨ m.typ = Mode.fifo ∨ m.typ = Mode.sock

/-- An entry with the values its fields have room for, and attributes that pass `checkLimits`. -/
structure ErofsEntry.Encodable (e : ErofsEntry) (direntSize : ℕ) : Prop where
  typed : e.mode.Typed
  uid : e.uid < 2 ^ 32
  gid : e.gid < 2 ^ 32
  nlink : e.nlink < 2 ^ 32
  mtime : e.mtime < 2 ^ 64
  mtimeNs : e.mtimeNs < 2 ^ 32
  size : inodeFileSize e direntSize < 2 ^ 63
  rdev : e.rdev < 2 ^ 32
  target : e.mode.typ = Mode.symlink → e.symTarget ≠ [] ∧ nulByte ∉ e.symTarget
  names : (e.xattrs.map (·.1)).Nodup
  xattrs : xattrICount (calcXattrSize e.xattrs) ≤ maxXattrICount

/-- The inode has what the entry has, in the layout and at the place of its plan. -/
structure Inode.ReadsBack (ino : Inode) (e : ErofsEntry) (direntSize : ℕ) (p : Plan)
    (dataBlkAddr : ℕ) : Prop where
  rawMode : ino.rawMode = e.mode
  mode : ino.mode = eroFSModeToGoFileMode e.mode
  uid : ino.uid = e.uid
  gid : ino.gid = e.gid
  nlink : ino.nlink = e.nlink
  mtime : ino.mtime = e.mtime
  mtimeNs : ino.mtimeNs = e.mtimeNs
  size : ino.size = inodeFileSize e direntSize
  rdev : e.mode.typ = Mode.chrdev ∨ e.mode.typ = Mode.blkdev →
    rdevFromMode ino.rawMode ino.inodeData = e.rdev
  layout : ino.inodeLayout = p.layout
  xsize : ino.xsize = p.xattrSize
  /-- What trails the inode starts behind the attributes. -/
  trailing : ino.flatDataOffset = inodeCoreSize p.compact + p.xattrSize
  /-- Data in blocks of its own starts at the address the entry was given. -/
  start : p.layout = .flatPlain →
    e.mode.typ = Mode.reg ∧ 0 < e.size ∨ e.mode.typ = Mode.dir ∨ e.mode.typ = Mode.symlink →
    ino.startBlock = dataBlkAddr

/-! ## The format word -/

theorem inodeFormat_reads {layout : Layout}
    (h : layout = .flatPlain ∨ layout = .flatInline ∨ layout = .chunkBased) (compact : Bool) :
    inodeFormat layout compact < 2 ^ 16 ∧
      (inodeFormat layout compact &&& 1 = 0 ↔ compact = true) ∧
      Layout.ofNat ((inodeFormat layout compact &&& 0xe) / 2) = layout ∧
      inodeFormat layout compact &&& 0x10 = 0 := by
  rcases h with rfl | rfl | rfl <;> cases compact <;> decide

namespace ErofsWriter

variable {w : ErofsWriter} {e : ErofsEntry} {direntSize currentOff dataBlkAddr : ℕ} {p : Plan}
  {sb : SuperBlock} {name buf rest : Bytes} {nid : ℕ}

/-- The chunk format fits its word, and has no bit the reader refuses. -/
theorem chunkFormat_reads {k : ℕ} (h : k ≤ 31) :
    (0x20 ||| k) < 2 ^ 32 ∧ (0x20 ||| k) % 2 ^ 16 &&& 0xff80 = 0 ∧
      (0x20 ||| k) % 2 ^ 16 &&& 0x20 ≠ 0 ∧ (0x20 ||| k) % 2 ^ 16 &&& 0x1f = k := by
  interval_cases k <;> decide

theorem inodeData_lt (hw : w.chunkBits = 0) (he : e.Encodable direntSize)
    (hd : dataBlkAddr < 2 ^ 32) :
    w.inodeData e (w.planEntry e direntSize currentOff).1 dataBlkAddr < 2 ^ 32 := by
  have hbits : w.entryChunkBits (w.planEntry e direntSize currentOff).1.chunkBits ≤ 31 :=
    entryChunkBits_le hw _
  have hrdev := he.rdev
  unfold inodeData
  split_ifs
  · exact (chunkFormat_reads hbits).1
  all_goals omega

/-- What a compact inode needs. -/
theorem isCompact_iff : w.isCompact e direntSize = true ↔
    e.uid ≤ 0xffff ∧ e.gid ≤ 0xffff ∧ e.nlink ≤ 0xffff ∧ inodeFileSize e direntSize ≤ 0xffffffff ∧
      e.mtime = w.buildTime ∧ e.mtimeNs = w.buildTimeNs := by
  simp [isCompact, and_assoc]

/-! ## Decoding -/

/-- What `decodeInode` makes of an inode, `data` being its `i_u`. -/
structure Holds (ino : Inode) (e : ErofsEntry) (direntSize : ℕ) (p : Plan) (data : ℕ) : Prop where
  rawMode : ino.rawMode = e.mode
  mode : ino.mode = eroFSModeToGoFileMode e.mode
  uid : ino.uid = e.uid
  gid : ino.gid = e.gid
  nlink : ino.nlink = e.nlink
  mtime : ino.mtime = e.mtime
  mtimeNs : ino.mtimeNs = e.mtimeNs
  size : ino.size = inodeFileSize e direntSize
  layout : ino.inodeLayout = p.layout
  icsize : ino.icsize = inodeCoreSize p.compact
  inodeData : ino.inodeData = data
  startHi : ino.startHi = 0

theorem ofNat_mode (m : Mode) : BitVec.ofNat 16 m.toNat = m := by
  rw [BitVec.ofNat_toNat, BitVec.setWidth_eq]

theorem decodeCompact_record (hlayout : p.layout = .flatPlain ∨ p.layout = .flatInline ∨
      p.layout = .chunkBased) (hp : p.compact = true) (hcompact : w.isCompact e direntSize = true)
    (hmtime : e.mtime < 2 ^ 64) (hdata : w.inodeData e p dataBlkAddr < 2 ^ 32)
    (hsb : sb.buildTime = w.buildTime ∧ sb.buildTimeNs = w.buildTimeNs)
    (hbuf : buf <+: record (w.compactFields e direntSize p dataBlkAddr) ++ rest)
    (hlen : 32 ≤ buf.length) :
    ∃ ino, decodeInode sb name nid buf (field buf 0 2) = .ok ino ∧
      field buf 2 2 = xattrCount p.xattrSize ∧ ino.nid = nid ∧ ino.xsize = 0 ∧
      Holds ino e direntSize p (w.inodeData e p dataBlkAddr) := by
  obtain ⟨huid, hgid, hnlink, hsize, htime, hns⟩ := isCompact_iff.1 hcompact
  obtain ⟨hlt, hbit, hlay, hone⟩ := inodeFormat_reads hlayout true
  have hmode := e.mode.isLt
  have hcount : xattrCount p.xattrSize < 2 ^ 16 := Nat.mod_lt _ (by decide)
  have hfields : HasFields buf 0 (w.compactFields e direntSize p dataBlkAddr) :=
    hasFields_record hbuf (by simpa [compactFields] using hlen)
  simp only [compactFields, HasFields, Nat.reduceAdd, Nat.reducePow] at hfields
  obtain ⟨f₀, f₂, f₄, f₆, f₈, f₁₂, f₁₆, -, f₂₄, f₂₆, -⟩ := hfields
  replace f₀ := f₀ hlt
  replace f₂ := f₂ hcount
  replace f₄ := f₄ hmode
  replace f₆ := f₆ (by omega)
  replace f₈ := f₈ (by omega)
  replace f₁₂ := f₁₂ (by decide)
  replace f₁₆ := f₁₆ hdata
  replace f₂₄ := f₂₄ (by omega)
  replace f₂₆ := f₂₆ (by omega)
  rw [decodeInode, f₀, if_pos (hbit.2 rfl)]
  refine ⟨_, rfl, f₂, rfl, rfl, ?_⟩
  constructor <;>
    simp only [decodeCompact, f₄, f₆, f₈, f₁₂, f₁₆, f₂₄, f₂₆, ofNat_mode, hlay, hone, hsb, hp,
      inodeCoreSize, Nat.add_zero, bne_self_eq_false, Bool.and_false, Bool.false_eq_true, if_false,
      if_true, htime, hns]
  rw [← htime]
  exact Nat.mod_eq_of_lt hmtime

theorem decodeExtended_record (hlayout : p.layout = .flatPlain ∨ p.layout = .flatInline ∨
      p.layout = .chunkBased) (hp : p.compact = false) (he : e.Encodable direntSize)
    (hdata : w.inodeData e p dataBlkAddr < 2 ^ 32)
    (hbuf : buf <+: record (w.extendedFields e direntSize p dataBlkAddr) ++ rest)
    (hlen : 64 ≤ buf.length) :
    ∃ ino, decodeInode sb name nid buf (field buf 0 2) = .ok ino ∧
      field buf 2 2 = xattrCount p.xattrSize ∧ ino.nid = nid ∧ ino.xsize = 0 ∧
      Holds ino e direntSize p (w.inodeData e p dataBlkAddr) := by
  obtain ⟨hlt, hbit, hlay, -⟩ := inodeFormat_reads hlayout false
  have hmode := e.mode.isLt
  have hsize := he.size
  have hmtime := he.mtime
  have hcount : xattrCount p.xattrSize < 2 ^ 16 := Nat.mod_lt _ (by decide)
  have hfields : HasFields buf 0 (w.extendedFields e direntSize p dataBlkAddr) :=
    hasFields_record hbuf (by simpa [extendedFields] using hlen)
  simp only [extendedFields, HasFields, Nat.reduceAdd, Nat.reducePow] at hfields
  obtain ⟨f₀, f₂, f₄, f₆, f₈, f₁₆, -, f₂₄, f₂₈, f₃₂, f₄₀, f₄₄, -⟩ := hfields
  replace f₀ := f₀ hlt
  replace f₂ := f₂ hcount
  replace f₄ := f₄ hmode
  replace f₆ := f₆ (by decide)
  replace f₈ := f₈ (by omega)
  replace f₁₆ := f₁₆ hdata
  replace f₂₄ := f₂₄ he.uid
  replace f₂₈ := f₂₈ he.gid
  replace f₃₂ := f₃₂ (by omega)
  replace f₄₀ := f₄₀ he.mtimeNs
  replace f₄₄ := f₄₄ he.nlink
  have hext : ¬ inodeFormat p.layout false &&& 1 = 0 := fun h => absurd (hbit.1 h) (by decide)
  have hroom : ¬ buf.length < Disk.sizeInodeExtended := not_lt.2 hlen
  rw [decodeInode, f₀, if_neg hext, if_neg hroom]
  refine ⟨_, rfl, f₂, rfl, rfl, ?_⟩
  constructor <;>
    simp only [decodeExtended, f₄, f₆, f₈, f₁₆, f₂₄, f₂₈, f₃₂, f₄₀, f₄₄, ofNat_mode, hlay, hp,
      inodeCoreSize, Bool.false_eq_true, if_false]

/-- Decoding an inode that was written, in either format. -/
theorem decodeInode_writeInode (hw : w.chunkBits = 0) (he : e.Encodable direntSize)
    (hd : dataBlkAddr < 2 ^ 32)
    (hsb : sb.buildTime = w.buildTime ∧ sb.buildTimeNs = w.buildTimeNs)
    (hp : p = (w.planEntry e direntSize currentOff).1)
    (hbuf : buf <+: w.writeInode e direntSize p dataBlkAddr ++ rest)
    (hlen : inodeCoreSize p.compact ≤ buf.length) :
    ∃ ino, decodeInode sb name nid buf (field buf 0 2) = .ok ino ∧
      field buf 2 2 = xattrCount p.xattrSize ∧ ino.nid = nid ∧ ino.xsize = 0 ∧
      Holds ino e direntSize p (w.inodeData e p dataBlkAddr) := by
  have hlayout : p.layout = .flatPlain ∨ p.layout = .flatInline ∨ p.layout = .chunkBased := by
    rw [hp]
    rcases planEntry_layout (w := w) e direntSize currentOff with h | h | ⟨h, -⟩
    · exact .inl h
    · exact .inr (.inl h)
    · exact .inr (.inr h)
  have hdata : w.inodeData e p dataBlkAddr < 2 ^ 32 := by
    rw [hp]
    exact inodeData_lt hw he hd
  have hcompact : p.compact = w.isCompact e direntSize := by
    rw [hp]
    rfl
  unfold writeInode at hbuf
  cases hc : p.compact with
  | true =>
    rw [hc, if_pos rfl] at hbuf
    rw [hc] at hlen hcompact
    exact decodeCompact_record hlayout hc hcompact.symm he.mtime hdata hsb hbuf hlen
  | false =>
    rw [hc, if_neg (by decide)] at hbuf
    rw [hc] at hlen
    exact decodeExtended_record hlayout hc he hdata hbuf hlen

/-! ## The checks behind decoding -/

variable {ino : Inode}

theorem checkChunkFormat_holds (hw : w.chunkBits = 0)
    (hp : p = (w.planEntry e direntSize currentOff).1)
    (h : Holds ino e direntSize p (w.inodeData e p dataBlkAddr)) :
    checkChunkFormat ino = .ok () := by
  unfold checkChunkFormat
  refine if_neg ?_
  rintro ⟨hlay, hbits⟩
  rw [h.layout] at hlay
  have hreg : e.mode.typ = Mode.reg := reg_of_chunkBased (hp ▸ hlay)
  have hle : w.entryChunkBits p.chunkBits ≤ 31 := by
    rw [hp]
    exact entryChunkBits_le hw _
  rw [Inode.chunkFormat, h.inodeData, inodeData, if_pos hreg, if_pos hlay] at hbits
  exact hbits (chunkFormat_reads hle).2.1

/-- The target behind a fast symlink's attributes is the one that was written. -/
theorem checkFastSymlink_holds (hbs : w.blockSize ≤ 2 ^ 16) (he : e.Encodable direntSize)
    (hp : p = (w.planEntry e direntSize currentOff).1)
    (h : Holds ino e direntSize p (w.inodeData e p dataBlkAddr))
    (hxsize : ino.xsize = calcXattrSize e.xattrs)
    (hbuf : buf <+: w.writeInode e direntSize p dataBlkAddr ++ (xattrBytes e.xattrs ++ rest))
    (hrest : e.mode.typ = Mode.symlink → p.layout = .flatInline → e.symTarget <+: rest) :
    checkFastSymlink buf ino = .ok () := by
  unfold checkFastSymlink
  split_ifs with h₁ h₂ hwraps h₃
  · rfl
  all_goals
    simp only [Bool.or_eq_true, Bool.not_eq_true', bne_iff_ne, ne_eq, not_or, Bool.not_eq_false,
      not_not, h.layout, h.mode] at h₁
    have hlink : e.mode.typ = Mode.symlink := by
      by_contra hne
      rw [has_symlink_of_ne hne] at h₁
      exact absurd h₁.1 (by decide)
    obtain ⟨hne, hnul⟩ := he.target hlink
    have hsize : ino.size = e.symTarget.length := by
      rw [h.size, inodeFileSize, hlink]
      rfl
  · rw [hsize] at h₂
    exact absurd (List.length_eq_zero_iff.1 h₂) hne
  · -- a target in the inode's block ends far below 2⁶³
    have hle := inline_symlink_le hlink (hp ▸ h₁.2)
    rw [← hp] at hle
    rw [Inode.endWraps, decide_eq_true_eq, Inode.flatDataOffset, h.icsize, hxsize, h.size] at hwraps
    omega
  · exfalso
    obtain ⟨hroom, hmem⟩ := h₃
    have hcore : (w.writeInode e direntSize p dataBlkAddr).length = inodeCoreSize p.compact := by
      rw [writeInode, length_record]
      cases p.compact <;> rfl
    have htrail : ino.flatDataOffset =
        (w.writeInode e direntSize p dataBlkAddr ++ xattrBytes e.xattrs).length := by
      rw [List.length_append, hcore, length_xattrBytes he.names, Inode.flatDataOffset, h.icsize,
        hxsize]
    have hdrop : buf.drop ino.flatDataOffset <+: rest := by
      have := hbuf.drop ino.flatDataOffset
      rwa [← List.append_assoc, List.drop_left' htrail.symm] at this
    have hlong : ino.size ≤ (buf.drop ino.flatDataOffset).length := by
      rw [List.length_drop]
      omega
    have htarget : (buf.drop ino.flatDataOffset).take ino.size = e.symTarget := by
      rw [List.prefix_iff_eq_take.1 hdrop, List.take_take, min_eq_left hlong, hsize]
      exact (List.prefix_iff_eq_take.1 (hrest hlink h₁.2)).symm
    rw [htarget] at hmem
    exact hnul hmem
  · rfl

/-! ## The round trip -/

theorem readsBack_of_holds (h : Holds ino e direntSize p (w.inodeData e p dataBlkAddr))
    (hxsize : ino.xsize = p.xattrSize) : ino.ReadsBack e direntSize p dataBlkAddr where
  rawMode := h.rawMode
  mode := h.mode
  uid := h.uid
  gid := h.gid
  nlink := h.nlink
  mtime := h.mtime
  mtimeNs := h.mtimeNs
  size := h.size
  rdev := by
    intro hdev
    rw [h.rawMode, h.inodeData, rdevFromMode, if_pos hdev]
    rcases hdev with hc | hb
    · simp [inodeData, hc, Mode.reg, Mode.dir, Mode.symlink, Mode.chrdev]
    · simp [inodeData, hb, Mode.reg, Mode.dir, Mode.symlink, Mode.blkdev]
  layout := h.layout
  xsize := hxsize
  trailing := by rw [Inode.flatDataOffset, h.icsize, hxsize]
  start := by
    intro hplain htyp
    rw [Inode.startBlock, h.startHi, h.inodeData, Nat.mul_zero, Nat.add_zero]
    rcases htyp with ⟨hreg, hpos⟩ | hdir | hlink
    · simp [inodeData, hreg, hplain, hpos]
    · simp [inodeData, hdir, hplain, Mode.reg, Mode.dir]
    · simp [inodeData, hlink, hplain, Mode.reg, Mode.dir, Mode.symlink]

/-- **Inodes are read back.**  What `writeInode` writes for an entry `planLayout` has placed,
`decodeInode` and `finishInfo` read as it was, from any buffer that holds at least the inode's core;
`rest` is what follows the attributes, the target for a symlink that is kept there. -/
theorem inode_read_back (hw : w.chunkBits = 0) (hbs : w.blockSize ≤ 2 ^ 16)
    (he : e.Encodable direntSize)
    (hd : dataBlkAddr < 2 ^ 32)
    (hsb : sb.buildTime = w.buildTime ∧ sb.buildTimeNs = w.buildTimeNs)
    (hp : p = (w.planEntry e direntSize currentOff).1)
    (hbuf : buf <+: w.writeInode e direntSize p dataBlkAddr ++ (xattrBytes e.xattrs ++ rest))
    (hlen : inodeCoreSize p.compact ≤ buf.length)
    (hrest : e.mode.typ = Mode.symlink → p.layout = .flatInline → e.symTarget <+: rest) :
    ∃ decoded ino, decodeInode sb name nid buf (field buf 0 2) = .ok decoded ∧
      finishInfo buf (field buf 2 2) decoded = .ok ino ∧
      ino.ReadsBack e direntSize p dataBlkAddr := by
  obtain ⟨decoded, hdec, hcount, -, -, h⟩ := decodeInode_writeInode hw he hd hsb hp hbuf hlen
  have hxattr : p.xattrSize = calcXattrSize e.xattrs := by
    rw [hp]
    rfl
  have hsize : xattrSize decoded.nid (field buf 2 2) = .ok p.xattrSize := by
    rw [hcount, hxattr]
    exact xattrSize_xattrCount he.xattrs _
  have h' : Holds { decoded with xsize := p.xattrSize } e direntSize p
      (w.inodeData e p dataBlkAddr) := { h with }
  refine ⟨decoded, _, hdec, ?_, readsBack_of_holds h' rfl⟩
  unfold finishInfo
  rw [hsize]
  change (checkChunkFormat _ >>= fun _ => checkFastSymlink buf _ >>= fun _ => _) = _
  rw [checkChunkFormat_holds hw hp h']
  change (checkFastSymlink buf _ >>= fun _ => _) = _
  rw [checkFastSymlink_holds hbs he hp h' hxattr hbuf hrest]
  rfl

/-- A writer of 4096-byte blocks. -/
def linkWriter : ErofsWriter := { buildTime := 7, blockSize := 4096 }

/-- A symlink to `a` as old as the image, and with one link. -/
def linkEntry : ErofsEntry :=
  { mode := Mode.symlink, mtime := 7, nlink := 1, name := [108], path := [], symTarget := [97] }

/-- The link gets a compact inode with its target behind it. -/
theorem linkEntry_read_back :
    (linkWriter.planEntry linkEntry 0 0).1.compact = true ∧
    (linkWriter.planEntry linkEntry 0 0).1.layout = .flatInline ∧
    ∃ decoded ino,
      decodeInode { blkSizeBits := 12, rootNid := 0, blocks := 1, metaBlkAddr := 0, buildTime := 7 }
        [] 0 (linkWriter.writeInode linkEntry 0 (linkWriter.planEntry linkEntry 0 0).1 0 ++ [97])
        (field (linkWriter.writeInode linkEntry 0 (linkWriter.planEntry linkEntry 0 0).1 0 ++ [97])
          0 2) = .ok decoded ∧
      finishInfo
        (linkWriter.writeInode linkEntry 0 (linkWriter.planEntry linkEntry 0 0).1 0 ++ [97])
        (field (linkWriter.writeInode linkEntry 0 (linkWriter.planEntry linkEntry 0 0).1 0 ++ [97])
          2 2) decoded = .ok ino ∧
      ino.ReadsBack linkEntry 0 (linkWriter.planEntry linkEntry 0 0).1 0 := by
  have htyped : linkEntry.mode.Typed := .inr (.inr (.inl rfl))
  have henc : linkEntry.Encodable 0 := by
    refine ⟨htyped, ?_, ?_, ?_, ?_, ?_, ?_, ?_, ?_, ?_, ?_⟩ <;> decide
  have hrest : linkEntry.symTarget <+: [97] := List.prefix_refl _
  exact ⟨by decide, by decide, inode_read_back rfl (by decide) henc (by decide) ⟨rfl, rfl⟩ rfl
    (List.prefix_refl _) (by decide) fun _ _ => hrest⟩

end ErofsWriter

end Erofs
