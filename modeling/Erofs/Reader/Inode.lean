import Erofs.LittleEndian
import Erofs.Reader.Image

/-!
# Inodes

Decoding an on-disk inode: `decodeInode`, `checkInodeFormat`, `finishInfo` and `readInfo` of
`erofs.go`.  An inode's size is kept as the unsigned number on disk, so that a size the source
calls negative is one from `2 ^ 63` up; `readInfo` refuses those.

The main results: `readInfo_asks`, that reading an inode stays inside the image, and
`readInfo_ok`, what every inode it returns satisfies.
-/

namespace Erofs

open GoPath LittleEndian Oracle

/-- The data layouts of `i_format`. -/
inductive Layout
  | flatPlain | compressedFull | flatInline | compressedCompact | chunkBased
  | unknown (n : ℕ)
  deriving DecidableEq

/-- The layout a number stands for. -/
def Layout.ofNat : ℕ → Layout
  | 0 => .flatPlain
  | 1 => .compressedFull
  | 2 => .flatInline
  | 3 => .compressedCompact
  | 4 => .chunkBased
  | n => .unknown n

/-- `inode`. -/
structure Inode where
  name : Bytes := []
  nid : ℕ
  icsize : ℕ
  xsize : ℕ := 0
  inodeLayout : Layout
  inodeData : ℕ
  startHi : ℕ := 0
  addr48 : Bool := false
  size : ℕ
  mode : FileMode
  rawMode : Mode
  uid : ℕ := 0
  gid : ℕ := 0
  nlink : ℕ := 1
  mtime : ℕ := 0
  mtimeNs : ℕ := 0
  deriving DecidableEq

namespace Inode

/-- `flatDataOffset`. -/
def flatDataOffset (ino : Inode) : ℕ := ino.icsize + ino.xsize

/-- `startBlock`. -/
def startBlock (ino : Inode) : ℕ := ino.inodeData + 2 ^ 32 * ino.startHi

/-- `nullStartBlock`. -/
def nullStartBlock (start : ℕ) (addr48 : Bool) : Bool :=
  let bits := if addr48 then 48 else 32
  start % 2 ^ bits == 2 ^ bits - 1

/-- `nullAddress`. -/
def nullAddress (ino : Inode) : Bool :=
  ino.inodeLayout == .flatPlain && nullStartBlock ino.startBlock ino.addr48

/-- `uint16(ino.inodeData)`, the chunk format. -/
def chunkFormat (ino : Inode) : ℕ := ino.inodeData % 2 ^ 16

/-- `chunkFmt & LayoutChunkFormatIndexes != 0`. -/
def chunkIndexed (ino : Inode) : Bool := ino.chunkFormat &&& 0x20 != 0

/-- `chunkFmt & LayoutChunkFormat48Bit != 0`. -/
def chunk48Bit (ino : Inode) : Bool := ino.chunkFormat &&& 0x40 != 0

/-- `chunkFmt &^ (LayoutChunkFormatBits | LayoutChunkFormatIndexes) != 0`. -/
def chunkUnsupported (ino : Inode) : Bool := ino.chunkFormat &&& 0xffc0 != 0

end Inode

/-- `err != nil && !errors.Is(err, io.EOF)`, and the error. -/
def Answer.hardError (a : Answer) : Option GoError := a.err.filter fun e => !e.is .eof

/-! ## Decoding -/

/-- `checkInodeFormat`. -/
def checkInodeFormat (nid format : ℕ) : Except GoError Unit :=
  let layout := (format &&& 0xe) / 2
  if format &&& 0xffe0 ≠ 0 then
    .error (errorf "inode %d: i_format %#x: %w" [.int nid, .int format] .notImplemented)
  else if 5 ≤ layout ∨ layout = 1 ∨ layout = 3 then
    .error (errorf "inode %d: datalayout %d: %w" [.int nid, .int layout] .notImplemented)
  else .ok ()

/-- `checkChunkFormat`. -/
def checkChunkFormat (ino : Inode) : Except GoError Unit :=
  if ino.inodeLayout = .chunkBased ∧ ino.chunkFormat &&& 0xff80 ≠ 0 then
    .error (errorf "unsupported chunk format %#x of nid %d: %w"
      [.int ino.chunkFormat, .int ino.nid] .notImplemented)
  else .ok ()

/-- `xattrBodySize`. -/
def xattrBodySize (nid xcnt : ℕ) : Except GoError ℕ :=
  if xcnt = 1 then
    .error (errorf "inode %d: xattr body of only its header: %w" [.int nid] .notImplemented)
  else .ok ((xcnt - 1) * Disk.sizeXattrEntry + Disk.sizeXattrBodyHeader)

/-- A compact inode in `buf`. -/
def decodeCompact (sb : SuperBlock) (name : Bytes) (nid : ℕ) (buf : Bytes) (format : ℕ) : Inode :=
  let mode : Mode := BitVec.ofNat 16 (field buf 4 2)
  let nb := field buf 6 2
  -- with the nlink-1 bit `i_nb` is the start block's high half, not the link count
  let nlink1 := mode.typ != Mode.dir && format &&& 0x10 != 0
  { name, nid
    icsize := Disk.sizeInodeCompact
    inodeLayout := .ofNat ((format &&& 0xe) / 2)
    inodeData := field buf 16 4
    startHi := if nlink1 then nb else 0
    addr48 := nlink1
    size := field buf 8 4
    mode := eroFSModeToGoFileMode mode
    rawMode := mode
    uid := field buf 24 2
    gid := field buf 26 2
    nlink := if nlink1 then 1 else nb
    mtime := (sb.buildTime + field buf 12 4) % 2 ^ 64
    mtimeNs := sb.buildTimeNs }

/-- An extended inode in `buf`. -/
def decodeExtended (name : Bytes) (nid : ℕ) (buf : Bytes) (format : ℕ) : Inode :=
  let mode : Mode := BitVec.ofNat 16 (field buf 4 2)
  { name, nid
    icsize := Disk.sizeInodeExtended
    inodeLayout := .ofNat ((format &&& 0xe) / 2)
    inodeData := field buf 16 4
    startHi := field buf 6 2
    addr48 := true
    size := field buf 8 8
    mode := eroFSModeToGoFileMode mode
    rawMode := mode
    uid := field buf 24 4
    gid := field buf 28 4
    nlink := field buf 44 4
    mtime := field buf 32 8
    mtimeNs := field buf 40 4 }

/-- `decodeInode`; `i_xattr_icount` is the field at 2 in both formats. -/
def decodeInode (sb : SuperBlock) (name : Bytes) (nid : ℕ) (buf : Bytes) (format : ℕ) :
    Except GoError Inode :=
  if format &&& 1 = 0 then .ok (decodeCompact sb name nid buf format)
  else if buf.length < Disk.sizeInodeExtended then
    .error (errorf "extended inode %d truncated: %w" [.int nid] .corrupt)
  else .ok (decodeExtended name nid buf format)

/-- What `readInfo` makes of a panic: here of the slice `buf[start:end]` whose end is negative. -/
def formatError (sliceEnd : Int) : GoError :=
  errorf "file format error: %v: %w"
    [.text "runtime error: slice bounds out of range", .int sliceEnd] .corrupt

/-- The end of a fast symlink's target is no `int64`, so that it wraps and the slice panics. -/
def Inode.endWraps (ino : Inode) : Bool := 2 ^ 63 ≤ ino.flatDataOffset + ino.size

/-- The fast symlink test of `finishInfo`. -/
def checkFastSymlink (buf : Bytes) (ino : Inode) : Except GoError Unit :=
  if !ino.mode.has FileMode.symlink || ino.inodeLayout != .flatInline then .ok ()
  else if ino.size = 0 then
    .error (errorf "inode %d: invalid fast symlink size 0: %w" [.int ino.nid] .corrupt)
  else if ino.endWraps then
    .error (formatError (int64 (ino.flatDataOffset + ino.size : ℕ)))
  else if ino.flatDataOffset + ino.size ≤ buf.length ∧
      nulByte ∈ (buf.drop ino.flatDataOffset).take ino.size then
    .error (errorf "inode %d: invalid fast symlink target: %w" [.int ino.nid] .corrupt)
  else .ok ()

/-- The xattr body's size for an `i_xattr_icount`, none at zero. -/
def xattrSize (nid xcnt : ℕ) : Except GoError ℕ :=
  if xcnt = 0 then .ok 0 else xattrBodySize nid xcnt

/-- `finishInfo`. -/
def finishInfo (buf : Bytes) (xcnt : ℕ) (ino : Inode) : Except GoError Inode := do
  let xsize ← xattrSize ino.nid xcnt
  let ino := { ino with xsize }
  checkChunkFormat ino
  checkFastSymlink buf ino
  return ino

/-- The two checks of `readInfo` between decoding and `finishInfo`. -/
def checkDecoded (ftype : FileMode) (ino : Inode) : Except GoError Unit :=
  if 2 ^ 63 ≤ ino.size then
    .error (errorf "inode %d declares a size of %d bytes: %w"
      [.int ino.nid, .int (int64 ino.size)] .corrupt)
  else if ftype ≠ ino.mode.typ then
    .error (errorf "inode %d has type %v but its dirent says %v: %w"
      [.int ino.nid, .int ino.mode.typ.toNat, .int ftype.toNat] .corrupt)
  else .ok ()

/-- `readInfo` after its `ReadAt`. -/
def parseInfo (sb : SuperBlock) (name : Bytes) (nid : ℕ) (ftype : FileMode) (a : Answer) :
    Except GoError Inode :=
  match a.hardError with
  | some e => .error e
  | none =>
    if a.data.length < Disk.sizeInodeCompact then
      .error (errorf "inode %d truncated: %w" [.int nid] .corrupt)
    else do
      let format := field a.data 0 2
      checkInodeFormat nid format
      let ino ← decodeInode sb name nid a.data format
      checkDecoded ftype ino
      finishInfo a.data (field a.data 2 2) ino

namespace Image

variable (img : Image)

/-- The length `readInfo` asks for: to the end of the inode's block, or the room of an extended
inode where the block has less. -/
def inodeWindow (nid : ℕ) : ℕ :=
  max Disk.sizeInodeExtended (img.blockSize - img.inodeStart nid % img.blockSize)

/-- `readInfo` of a file that has none cached. -/
def readInfo (name : Bytes) (nid : ℕ) (ftype : FileMode) : Fallible Inode :=
  match img.checkNid nid with
  | .error e => .done (.error e)
  | .ok _ => (readerAt 0 (img.inodeStart nid) (img.inodeWindow nid)).bind fun a =>
      .done (parseInfo img.sb name nid ftype a)

end Image

/-! ## What an accepted inode is -/

/-- What `readInfo` guarantees of an inode: its size is an `int64`, its layout one the reader
follows, its type the dirent's, and its xattr body no longer than 16 bits of entries. -/
structure Inode.Accepted (ino : Inode) (nid : ℕ) (ftype : FileMode) : Prop where
  nid_eq : ino.nid = nid
  size_lt : ino.size < 2 ^ 63
  typ_eq : ino.mode.typ = ftype
  layout : ino.inodeLayout = .flatPlain ∨ ino.inodeLayout = .flatInline ∨
    ino.inodeLayout = .chunkBased
  icsize : ino.icsize = 32 ∨ ino.icsize = 64
  xsize_lt : ino.xsize < 2 ^ 19

section Accepted

variable {sb : SuperBlock} {name buf : Bytes} {nid format xcnt : ℕ} {ftype : FileMode} {a : Answer}
  {ino ino' : Inode}

theorem except_bind_ok {ε α β : Type} {x : Except ε α} {f : α → Except ε β} {b : β}
    (h : x >>= f = .ok b) : ∃ a, x = .ok a ∧ f a = .ok b := by
  cases x with
  | error e => cases h
  | ok a => exact ⟨a, rfl, h⟩

/-- A check that throws was passed. -/
theorem guard_ok {ε α β : Type} {c : Prop} [Decidable c] {e : ε} {f : α → Except ε β}
    {x : Except ε β} {b : β} (h : (if c then throw e >>= f else x) = .ok b) : ¬ c ∧ x = .ok b := by
  split_ifs at h with hc
  · cases h
  · exact ⟨hc, h⟩

theorem mapError_ok {ε α : Type} {x : Except ε α} {f : ε → ε} {a : α} (h : x.mapError f = .ok a) :
    x = .ok a := by
  cases x with
  | error e => cases h
  | ok a =>
    cases h
    rfl

theorem checkInodeFormat_ok (h : checkInodeFormat nid format = .ok ()) :
    Layout.ofNat ((format &&& 0xe) / 2) = .flatPlain ∨
      Layout.ofNat ((format &&& 0xe) / 2) = .flatInline ∨
      Layout.ofNat ((format &&& 0xe) / 2) = .chunkBased := by
  unfold checkInodeFormat at h
  generalize (format &&& 0xe) / 2 = l at h ⊢
  dsimp only at h
  split_ifs at h with h₁ h₂
  have hl : l = 0 ∨ l = 2 ∨ l = 4 := by omega
  rcases hl with rfl | rfl | rfl <;> simp [Layout.ofNat]

theorem decodeInode_ok (h : decodeInode sb name nid buf format = .ok ino) :
    ino.nid = nid ∧ ino.inodeLayout = .ofNat ((format &&& 0xe) / 2) ∧
      (ino.icsize = 32 ∨ ino.icsize = 64) := by
  unfold decodeInode at h
  split_ifs at h <;> cases h
  · exact ⟨rfl, rfl, .inl rfl⟩
  · exact ⟨rfl, rfl, .inr rfl⟩

theorem checkDecoded_ok (h : checkDecoded ftype ino = .ok ()) :
    ino.size < 2 ^ 63 ∧ ino.mode.typ = ftype := by
  unfold checkDecoded at h
  split_ifs at h with h₁ h₂
  exact ⟨not_le.1 h₁, (not_not.1 h₂).symm⟩

theorem xattrSize_ok {xsize : ℕ} (hx : xcnt < 2 ^ 16) (h : xattrSize nid xcnt = .ok xsize) :
    xsize < 2 ^ 19 := by
  unfold xattrSize xattrBodySize at h
  simp only [Disk.sizeXattrEntry, Disk.sizeXattrBodyHeader] at h
  split_ifs at h <;> cases h <;> omega

/-- `finishInfo` fills in the size of the xattr body and nothing else. -/
theorem finishInfo_ok (h : finishInfo buf xcnt ino = .ok ino') :
    ∃ xsize, xattrSize ino.nid xcnt = .ok xsize ∧ ino' = { ino with xsize } := by
  obtain ⟨xsize, hx, h⟩ := except_bind_ok h
  obtain ⟨_, -, h⟩ := except_bind_ok h
  obtain ⟨_, -, h⟩ := except_bind_ok h
  cases h
  exact ⟨xsize, hx, rfl⟩

theorem parseInfo_ok (h : parseInfo sb name nid ftype a = .ok ino) : ino.Accepted nid ftype := by
  unfold parseInfo at h
  cases he : a.hardError with
  | some e => rw [he] at h; cases h
  | none =>
    rw [he] at h
    dsimp only at h
    split_ifs at h
    obtain ⟨_, hf, h⟩ := except_bind_ok h
    obtain ⟨ino₀, hd, h⟩ := except_bind_ok h
    obtain ⟨_, hc, h⟩ := except_bind_ok h
    obtain ⟨xsize, hx, rfl⟩ := finishInfo_ok h
    obtain ⟨hnid, hlay, hic⟩ := decodeInode_ok hd
    obtain ⟨hsize, htyp⟩ := checkDecoded_ok hc
    have hlayout := checkInodeFormat_ok hf
    rw [← hlay] at hlayout
    exact ⟨hnid, hsize, htyp, hlayout, hic, xattrSize_ok (field_lt _ _ _) hx⟩

/-- The fields of an accepted inode that place its data, as they stand in its bytes. -/
theorem parseInfo_fields (h : parseInfo sb name nid ftype a = .ok ino) :
    ino.inodeLayout = .ofNat ((field a.data 0 2 &&& 0xe) / 2) ∧
      ino.icsize = (if field a.data 0 2 &&& 1 = 0 then 32 else 64) ∧
      xattrSize nid (field a.data 2 2) = .ok ino.xsize ∧
      ino.inodeData = field a.data 16 4 ∧
      ino.size = field a.data 8 (if field a.data 0 2 &&& 1 = 0 then 4 else 8) := by
  unfold parseInfo at h
  cases he : a.hardError with
  | some e => rw [he] at h; cases h
  | none =>
    rw [he] at h
    dsimp only at h
    split_ifs at h
    obtain ⟨_, -, h⟩ := except_bind_ok h
    obtain ⟨ino₀, hd, h⟩ := except_bind_ok h
    obtain ⟨_, -, h⟩ := except_bind_ok h
    obtain ⟨xsize, hx, rfl⟩ := finishInfo_ok h
    have hnid := (decodeInode_ok hd).1
    rw [hnid] at hx
    unfold decodeInode at hd
    split_ifs at hd with hf <;> cases hd
    · exact ⟨rfl, by rw [if_pos hf]; rfl, hx, rfl, by rw [if_pos hf]; rfl⟩
    · exact ⟨rfl, by rw [if_neg hf]; rfl, hx, rfl, by rw [if_neg hf]; rfl⟩

namespace Image

variable {img : Image} {o : Req → Answer}

/-- Every inode `readInfo` returns lies in the image and is one the reader follows. -/
theorem readInfo_ok (h : (img.readInfo name nid ftype).run o = .ok ino) :
    img.checkNid nid = .ok () ∧ ino.Accepted nid ftype := by
  unfold readInfo at h
  cases hc : img.checkNid nid with
  | error e => rw [hc] at h; cases h
  | ok u =>
    rw [hc] at h
    exact ⟨rfl, parseInfo_ok h⟩

theorem readInfo_parse (h : (img.readInfo name nid ftype).run o = .ok ino) :
    ∃ a, a = (readerAt 0 (img.inodeStart nid) (img.inodeWindow nid)).run o ∧
      parseInfo img.sb name nid ftype a = .ok ino := by
  unfold readInfo at h
  cases hc : img.checkNid nid with
  | error e => rw [hc] at h; cases h
  | ok u =>
    rw [hc] at h
    exact ⟨_, rfl, h⟩

/-- Reading an inode asks for no offset outside the image. -/
theorem readInfo_asks (hs : 0 < img.size) : (img.readInfo name nid ftype).Asks o img.InImage := by
  unfold readInfo
  cases hc : img.checkNid nid with
  | error e => exact Prog.asks_done
  | ok u =>
    obtain ⟨-, hend⟩ := checkNid_ok hc
    have hfit := hend hs
    exact Prog.asks_bind (readerAt_asks (inImage_of (by omega) (by omega))) Prog.asks_done

end Image

end Accepted

end Erofs
