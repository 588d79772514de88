import Erofs.Reader.Open
import Erofs.Writer.Build
import Erofs.Writer.XattrWrite

/-!
# Planning the layout

`planLayout` (`layout.go`): for every entry that gets an inode, in order, the format of the inode,
the layout of its data and its place in the metadata area.  The loop is a fold over the offset the
next inode may start at.  A directory's `direntDataSize` is handed to it with the entry.

The main results:

* `entryChunkBits_le` — the chunk size of an entry is one the format has;
* `planEntry_layout` — the layouts an entry can get, wherever it lands.
-/

namespace Erofs

open GoPath LittleEndian

/-- The number of a layout on disk. -/
def Layout.toNat : Layout → ℕ
  | .flatPlain => 0
  | .compressedFull => 1
  | .flatInline => 2
  | .compressedCompact => 3
  | .chunkBased => 4
  | .unknown n => n

/-- `erofsWriter`, as `Close` makes it: `devices` are the block counts of the declared devices. -/
structure ErofsWriter where
  buildTime : ℕ := 0
  buildTimeNs : ℕ := 0
  devices : List ℕ := []
  blockSize : ℕ
  noInlineData : Bool := false
  chunkBits : ℕ := 0
  deriving DecidableEq

/-- What `planLayout` assigns to an `erofsEntry`. -/
structure Plan where
  nid : ℕ
  xattrSize : ℕ
  compact : Bool
  layout : Layout
  chunkBits : ℕ
  trailingSize : ℕ
  chunkPad : ℕ
  deriving DecidableEq

/-- `maxChunkIndexEntries`. -/
def maxChunkIndexEntries : ℕ := 2 ^ 27

/-- `inodeFileSize`, for a directory of `direntSize` bytes of dirents. -/
def inodeFileSize (e : ErofsEntry) (direntSize : ℕ) : ℕ :=
  if e.mode.typ = Mode.dir then direntSize
  else if e.mode.typ = Mode.symlink then e.symTarget.length
  else e.size

/-- `inodeCoreSize`. -/
def inodeCoreSize (compact : Bool) : ℕ :=
  if compact then Disk.sizeInodeCompact else Disk.sizeInodeExtended

/-- `inodeSlotAlign`. -/
def inodeSlotAlign (size : ℕ) : ℕ := (size + 31) / 32 * 32

/-- `chunkIndexPad`. -/
def chunkIndexPad (compact : Bool) (xattrSize : ℕ) (layout : Layout) (trailingSize : ℕ) : ℕ :=
  let r := (inodeCoreSize compact + xattrSize) % 8
  if layout ≠ .chunkBased ∨ trailingSize = 0 then 0
  else if r ≠ 0 then 8 - r
  else 0

namespace ErofsWriter

variable (w : ErofsWriter)

/-- The loop of `minChunkBits`, `fuel` of the 31 bits left. -/
def chunkBitsFrom (size : ℕ) : ℕ → ℕ → ℕ
  | 0, bits => bits
  | fuel + 1, bits =>
    if w.blockSize * 2 ^ bits < size ∧ bits < 31 then chunkBitsFrom size fuel (bits + 1) else bits

/-- `minChunkBits`. -/
def minChunkBits (size : ℕ) : ℕ := w.chunkBitsFrom size 31 w.chunkBits

/-- `entryChunkBits` of an entry whose own chunk bits are `bits`. -/
def entryChunkBits (bits : ℕ) : ℕ := if 0 < bits then bits else w.chunkBits

/-- `entryChunkSize`. -/
def entryChunkSize (bits : ℕ) : ℕ := w.blockSize * 2 ^ w.entryChunkBits bits

/-- `chunkCount`. -/
def chunkCount (bits size : ℕ) : ℕ :=
  let cs := w.entryChunkSize bits
  if cs = 0 then 0
  else
    let n := size / cs + if size % cs ≠ 0 then 1 else 0
    if maxChunkIndexEntries < n then maxChunkIndexEntries + 1 else n

/-- The test of `planLayout` for a compact inode. -/
def isCompact (e : ErofsEntry) (direntSize : ℕ) : Bool :=
  e.uid ≤ 0xffff && e.gid ≤ 0xffff && e.nlink ≤ 0xffff &&
    inodeFileSize e direntSize ≤ 0xffffffff &&
    e.mtime == w.buildTime && e.mtimeNs == w.buildTimeNs

/-- The first choice of a layout: inline only where the data ends in the block the header ends
in. -/
def chooseLayout (e : ErofsEntry) (direntSize currentOff headerSize : ℕ) : Layout :=
  let inBlockOff := (currentOff + headerSize) % w.blockSize
  if e.mode.typ = Mode.reg then
    if e.size = 0 ∧ e.chunks = [] ∧ e.data = none ∧ e.metadataOnly = false then .flatPlain
    else if e.chunks ≠ [] ∨ e.metadataOnly = true then .chunkBased
    else if w.noInlineData = false ∧ headerSize ≤ w.blockSize ∧ e.size ≤ w.blockSize - headerSize ∧
        inBlockOff + e.size ≤ w.blockSize then .flatInline
    else .flatPlain
  else if e.mode.typ = Mode.dir then
    if 0 < direntSize ∧ inBlockOff + direntSize ≤ w.blockSize then .flatInline else .flatPlain
  else if e.mode.typ = Mode.symlink then
    if e.symTarget ≠ [] ∧ inBlockOff + e.symTarget.length ≤ w.blockSize then .flatInline
    else .flatPlain
  else .flatPlain

/-- The chunk bits `planLayout` sets on an entry: those of a chunk-based file that is one extent. -/
def ownChunkBits (e : ErofsEntry) (layout : Layout) : ℕ :=
  if e.mode.typ = Mode.reg ∧ layout = .chunkBased ∧ e.contiguous = true then w.minChunkBits e.size
  else 0

/-- `calcTrailingSize`. -/
def calcTrailingSize (e : ErofsEntry) (direntSize : ℕ) (layout : Layout) (bits : ℕ) : ℕ :=
  if e.mode.typ = Mode.reg then
    if layout = .chunkBased then
      if e.size = 0 ∧ e.chunks = [] then 0 else w.chunkCount bits e.size * 8
    else if layout = .flatInline then e.size
    else 0
  else if layout = .flatInline ∧ (e.mode.typ = Mode.dir ∨ e.mode.typ = Mode.symlink) then
    inodeFileSize e direntSize
  else 0

/-- `currentOff` where an inode core of `size` bytes may start: not across the end of a block. -/
def inodeOff (currentOff size : ℕ) : ℕ :=
  if w.blockSize < currentOff % w.blockSize + size then
    (currentOff + w.blockSize - 1) / w.blockSize * w.blockSize
  else currentOff

/-- One turn of the loop of `planLayout`: the entry's plan, and the next offset. -/
def planEntry (e : ErofsEntry) (direntSize currentOff : ℕ) : Plan × ℕ :=
  let xattrSize := calcXattrSize e.xattrs
  let compact := w.isCompact e direntSize
  let inodeSize := inodeCoreSize compact
  let headerSize := inodeSize + xattrSize
  let layout := w.chooseLayout e direntSize currentOff headerSize
  let chunkBits := w.ownChunkBits e layout
  let trailingSize := w.calcTrailingSize e direntSize layout chunkBits
  let off := w.inodeOff currentOff inodeSize
  -- an inode that was moved may no longer have room for its inline data
  let layout :=
    if layout = .flatInline ∧ w.blockSize < off % w.blockSize + headerSize + trailingSize then
      .flatPlain
    else layout
  let trailingSize := w.calcTrailingSize e direntSize layout chunkBits
  let chunkPad := chunkIndexPad compact xattrSize layout trailingSize
  (⟨off / 32, xattrSize, compact, layout, chunkBits, trailingSize, chunkPad⟩,
    off + inodeSlotAlign (headerSize + chunkPad + trailingSize))

/-- The loop of `planLayout` over the entries with the sizes of their dirents. -/
def planEntries : List (ErofsEntry × ℕ) → ℕ → List Plan
  | [], _ => []
  | (e, direntSize) :: es, currentOff =>
    let r := w.planEntry e direntSize currentOff
    r.1 :: planEntries es r.2

/-- `planLayout`, of the entries that get an inode. -/
def planLayout (es : List (ErofsEntry × ℕ)) : List Plan := w.planEntries es 0

/-! ## What is decided of an entry -/

variable {w} {e : ErofsEntry} {direntSize currentOff : ℕ}

theorem chunkBitsFrom_le {size fuel bits : ℕ} (h : bits ≤ 31) :
    w.chunkBitsFrom size fuel bits ≤ 31 := by
  induction fuel generalizing bits with
  | zero => exact h
  | succ fuel ih =>
    rw [chunkBitsFrom]
    split_ifs with hlt
    · exact ih (by omega)
    · exact h

theorem entryChunkBits_le (hw : w.chunkBits = 0) (layout : Layout) :
    w.entryChunkBits (w.ownChunkBits e layout) ≤ 31 := by
  unfold entryChunkBits ownChunkBits minChunkBits
  split_ifs with hone
  · exact chunkBitsFrom_le (by omega)
  all_goals omega

/-- Without chunk bits of their own, chunks are blocks. -/
theorem entryChunkBits_of_scattered (hw : w.chunkBits = 0) (h : e.contiguous = false)
    (layout : Layout) : w.entryChunkBits (w.ownChunkBits e layout) = 0 := by
  rw [ownChunkBits, if_neg (by simp [h])]
  exact hw

/-- The layouts an entry can get: only a regular file is chunk-based. -/
theorem planEntry_layout (e : ErofsEntry) (direntSize currentOff : ℕ) :
    (w.planEntry e direntSize currentOff).1.layout = .flatPlain ∨
      (w.planEntry e direntSize currentOff).1.layout = .flatInline ∨
      (w.planEntry e direntSize currentOff).1.layout = .chunkBased ∧ e.mode.typ = Mode.reg := by
  have hchoose : ∀ headerSize, w.chooseLayout e direntSize currentOff headerSize = .flatPlain ∨
      w.chooseLayout e direntSize currentOff headerSize = .flatInline ∨
      w.chooseLayout e direntSize currentOff headerSize = .chunkBased ∧ e.mode.typ = Mode.reg := by
    intro headerSize
    unfold chooseLayout
    dsimp only
    split_ifs <;> simp_all
  unfold planEntry
  dsimp only
  split_ifs
  · exact .inl rfl
  · exact hchoose _

theorem reg_of_chunkBased
    (h : (w.planEntry e direntSize currentOff).1.layout = .chunkBased) :
    e.mode.typ = Mode.reg := by
  rcases planEntry_layout (w := w) e direntSize currentOff with h' | h' | ⟨-, hreg⟩
  · rw [h'] at h
    cases h
  · rw [h'] at h
    cases h
  · exact hreg

/-- A symlink that is kept inline ends in the block its inode starts in. -/
theorem inline_symlink_le (hlink : e.mode.typ = Mode.symlink)
    (h : (w.planEntry e direntSize currentOff).1.layout = .flatInline) :
    inodeCoreSize (w.planEntry e direntSize currentOff).1.compact + calcXattrSize e.xattrs +
      inodeFileSize e direntSize ≤ w.blockSize := by
  have hreg : Mode.symlink ≠ Mode.reg := by decide
  unfold planEntry at h ⊢
  dsimp only at h ⊢
  split_ifs at h with hmoved
  rw [h] at hmoved
  simp only [true_and, not_lt, calcTrailingSize, hlink, hreg, if_false, or_true, if_true] at hmoved
  omega

/-- The chunk bits of an entry that is chunk-based in the end. -/
theorem planEntry_chunkBits
    (h : (w.planEntry e direntSize currentOff).1.layout = .chunkBased) :
    (w.planEntry e direntSize currentOff).1.chunkBits = w.ownChunkBits e .chunkBased := by
  unfold planEntry at h ⊢
  dsimp only at h ⊢
  split_ifs at h
  rw [h]

end ErofsWriter

end Erofs
