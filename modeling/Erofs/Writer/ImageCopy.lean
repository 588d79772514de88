import Erofs.Reader.Dir
import Erofs.Reader.Stat
import Erofs.Writer.Copy

/-!
# Copying an image's metadata

`copyFromImage` (`mkfs_image.go`), the route `CopyFrom` takes for an image whose data is to stay
where it is.  It decodes inodes, dirents, attributes and chunk maps itself, from the metadata region
read in one go, and walks the dirents breadth first with a queue.

`newMetaReader` keeps the blocks it has read.  A world answers the same question the same way every
time, so that the model reads such a block again.

The queue loop takes a bound on the entries it can dequeue as its fuel: a directory is expanded
once, and no directory has more entries than the image has dirents.
-/

namespace Erofs

open GoPath LittleEndian Oracle

/-- `imgQEntry`. -/
structure ImgQEntry where
  nid : ℕ
  path : Path
  /-- The dirent's file type; the root has none. -/
  ftype : ℕ := 0
  deriving DecidableEq

namespace Image

variable (img : Image)

/-! ## Reading the source -/

/-- `maxEagerMetaBytes`. -/
def maxEagerMetaBytes : ℕ := 2 ^ 30

/-- The bytes the superblock declares. -/
def totalBytes : ℕ := img.sb.blocks * img.blockSize

/-- The eager read of `newMetaReader`, none where it fails. -/
def readMeta : ReadProg (Option Bytes) :=
  let metaSize := img.totalBytes - img.metaStartPos
  (readerAt 0 img.metaStartPos metaSize).bind fun a => .done <|
    if a.err.isNone ∧ a.data.length = metaSize then some a.data else none

/-- A block outside the metadata region, from `off` on, as `at` loads it. -/
def blockAt (off : ℕ) : ReadProg Bytes :=
  let blkAddr := off - off % img.blockSize
  let sz := min img.blockSize (img.totalBytes - blkAddr)
  (readerAt 0 blkAddr sz).bind fun a => .done <|
    if a.err.isNone ∧ a.data.length = sz then a.data.drop (off - blkAddr) else []

/-- The accessor `at` that `newMetaReader` returns. -/
def metaAt (metaBuf : Option Bytes) (off : ℕ) : ReadProg Bytes :=
  match metaBuf with
  | none => .done []
  | some buf =>
    if img.metaStartPos ≤ off then .done (buf.drop (off - img.metaStartPos))
    else if img.totalBytes ≤ off then .done []
    else img.blockAt off

/-- `span`. -/
def span (metaBuf : Option Bytes) (off n : ℕ) : Fallible Bytes :=
  if img.totalBytes < n ∨ img.totalBytes - n < off then
    .done (.error (errorf "%d bytes at offset %d lie outside the %d byte image: %w"
      [.int n, .int off, .int img.totalBytes] .corrupt))
  else (img.metaAt metaBuf off).bind fun b =>
    if n ≤ b.length then .done (.ok (b.take n))
    else (readerAt 0 off n).bind fun a => .done <|
      match a.err with
      | some e => .error e
      | none => .ok (buffer n a.data)

/-- `readFlat`. -/
def readFlat (pa : Int) (n : ℕ) : Fallible Bytes :=
  match img.locateRange pa n with
  | .error e => .done (.error e)
  | .ok (dev, off) => (img.deviceReader dev off n).bind fun a => .done <|
      match a.err with
      | some e => .error e
      | none => .ok (buffer n a.data)

end Image

/-! ## Extended attributes -/

/-- The `set` of `parseXattrsFromBuf`. -/
def setCopied (xs : Xattrs) (name value : Bytes) : Except GoError Xattrs :=
  if (xs.lookup name).isSome then
    .error (errorf "duplicate xattr %q: %w" [.bytes name] .corrupt)
  else .ok (xs ++ [(name, value)])

namespace Image

variable (img : Image)

/-- `xattrName`. -/
def xattrName (e : XattrEntry) (rawName : Bytes) : Except GoError Bytes :=
  (if e.nameIndex &&& 0x80 ≠ 0 then img.getLongPrefix (e.nameIndex &&& 0x7f)
    else xattrIndexPrefix e.nameIndex).map (· ++ rawName)

/-- A shared attribute: its entry's bytes and those of its name and value. -/
def copyShared (metaBuf : Option Bytes) (addr : ℕ) : Fallible (Bytes × Bytes) :=
  (img.span metaBuf addr Disk.sizeXattrEntry).tryBind fun head =>
    let e := xattrEntryAt head
    (img.span metaBuf (addr + Disk.sizeXattrEntry) (e.nameLen + e.valueLen)).tryBind fun body =>
      .done <| (img.xattrName e (body.take e.nameLen)).map fun name => (name, body.drop e.nameLen)

/-- The loop of `parseXattrsFromBuf` over the shared references, `k` of them left. -/
def copySharedXattrs (metaBuf : Option Bytes) (buf : Bytes) :
    ℕ → ℕ → Xattrs → Fallible (ℕ × Xattrs)
  | 0, pos, xs => .done (.ok (pos, xs))
  | k + 1, pos, xs =>
    if buf.length < pos + 4 then
      .done (.error (errorf "xattr shared block too small: %w" [] .corrupt))
    else
      let idx := field buf pos 4
      ((img.copyShared metaBuf (img.sb.xattrBlkAddr * img.blockSize + idx * 4)).bind fun r =>
        .done <| r.mapError fun e => e.wrap "shared xattr %d: %w" [.int idx]).tryBind fun r =>
          match setCopied xs r.1 r.2 with
          | .error e => .done (.error e)
          | .ok xs => copySharedXattrs metaBuf buf k (pos + 4) xs

/-- The loop of `parseXattrsFromBuf` over the inline entries; each takes at least four bytes. -/
def copyInlineXattrs (buf : Bytes) : ℕ → ℕ → Xattrs → Except GoError Xattrs
  | 0, _, xs => .ok xs
  | fuel + 1, pos, xs =>
    if buf.length ≤ pos then .ok xs
    else if buf.length < pos + Disk.sizeXattrEntry then
      .error (errorf "xattr block too small for entry at pos %d: %w" [.int pos] .corrupt)
    else
      let e := xattrEntryAt (buf.drop pos)
      let pos := pos + Disk.sizeXattrEntry
      if buf.length < pos + (e.nameLen + e.valueLen) then
        .error (errorf "inline xattr at pos %d too long: %w" [.int pos] .corrupt)
      else do
        let name ← (img.xattrName e ((buf.drop pos).take e.nameLen)).mapError fun err =>
          err.wrap "inline xattr: %w" []
        let pos := pos + e.nameLen
        let xs ← setCopied xs name ((buf.drop pos).take e.valueLen)
        let pos := pos + e.valueLen
        copyInlineXattrs buf fuel (pos + (4 - pos % 4) % 4) xs

/-- `parseXattrsFromBuf`. -/
def parseXattrsFromBuf (metaBuf : Option Bytes) (buf : Bytes) : Fallible Xattrs :=
  if buf.length < Disk.sizeXattrBodyHeader then
    .done (.error (errorf "xattr body of %d bytes too small: %w" [.int buf.length] .corrupt))
  else
    (img.copySharedXattrs metaBuf buf (field buf 4 1) Disk.sizeXattrBodyHeader []).tryBind fun r =>
      .done (img.copyInlineXattrs buf buf.length r.1 r.2)

/-! ## Inodes -/

/-- The inode in `buf`, its fields as `decodeInode` has them. -/
def copyInode (nid : ℕ) (buf : Bytes) : Except GoError Inode :=
  let format := field buf 0 2
  if buf.length < Disk.sizeInodeCompact then
    .error (errorf "inode %d out of range: %w" [.int nid] .corrupt)
  else if format &&& 1 = 0 then .ok (decodeCompact img.sb [] nid buf format)
  else if buf.length < Disk.sizeInodeExtended then
    .error (errorf "extended inode %d out of range: %w" [.int nid] .corrupt)
  else .ok (decodeExtended [] nid buf format)

/-- The checks `copyFromImage` makes of a decoded inode. -/
def checkCopied (cur : ImgQEntry) (format xcnt : ℕ) (ino : Inode) : Except GoError Unit := do
  checkInodeFormat cur.nid format
  checkChunkFormat ino
  if 0 < xcnt then
    let _ ← xattrBodySize cur.nid xcnt
  if modeToFileType ino.rawMode = 0 then
    throw (errorf "nid %d: bogus i_mode %#o: %w" [.int cur.nid, .int ino.rawMode.toNat] .corrupt)
  if cur.path = [] ∧ modeToFileType ino.rawMode ≠ 2 then
    throw (errorf "root inode %d has type %#o, not a directory: %w"
      [.int cur.nid, .int ino.rawMode.typ.toNat] .corrupt)
  if cur.path ≠ [] ∧ cur.ftype ≠ modeToFileType ino.rawMode then
    throw (errorf "inode %d has type %#o but its dirent says file type %d: %w"
      [.int cur.nid, .int ino.rawMode.typ.toNat, .int cur.ftype] .corrupt)
  if 2 ^ 63 ≤ ino.size then
    throw (errorf "nid %d declares a size of %d bytes: %w" [.int cur.nid, .int ino.size] .corrupt)

/-- The inode of a queue entry and its attributes. -/
def readCopied (metaBuf : Option Bytes) (cur : ImgQEntry) : Fallible (Inode × Xattrs) :=
  if (img.totalBytes - img.metaStartPos) / Disk.sizeInodeCompact < cur.nid then
    .done (.error (errorf "nid %d lies past the end of the %d byte image: %w"
      [.int cur.nid, .int img.totalBytes] .corrupt))
  else (img.metaAt metaBuf (img.inodeStart cur.nid)).bind fun buf =>
    let xcnt := field buf 2 2
    match (img.copyInode cur.nid buf).bind fun ino =>
        (checkCopied cur (field buf 0 2) xcnt ino).map fun _ => ino with
    | .error e => .done (.error e)
    | .ok ino =>
      if xcnt = 0 then .done (.ok (ino, []))
      else
        let xsize := (xcnt - 1) * Disk.sizeXattrEntry + Disk.sizeXattrBodyHeader
        (((img.span metaBuf (img.inodeStart cur.nid + ino.icsize) xsize).tryBind
          (img.parseXattrsFromBuf metaBuf)).bind fun r => .done <|
            r.mapError fun e => e.wrap "xattrs for nid %d: %w" [.int cur.nid]).tryBind fun xs =>
              .done (.ok ({ ino with xsize }, xs))

/-! ## Directories and symlinks -/

/-- `trailingAddr` of `copyFromImage`. -/
def copyTrailing (ino : Inode) : ℕ := img.inodeStart ino.nid + ino.flatDataOffset

/-- `tail`: what a flat-inline inode keeps beside itself. -/
def inlineTail (ino : Inode) : ℕ :=
  if ino.inodeLayout = .flatInline ∧ 0 < ino.size then
    ino.size - (ino.size - 1) / img.blockSize * img.blockSize
  else 0

/-- The checks of the declared size and of the tail's place. -/
def checkExtent (ino : Inode) : Except GoError Unit :=
  if ino.rawMode.typ ≠ Mode.reg ∧ img.totalBytes < ino.size then
    .error (errorf "nid %d declares %d bytes, larger than the %d byte image: %w"
      [.int ino.nid, .int ino.size, .int img.totalBytes] .corrupt)
  else if img.blockSize < img.copyTrailing ino % img.blockSize + img.inlineTail ino then
    .error (errorf "inline data crosses block boundary for nid %d: %w" [.int ino.nid] .corrupt)
  else .ok ()

/-- `n` bytes at the inode's start block. -/
def readStart (ino : Inode) (n : ℕ) : Fallible Bytes :=
  match img.blockAddr ino.nid ino.startBlock with
  | .error e => .done (.error e)
  | .ok pa => img.readFlat pa n

/-- `inlineData`: the whole blocks at `i_u`, then the tail.  A chunk-based inode takes the last
branch, its chunk format for a block number. -/
def inlineData (metaBuf : Option Bytes) (ino : Inode) : Fallible Bytes :=
  let tail := img.inlineTail ino
  if ino.inodeLayout = .flatPlain then img.readStart ino ino.size
  else if ino.size = tail then img.span metaBuf (img.copyTrailing ino) tail
  else (img.readStart ino (ino.size - tail)).tryBind fun blocks =>
    (img.span metaBuf (img.copyTrailing ino) tail).tryBind fun end_ => .done (.ok (blocks ++ end_))

end Image

/-- The name of dirent `i` of `n` in a block, as `parseDirBlock` takes it. -/
def copiedName (parent : Path) (blk : Bytes) (n i : ℕ) : Except GoError Bytes :=
  let firstNameOff := (direntAt blk 0).nameOff
  let nameOff := (direntAt blk i).nameOff
  let nameEnd := if i < n - 1 then (direntAt blk (i + 1)).nameOff else blk.length
  if nameOff < firstNameOff ∨ nameEnd < nameOff ∨ blk.length < nameEnd then
    .error (errorf "in %s: dirent %d name range [%d:%d] out of bounds (block size %d): %w"
      [.path parent, .int i, .int nameOff, .int nameEnd, .int blk.length] .corrupt)
  else
    let name := slice blk nameOff nameEnd
    let name := if i = n - 1 then untilNul name else name
    match checkDirentName name with
    | .error e => .error (e.wrap "in %s: %w" [.path parent])
    | .ok _ => .ok name

/-- The dirents of a block from `i` on, `k` of them left. -/
def copiedDirents (parent : Path) (blk : Bytes) (n : ℕ) : ℕ → ℕ → Except GoError (List ImgQEntry)
  | 0, _ => .ok []
  | k + 1, i => do
    let name ← copiedName parent blk n i
    if name = dot ∨ name = dotdot then copiedDirents parent blk n k (i + 1)
    else
      Writer.checkPathLen (parent ++ [name])
      let rest ← copiedDirents parent blk n k (i + 1)
      return ⟨(direntAt blk i).nid, parent ++ [name], (direntAt blk i).fileType⟩ :: rest

/-- One block of `parseDirBlock`. -/
def copiedBlock (parent : Path) (blk : Bytes) : Except GoError (List ImgQEntry) :=
  let firstNameOff := (direntAt blk 0).nameOff
  let n := firstNameOff / Disk.sizeDirent
  if blk.length < Disk.sizeDirent then
    .error (errorf "in %s: directory block of %d bytes: %w"
      [.path parent, .int blk.length] .corrupt)
  else if n = 0 ∨ blk.length < firstNameOff ∨ firstNameOff % Disk.sizeDirent ≠ 0 then
    .error (errorf "in %s: invalid dirent name offset %d (block size %d): %w"
      [.path parent, .int firstNameOff, .int blk.length] .corrupt)
  else copiedDirents parent blk n n 0

/-- `parseDirBlock`: the entries of a directory whose bytes are `data`.  A block takes at least one
byte, so that the fuel never runs out. -/
def parseDirBlock (parent : Path) (blockSize : ℕ) : ℕ → Bytes → Except GoError (List ImgQEntry)
  | 0, _ => .ok []
  | fuel + 1, data =>
    if data = [] then .ok []
    else do
      let ents ← copiedBlock parent (data.take blockSize)
      let rest ← parseDirBlock parent blockSize fuel (data.drop blockSize)
      return ents ++ rest

/-! ## Chunks -/

/-- `chunkMapBytes`. -/
def chunkMapBytes (chunkFmt fileSize blkBits unit : ℕ) : Except GoError ℕ :=
  let chunkBits := blkBits + (chunkFmt &&& 0x1f)
  let nchunks := fileSize / 2 ^ chunkBits + (if fileSize % 2 ^ chunkBits ≠ 0 then 1 else 0)
  if 64 ≤ chunkBits then
    .error (errorf "chunk size of 2^%d bytes is out of range: %w" [.int chunkBits] .corrupt)
  else if Image.maxChunkIndexBytes / unit < nchunks then
    .error (errorf "chunk index for a %d byte file exceeds the %d byte limit: %w"
      [.int fileSize, .int Image.maxChunkIndexBytes] .invalid)
  else .ok (nchunks * unit)

/-- `chunkBytes`. -/
def chunkBytes (i chunkBits fileSize : ℕ) : ℕ := min (2 ^ chunkBits) (fileSize - i * 2 ^ chunkBits)

/-- A hole of `blocks` blocks after the runs so far, the last run first. -/
def joinHole (blocks : ℕ) : List Chunk → List Chunk
  | c :: cs =>
    if c.physicalBlock = nullPhysicalBlock ∧ c.count + blocks ≤ 65535 then
      { c with count := c.count + blocks } :: cs
    else ⟨nullPhysicalBlock, blocks, 0⟩ :: c :: cs
  | [] => [⟨nullPhysicalBlock, blocks, 0⟩]

/-- `blocks` blocks from `phys` on `device` after the runs so far, the last run first. -/
def joinData (device phys blocks : ℕ) : List Chunk → List Chunk
  | c :: cs =>
    if c.physicalBlock ≠ nullPhysicalBlock ∧ c.deviceID = device ∧
        c.physicalBlock + c.count = phys ∧ c.count + blocks ≤ 65535 then
      { c with count := c.count + blocks } :: cs
    else ⟨phys, blocks, device⟩ :: c :: cs
  | [] => [⟨phys, blocks, device⟩]

namespace Image

variable (img : Image)

/-- `locateChunk`. -/
def locateChunk (deviceID block n : ℕ) : Except GoError (ℕ × ℕ) :=
  if maxInt64 / img.blockSize < block then
    .error (errorf "chunk block %d is out of range: %w" [.int block] .corrupt)
  else do
    let (dev, off) ← img.locate deviceID (block * img.blockSize : ℕ)
    img.boundOnDevice dev off n
    return (dev, off.toNat / img.blockSize)

/-- The loop of `parseChunks` from chunk `i` on, `k` of them left; the runs so far are in `acc`, the
last first. -/
def parseIndexes (data : Bytes) (fileSize chunkBits blocksPerChunk : ℕ) :
    ℕ → ℕ → List Chunk → Except GoError (List Chunk)
  | 0, _, acc => .ok acc.reverse
  | k + 1, i, acc =>
    let entry := data.drop (i * Disk.sizeChunkIndex)
    if field entry 4 4 = 2 ^ 32 - 1 then
      parseIndexes data fileSize chunkBits blocksPerChunk k (i + 1) (joinHole blocksPerChunk acc)
    else do
      let (dev, phys) ← img.locateChunk (field entry 2 2 &&& img.deviceIDMask) (field entry 4 4)
        (chunkBytes i chunkBits fileSize)
      parseIndexes data fileSize chunkBits blocksPerChunk k (i + 1)
        (joinData dev phys blocksPerChunk acc)

/-- `parseChunks`. -/
def parseChunks (data : Bytes) (chunkFmt fileSize : ℕ) : Except GoError (List Chunk) :=
  let chunkBits := img.sb.blkSizeBits + (chunkFmt &&& 0x1f)
  let nchunks := (fileSize - 1) / 2 ^ chunkBits + 1
  let blocksPerChunk : ℕ := 2 ^ (chunkFmt &&& 0x1f)
  let needed := nchunks * Disk.sizeChunkIndex
  if chunkFmt &&& 0xffc0 ≠ 0 then
    .error (errorf "unsupported chunk format %#x: %w" [.int chunkFmt] .notImplemented)
  else if 65535 < blocksPerChunk then
    .error (errorf "chunk size of %d blocks is not representable: %w"
      [.int blocksPerChunk] .invalid)
  else if maxChunkIndexBytes < needed then
    .error (errorf "chunk index of %d bytes for a %d byte file exceeds the %d byte limit: %w"
      [.int needed, .int fileSize, .int maxChunkIndexBytes] .invalid)
  else if data.length < needed then
    .error (errorf "chunk index truncated: have %d bytes, need %d: %w"
      [.int data.length, .int needed] .corrupt)
  else img.parseIndexes data fileSize chunkBits blocksPerChunk nchunks 0 []

/-- The loop of `parseBlockMap` from chunk `i` on, `k` of them left. -/
def parseBlocks (data : Bytes) (fileSize chunkBits blocksPerChunk : ℕ) :
    ℕ → ℕ → Except GoError (List Chunk)
  | 0, _ => .ok []
  | k + 1, i => do
    let addr := field data (i * 4) 4
    let run ← if addr = 2 ^ 32 - 1 then
        .ok (Writer.deviceChunks nullPhysicalBlock blocksPerChunk 0)
      else (img.locateChunk 0 addr (chunkBytes i chunkBits fileSize)).map fun r =>
        Writer.deviceChunks r.2 blocksPerChunk r.1
    let rest ← parseBlocks data fileSize chunkBits blocksPerChunk k (i + 1)
    return run ++ rest

/-- `parseBlockMap`. -/
def parseBlockMap (data : Bytes) (chunkFmt fileSize : ℕ) : Except GoError (List Chunk) :=
  let chunkBits := img.sb.blkSizeBits + (chunkFmt &&& 0x1f)
  let nchunks := (fileSize - 1) / 2 ^ chunkBits + 1
  if chunkFmt &&& 0xffe0 ≠ 0 then
    .error (errorf "unsupported chunk format %#x: %w" [.int chunkFmt] .notImplemented)
  else if data.length < nchunks * 4 then
    .error (errorf "block map of %d entries truncated at %d bytes: %w"
      [.int nchunks, .int data.length] .corrupt)
  else img.parseBlocks data fileSize chunkBits (2 ^ (chunkFmt &&& 0x1f)) nchunks 0

/-- `flatRun`, from device `k` of the table on: the length of the run, its device and its first
block there.  The run on the image ends at `next`, where a mapped range begins. -/
def flatRun (start blocks : ℕ) : ℕ → ℕ → List DeviceInfo → ℕ × ℕ × ℕ
  | _, next, [] => (next, 0, start)
  | k, next, d :: ds =>
    let lo := d.mappedBlkAddr
    let hi := d.mappedBlkAddr + d.blocks
    if lo = 0 then flatRun start blocks (k + 1) next ds
    else if lo ≤ start ∧ start < hi then (min blocks (hi - start), k + 1, start - lo)
    else flatRun start blocks (k + 1) (if start < lo then min next (lo - start) else next) ds

/-- The loop of `flatChunks`; a run has at least one block. -/
def flatRuns : ℕ → ℕ → ℕ → List Chunk
  | 0, _, _ => []
  | fuel + 1, start, blocks =>
    if blocks = 0 then []
    else
      let (run, dev, phys) := flatRun start blocks 0 blocks img.devices
      Writer.deviceChunks phys run dev ++ flatRuns fuel (start + run) (blocks - run)

/-- `flatChunks`. -/
def flatChunks (start blocks : ℕ) : List Chunk := img.flatRuns blocks start blocks

end Image

namespace Writer

/-- `remapChunkDevices` of chunks that are dropped when it fails. -/
def remapped (w : Writer) (p : Path) (chunks : List Chunk) : Except GoError (List Chunk) :=
  match w.remapChunkDevices p chunks with
  | (_, some e) => .error e
  | (cs, none) => .ok cs

/-! ## Regular files -/

/-- Where a regular file's data is: its chunks, whether they are one run, and its tail. -/
structure FileData where
  chunks : List Chunk := []
  contiguous : Bool := false
  tail : Bytes := []
  deriving DecidableEq

/-- `whole` for `n` bytes: the sum is an `int64`, which past 2⁶³ is negative, so that the shift
fills its upper bits with ones before it is taken for a `uint64`. -/
def flatBlocks (blockSize n : ℕ) : ℕ :=
  let sum := n + blockSize - 1
  if sum < 2 ^ 63 then sum / blockSize else sum / blockSize + (2 ^ 64 - 2 ^ 64 / blockSize)

/-- The whole blocks of a flat file. -/
def flatFileChunks (w : Writer) (img : Image) (p : Path) (ino : Inode) :
    Except GoError FileData :=
  let tail := img.inlineTail ino
  let whole := flatBlocks img.blockSize (ino.size - tail)
  if whole = 0 then .ok {}
  else if ino.inodeLayout = .flatPlain ∧ Inode.nullStartBlock ino.startBlock ino.addr48 then
    .ok { chunks := deviceChunks nullPhysicalBlock whole 0 }
  else do
    let pa ← (img.blockAddr ino.nid ino.startBlock).mapError fun e =>
      e.wrap "nid %d: %w" [.int ino.nid]
    let _ ← (img.locateRange pa (ino.size - tail : ℕ)).mapError fun e =>
      e.wrap "nid %d: %w" [.int ino.nid]
    let chunks ← w.remapped p (img.flatChunks ino.startBlock whole)
    return { chunks, contiguous := tail == 0 && chunks.length == 1 }

/-- The data of a flat file that is not empty. -/
def flatFile (w : Writer) (img : Image) (metaBuf : Option Bytes) (p : Path) (ino : Inode) :
    Fallible FileData :=
  match w.flatFileChunks img p ino with
  | .error e => .done (.error e)
  | .ok d =>
    if img.inlineTail ino = 0 then .done (.ok d)
    else ((img.span metaBuf (img.copyTrailing ino) (img.inlineTail ino)).bind fun r => .done <|
      r.mapError fun e => e.wrap "read inline data for nid %d: %w" [.int ino.nid]).tryBind
        fun tail => .done (.ok { d with tail })

/-- Where `copyFromImage` looks for the chunk map; indexes are aligned to eight. -/
def copyMapStart (img : Image) (ino : Inode) : ℕ :=
  if ino.chunkIndexed then (img.copyTrailing ino + 7) / 8 * 8 else img.copyTrailing ino

/-- The chunks of a chunk-based file, in the numbering of the image's devices. -/
def sourceChunks (img : Image) (ino : Inode) (need : ℕ) (data : Bytes) :
    Except GoError (List Chunk) :=
  if data.length < need then
    .error (errorf "nid %d: chunk index truncated: have %d bytes, need %d for a %d byte file: %w"
      [.int ino.nid, .int data.length, .int need, .int ino.size] .corrupt)
  else (if ino.chunkIndexed then img.parseChunks data ino.chunkFormat ino.size
      else img.parseBlockMap data ino.chunkFormat ino.size).mapError fun e =>
        e.wrap "chunk index for nid %d: %w" [.int ino.nid]

/-- The data of a chunk-based file that is not empty. -/
def chunkedFile (w : Writer) (img : Image) (metaBuf : Option Bytes) (p : Path) (ino : Inode) :
    Fallible FileData :=
  match (chunkMapBytes ino.chunkFormat ino.size img.sb.blkSizeBits (Image.chunkUnit ino)).mapError
      fun e => e.wrap "nid %d: %w" [.int ino.nid] with
  | .error e => .done (.error e)
  | .ok need => (img.metaAt metaBuf (copyMapStart img ino)).bind fun data => .done <| do
      let chunks ← sourceChunks img ino need data
      let chunks ← w.remapped p chunks
      return {
        chunks
        contiguous := match chunks with
          | [c] => c.physicalBlock != nullPhysicalBlock
          | _ => false }

/-- The data of a regular file. -/
def copiedFile (w : Writer) (img : Image) (metaBuf : Option Bytes) (p : Path) (ino : Inode) :
    Fallible FileData :=
  if ino.size = 0 then .done (.ok {})
  else if ino.inodeLayout = .chunkBased then w.chunkedFile img metaBuf p ino
  else w.flatFile img metaBuf p ino

/-! ## One entry of the queue -/

/-- The state of the loop: the Writer, the queue and the addresses of the directories expanded. -/
structure CopyState where
  w : Writer
  queue : List ImgQEntry
  expanded : List ℕ

/-- The entry `copyFromImage` builds before it looks at the type. -/
def copiedEntry (w : Writer) (p : Path) (ino : Inode) (xattrs : Xattrs) : FsEntry where
  path := p
  mode := ino.rawMode
  uid := ino.uid
  gid := ino.gid
  mtime := ino.mtime
  mtimeNs := ino.mtimeNs
  size := ino.size
  xattrs
  fileClosed := true
  metadataOnly := w.copyMetadataOnly

/-- The directory case: the entries to queue. -/
def copiedDir (img : Image) (metaBuf : Option Bytes) (expanded : List ℕ) (p : Path) (ino : Inode) :
    Fallible (List ImgQEntry) :=
  if img.inodeStart ino.nid ∈ expanded then
    .done (.error (errorf "directory nid %d is reachable more than once (at %s): %w"
      [.int ino.nid, .path p] .corrupt))
  else if ino.size = 0 then .done (.ok [])
  else ((img.inlineData metaBuf ino).bind fun r => .done <| r.mapError fun e =>
      e.wrap "read dir data for nid %d: %w" [.int ino.nid]).tryBind fun data =>
    .done <| (parseDirBlock p img.blockSize data.length data).mapError fun e =>
      e.wrap "dir nid %d: %w" [.int ino.nid]

/-- The symlink case: the target. -/
def copiedLink (img : Image) (metaBuf : Option Bytes) (ino : Inode) : Fallible Bytes :=
  if ino.inodeLayout = .flatInline ∧ ino.size = 0 then
    .done (.error (errorf "nid %d: invalid fast symlink size 0: %w" [.int ino.nid] .corrupt))
  else if ino.size = 0 then .done (.ok [])
  else ((img.inlineData metaBuf ino).bind fun r => .done <| r.mapError fun e =>
      e.wrap "read symlink data for nid %d: %w" [.int ino.nid]).tryBind fun data =>
    .done <| if nulByte ∈ data then
        .error (errorf "nid %d: invalid fast symlink target: %w" [.int ino.nid] .corrupt)
      else .ok data

/-- The switch over the type: the entry with its content, and the entries to queue. -/
def copiedContent (w : Writer) (img : Image) (metaBuf : Option Bytes) (expanded : List ℕ)
    (fe : FsEntry) (ino : Inode) : Fallible (FsEntry × List ImgQEntry) :=
  if fe.mode.typ = Mode.dir then
    (copiedDir img metaBuf expanded fe.path ino).tryBind fun ents => .done (.ok (fe, ents))
  else if fe.mode.typ = Mode.symlink then
    (copiedLink img metaBuf ino).tryBind fun linkTarget =>
      .done (.ok ({ fe with linkTarget }, []))
  else if fe.mode.typ = Mode.reg then
    (w.copiedFile img metaBuf fe.path ino).tryBind fun d => .done (.ok
      ({ fe with chunks := d.chunks, contiguous := d.contiguous, tail := d.tail }, []))
  else if fe.mode.typ = Mode.chrdev ∨ fe.mode.typ = Mode.blkdev then
    .done (.ok ({ fe with rdev := rdevFromMode fe.mode ino.inodeData }, []))
  else .done (.ok (fe, []))

/-- The inode may have more names. -/
def sharesNid (ino : Inode) : Bool := ino.rawMode.typ != Mode.dir && ino.nlink > 1

/-- The end of the loop's body: the entry is registered. -/
def registerCopied (w : Writer) (nid : ℕ) (share : Bool) (fe : FsEntry) : Writer :=
  if fe.path = [] then
    w.setRoot fe.mode { uid := fe.uid, gid := fe.gid, mtime := fe.mtime, mtimeNs := fe.mtimeNs,
                        xattrs := fe.xattrs }
  else (w.placeItem fe share ⟨0, nid⟩).1

/-- The loop's body once the inode is decoded, for the entry `cur` taken off the queue. -/
def copyDecoded (img : Image) (metaBuf : Option Bytes) (s : CopyState) (cur : ImgQEntry)
    (ino : Inode) (xattrs : Xattrs) : ReadProg (CopyState × Option GoError) :=
  match (if sharesNid ino then s.w.priorName ⟨0, cur.nid⟩ else none) with
  | some prior => .done <|
      match s.w.addAlias cur.path prior with
      | .error e => (s, some e)
      | .ok w => ({ s with w }, none)
  | none =>
    match img.checkExtent ino with
    | .error e => .done (s, some e)
    | .ok _ =>
      (s.w.copiedContent img metaBuf s.expanded (s.w.copiedEntry cur.path ino xattrs) ino).bind
        fun r => .done <|
          match r with
          | .error e => (s, some e)
          | .ok (fe, ents) => (⟨s.w.registerCopied cur.nid (sharesNid ino) fe, s.queue ++ ents,
              if ino.rawMode.typ = Mode.dir then img.inodeStart ino.nid :: s.expanded
              else s.expanded⟩, none)

/-- The name of a whiteout marker, as the image route recognises it. -/
def isImageWhiteout (base : Bytes) : Bool :=
  whiteoutPrefix.length < base.length && whiteoutPrefix.isPrefixOf base

/-- The loop's body, for the entry `cur` taken off the queue. -/
def copyStep (img : Image) (metaBuf : Option Bytes) (s : CopyState) (cur : ImgQEntry) :
    ReadProg (CopyState × Option GoError) :=
  if s.w.copyMerge ∧ cur.path ≠ [] ∧ isImageWhiteout (base cur.path) then
    .done ({ s with w := s.w.applyMarker cur.path }, none)
  else (img.readCopied metaBuf cur).bind fun r =>
    match r with
    | .error e => .done (s, some e)
    | .ok (ino, xattrs) => copyDecoded img metaBuf s cur ino xattrs

/-- The loop over the queue. -/
def copyLoop (img : Image) (metaBuf : Option Bytes) : ℕ → CopyState → ReadProg Result
  | 0, s => .done (s.w, none)
  | fuel + 1, s =>
    match s.queue with
    | [] => .done (s.w, none)
    | cur :: queue => (copyStep img metaBuf { s with queue } cur).bind fun r =>
        match r with
        | (s, some e) => .done (s.w, some e)
        | (s, none) => copyLoop img metaBuf fuel s

/-- A bound on the entries the loop takes off the queue: the root, and the dirents of each directory
expanded. -/
def queueBound (img : Image) : ℕ :=
  1 + ((img.totalBytes - img.metaStartPos) / Disk.sizeInodeCompact + 1) *
    (img.totalBytes / Disk.sizeDirent)

/-- The checks of `copyFromImage` before it reads; `actual` is what `imageSize` says. -/
def checkImage (img : Image) (actual : Option Int) : Except GoError Unit :=
  match actual.filter fun n => n < (img.totalBytes : Int) with
  | some n => .error (errorf "superblock declares %d bytes but image is %d bytes: %w"
      [.int img.totalBytes, .int n] .corrupt)
  | none =>
    if img.totalBytes ≤ img.metaStartPos then
      .error (errorf "metadata start %d outside image of %d bytes: %w"
        [.int img.metaStartPos, .int img.totalBytes] .corrupt)
    else if Image.maxEagerMetaBytes < img.totalBytes - img.metaStartPos then
      .error (errorf "metadata region of %d bytes exceeds the %d byte limit: %w"
        [.int (img.totalBytes - img.metaStartPos : ℕ), .int Image.maxEagerMetaBytes] .invalid)
    else .ok ()

/-- `copyFromImage`. -/
def copyFromImage (w : Writer) (img : Image) (actual : Option Int) : ReadProg Result :=
  if img.totalBytes = 0 then .done (w, none)
  else match checkImage img actual with
    | .error e => .done (w, some e)
    | .ok _ => img.readMeta.bind fun metaBuf =>
        copyLoop img metaBuf (queueBound img) ⟨w, [⟨img.sb.rootNid, [], 0⟩], []⟩

/-! ## `CopyFrom` of an image -/

/-- The image and its own devices become devices of the copy. -/
def imageDevices (w : Writer) (img : Image) : Except GoError Writer :=
  (w.checkDeviceCount (1 + img.devices.length)).map fun _ =>
    { w with
      devices := w.devices ++ img.sb.blocks :: img.devices.map (·.blocks)
      copyDeviceID := w.devices.length + 1
      copySourceIsImage := true }

/-- `CopyFrom` of an image with `MetadataOnly`. -/
def copyImage (w : Writer) (img : Image) (actual : Option Int) (merge : Bool) : ReadProg Result :=
  match w.wErr with
  | some e => .done (w, some e)
  | none =>
    match w.checkNoOpenFile "call CopyFrom" with
    | .error e => .done (w, some e)
    | .ok _ =>
      let w := w.beginCopy { metadataOnly := true, merge }
      match w.setBlockSize img.blockSize with
      | .error e => .done (w, some e)
      | .ok w =>
        let w := w.sourceBuildTime (some img.sb.buildTime)
        match w.imageDevices img with
        | .error e => .done (w, some e)
        | .ok w => w.copyFromImage img actual

end Writer

end Erofs
