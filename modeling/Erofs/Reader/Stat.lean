import Erofs.Reader.File
import Erofs.Writer.Copy

/-!
# `Stat`

What `statInfo` of `erofs.go` adds to an inode: the extended attributes (`loadXattrs` of
`xattr.go`) and the data ranges of a regular file (`buildDataRanges`, `buildChunkDataRanges`).
-/

namespace Erofs

open GoPath LittleEndian Oracle

/-! ## Extended attributes -/

/-- `disk.XattrEntry`. -/
structure XattrEntry where
  nameLen : ℕ
  nameIndex : ℕ
  valueLen : ℕ
  deriving DecidableEq

/-- `XattrEntry.Unmarshal`. -/
def xattrEntryAt (b : Bytes) : XattrEntry := ⟨field b 0 1, field b 1 1, field b 2 2⟩

/-- `xattrIndex.prefix`. -/
def xattrIndexPrefix (idx : ℕ) : Except GoError Bytes :=
  if idx = 0 then .ok []
  else if xattrIndexString idx ≠ [] then .ok (xattrIndexString idx)
  else .error (errorf "unknown xattr name index %d: %w" [.int idx] .corrupt)

/-- Attributes by name, in the order they were set. -/
abbrev Xattrs := List (Bytes × Bytes)

/-- `setXattr`. -/
def setXattr (nid : ℕ) (xs : Xattrs) (name value : Bytes) : Except GoError Xattrs :=
  if (xs.lookup name).isSome then
    .error (errorf "duplicate xattr %q for nid %d: %w" [.bytes name, .int nid] .corrupt)
  else .ok (xs ++ [(name, value)])

namespace Image

variable (img : Image)

/-- `getLongPrefix`. -/
def getLongPrefix (index : ℕ) : Except GoError Bytes :=
  match img.longPrefixes[index]? with
  | some p => .ok p
  | none => .error (errorf "long xattr prefix index %d out of range (max %d): %w"
      [.int index, .int (img.longPrefixes.length - 1)] .corrupt)

/-- The prefix of an entry's name, `where_` naming the kind of entry in an error. -/
def entryPrefix (nid : ℕ) (where_ : String) (e : XattrEntry) : Except GoError Bytes :=
  if e.nameIndex &&& 0x80 ≠ 0 then
    (img.getLongPrefix (e.nameIndex &&& 0x7f)).mapError fun err =>
      err.wrap ("failed to get long prefix for " ++ where_ ++ " xattr nid %d: %w") [.int nid]
  else (xattrIndexPrefix e.nameIndex).mapError fun err =>
    err.wrap (where_ ++ " xattr for nid %d: %w") [.int nid]

/-- A shared attribute from the block at its address. -/
def sharedXattr (nid : ℕ) (sb : Bytes) (xs : Xattrs) : Except GoError Xattrs := do
  if sb.length < Disk.sizeXattrEntry then
    throw (errorf "shared xattr block too small for nid %d: %w" [.int nid] .corrupt)
  let e := xattrEntryAt sb
  let sb := sb.drop Disk.sizeXattrEntry
  let pre ← img.entryPrefix nid "shared" e
  if sb.length < e.nameLen + e.valueLen then
    throw (errorf "shared xattr too long for nid %d: %w" [.int nid] .corrupt)
  setXattr nid xs (pre ++ sb.take e.nameLen) ((sb.drop e.nameLen).take e.valueLen)

/-- `loadAt` within an inode's xattr body, which starts at `addr` and has `xsize` bytes. -/
def loadBody (nid : ℕ) (addr : ℕ) (xsize pos : ℕ) : Fallible Bytes :=
  (img.loadAt (int64 (addr + pos : ℕ)) (xsize - pos)).bind fun r => .done <|
    r.mapError fun err => err.wrap "failed to read xattr body for nid %d: %w" [.int nid]

/-- The loop over the shared references, `k` of them left from number `i`; `xb` is what is left
of the loaded block. -/
def sharedXattrs (nid addr xsize : ℕ) :
    ℕ → ℕ → Bytes → Xattrs → Fallible (Bytes × Xattrs)
  | 0, _, xb, xs => .done (.ok (xb, xs))
  | k + 1, i, xb, xs =>
    let reload : Fallible Bytes :=
      if 4 ≤ xb.length then .done (.ok xb)
      else (img.loadBody nid addr xsize (Disk.sizeXattrBodyHeader + i * 4)).tryBind fun xb =>
        .done <| if 4 ≤ xb.length then .ok xb
          else .error (errorf "xattr shared block too small for nid %d: %w" [.int nid] .corrupt)
    reload.tryBind fun xb =>
      let sharedAddr := img.sb.xattrBlkAddr * img.blockSize + field xb 0 4 * 4
      ((img.loadAt sharedAddr img.blockSize).bind fun r => .done <| r.mapError fun err =>
        err.wrap "failed to read shared xattr body for nid %d: %w" [.int nid]).tryBind fun sb =>
          match img.sharedXattr nid sb xs with
          | .error e => .done (.error e)
          | .ok xs => sharedXattrs nid addr xsize k (i + 1) (xb.drop 4) xs

/-- A place in the xattr body and what is left of the loaded block there. -/
structure XattrCursor where
  pos : ℕ
  xb : Bytes
  deriving DecidableEq

/-- The cursor after `n` bytes. -/
def XattrCursor.skip (c : XattrCursor) (n : ℕ) : XattrCursor := ⟨c.pos + n, c.xb.drop n⟩

/-- At least `n` bytes at the cursor, loading the block again from there if need be. -/
def ensureBytes (nid addr xsize : ℕ) (c : XattrCursor) (n : ℕ) (short : GoError) :
    Fallible XattrCursor :=
  if n ≤ c.xb.length then .done (.ok c)
  else (img.loadBody nid addr xsize c.pos).tryBind fun xb =>
    .done <| if n ≤ xb.length then .ok ⟨c.pos, xb⟩ else .error short

/-- A value that runs past the loaded block, `remaining` bytes of it left. -/
def xattrValue (nid addr xsize : ℕ) :
    ℕ → ℕ → XattrCursor → Bytes → Fallible (XattrCursor × Bytes)
  | 0, _, c, buf => .done (.ok (c, buf))
  | fuel + 1, remaining, c, buf =>
    if remaining = 0 then .done (.ok (c, buf))
    else
      (img.ensureBytes nid addr xsize c 1
        (errorf "empty xattr block while reading value: %w" [] .corrupt)).tryBind fun c =>
          let n := min remaining c.xb.length
          xattrValue nid addr xsize fuel (remaining - n) (c.skip n) (buf ++ c.xb.take n)

/-- The name and the value of the entry at the cursor, and the cursor at the next one. -/
def inlineXattr (nid addr xsize : ℕ) (c : XattrCursor) (xs : Xattrs) :
    Fallible (XattrCursor × Xattrs) :=
  (img.ensureBytes nid addr xsize c Disk.sizeXattrEntry
    (errorf "xattr block too small for entry at pos %d for nid %d: %w"
      [.int c.pos, .int nid] .corrupt)).tryBind fun c =>
  let e := xattrEntryAt c.xb
  let c := c.skip Disk.sizeXattrEntry
  match img.entryPrefix nid "inline" e with
  | .error err => .done (.error err)
  | .ok pre =>
    (img.ensureBytes nid addr xsize c e.nameLen
      (errorf "xattr block too small for name of length %d for nid %d: %w"
        [.int e.nameLen, .int nid] .corrupt)).tryBind fun c =>
    let name := pre ++ c.xb.take e.nameLen
    (img.xattrValue nid addr xsize e.valueLen e.valueLen (c.skip e.nameLen) []).tryBind fun r =>
      .done <| (setXattr nid xs name r.2).map fun xs => (r.1.skip ((4 - r.1.pos % 4) % 4), xs)

/-- The loop over the inline entries; each takes at least four bytes of the body. -/
def inlineXattrs (nid addr xsize : ℕ) : ℕ → XattrCursor → Xattrs → Fallible Xattrs
  | 0, _, xs => .done (.ok xs)
  | fuel + 1, c, xs =>
    if xsize ≤ c.pos then .done (.ok xs)
    else (img.inlineXattr nid addr xsize c xs).tryBind fun r =>
      inlineXattrs nid addr xsize fuel r.1 r.2

/-- `loadXattrs`. -/
def loadXattrs (ino : Inode) : Fallible Xattrs :=
  let addr := img.inodeStart ino.nid + ino.icsize
  (img.loadBody ino.nid addr ino.xsize 0).tryBind fun xb =>
    if xb.length < Disk.sizeXattrBodyHeader then
      .done (.error (errorf "xattr body too small for nid %d: %w" [.int ino.nid] .corrupt))
    else
      let sharedCount := field xb 4 1
      if ino.xsize < Disk.sizeXattrBodyHeader + sharedCount * 4 then
        .done (.error (errorf
          "nid %d declares %d shared xattrs, more than its %d byte xattr area holds: %w"
          [.int ino.nid, .int sharedCount, .int ino.xsize] .corrupt))
      else
        (img.sharedXattrs ino.nid addr ino.xsize sharedCount 0
          (xb.drop Disk.sizeXattrBodyHeader) []).tryBind fun r =>
            img.inlineXattrs ino.nid addr ino.xsize ino.xsize
              ⟨Disk.sizeXattrBodyHeader + sharedCount * 4, r.1⟩ r.2

/-! ## Data ranges -/

/-- `holeOffset`. -/
def holeOffset : Int := -1

/-- `flatPlainRange`. -/
def flatPlainRange (ino : Inode) : Except GoError (List DataRange) :=
  if ino.nullAddress then .ok [{ offset := holeOffset, size := ino.size }]
  else (img.locateStart ino ino.size).map fun p => [⟨p.1, p.2, ino.size⟩]

/-- The flat-inline case of `buildDataRanges`. -/
def flatInlineRanges (ino : Inode) : Except GoError (List DataRange) :=
  let addr := img.trailingAddr ino
  if ino.size ≤ img.blockSize then
    (img.checkImageRange addr ino.size).map fun _ => [⟨0, addr, ino.size⟩]
  else do
    let headSize := (ino.size - 1) / img.blockSize * img.blockSize
    let (dev, off) ← img.locateStart ino headSize
    img.checkImageRange addr (ino.size - headSize : ℕ)
    return [⟨dev, off, headSize⟩, ⟨0, addr, (ino.size - headSize : ℕ)⟩]

/-- `size` more bytes of hole, the last range first. -/
def pushHole (size : Int) : List DataRange → List DataRange
  | r :: rs =>
    if r.offset = holeOffset then { r with size := r.size + size } :: rs
    else { offset := holeOffset, size } :: r :: rs
  | [] => [{ offset := holeOffset, size }]

/-- `size` more bytes at `off` on device `dev`, the last range first. -/
def pushData (dev : ℕ) (off size : Int) : List DataRange → List DataRange
  | r :: rs =>
    if r.offset ≠ holeOffset ∧ r.device = dev ∧ r.offset + r.size = off then
      { r with size := r.size + size } :: rs
    else ⟨dev, off, size⟩ :: r :: rs
  | [] => [⟨dev, off, size⟩]

/-- One chunk of `buildChunkDataRanges`. -/
def pushChunk (nid : ℕ) (size : Int) (e : Option ChunkEntry) (ranges : List DataRange) :
    Except GoError (List DataRange) :=
  match e with
  | none => .ok (pushHole size ranges)
  | some c => do
    let addr ← img.chunkAddr c.block
    let (dev, off) ← img.locate c.device addr
    (img.boundOnDevice dev off size).mapError fun e => e.wrap "nid %d: %w" [.int nid]
    return pushData dev off size ranges

/-- The loop of `buildChunkDataRanges` from chunk `i` on: all chunks but the last have the chunk
size, the last ends with the file. -/
def chunkRanges (ino : Inode) : ℕ → List (Option ChunkEntry) → List DataRange →
    Except GoError (List DataRange)
  | _, [], ranges => .ok ranges.reverse
  | i, e :: es, ranges => do
    let chunkSize : ℕ := 2 ^ img.chunkBits ino
    let size : Int := if es = [] then ino.size - (i * chunkSize : ℕ) else chunkSize
    let ranges ← img.pushChunk ino.nid size e ranges
    chunkRanges ino (i + 1) es ranges

/-- `buildChunkDataRanges`. -/
def buildChunkDataRanges (ino : Inode) : Fallible (List DataRange) :=
  let needed := img.chunkCount ino * chunkUnit ino
  if ino.chunk48Bit then
    .done (.error (errorf "48-bit chunk format for nid %d: %w" [.int ino.nid] .notImplemented))
  else if !img.chunkIndexFits (img.chunkMapStart ino) needed then
    .done (.error (errorf "chunk index of nid %d lies past the end of the image: %w"
      [.int ino.nid] .corrupt))
  else (readerAt 0 (img.chunkMapStart ino) needed).bind fun a => .done <|
    match a.err with
    | some e => .error (e.wrap "chunk index of nid %d: %w" [.int ino.nid])
    | none => img.chunkRanges ino 0
        (img.chunkEntries ino (img.chunkCount ino) (buffer needed a.data)) []

/-- `buildDataRanges`. -/
def buildDataRanges (ino : Inode) : Fallible (List DataRange) :=
  match ino.inodeLayout with
  | .flatPlain => .done (img.flatPlainRange ino)
  | .flatInline => .done (img.flatInlineRanges ino)
  | .chunkBased => img.buildChunkDataRanges ino
  | _ => .done (.ok [])

/-- The ranges `statInfo` builds: those of a regular file that is not empty. -/
def statRanges (ino : Inode) : Fallible (List DataRange) :=
  if !ino.mode.isRegular || ino.size = 0 then .done (.ok [])
  else if ino.inodeLayout = .chunkBased then img.buildChunkDataRanges ino
  else (img.buildDataRanges ino).bind fun r => .done <|
    r.mapError fun e => e.wrap "nid %d: %w" [.int ino.nid]

/-- The `FileInfo` of an inode. -/
def fileInfo (ino : Inode) (xattrs : Xattrs) (ranges : List DataRange) : FileInfo where
  mode := ino.mode
  size := ino.size
  modTime := some (int64 ino.mtime, ino.mtimeNs)
  sys := .stat
    { uid := ino.uid, gid := ino.gid, mtime := ino.mtime, mtimeNs := ino.mtimeNs
      nlink := ino.nlink, rdev := rdevFromMode ino.rawMode ino.inodeData, ino := ino.nid, xattrs }
  dataRange := ranges

/-- `statInfo` once the inode is known. -/
def statWith (ino : Inode) : Fallible FileInfo :=
  (if 0 < ino.xsize then img.loadXattrs ino else .done (.ok [])).tryBind fun xattrs =>
    (img.statRanges ino).tryBind fun ranges => .done (.ok (fileInfo ino xattrs ranges))

/-- `statInfo`: the `FileInfo`, with the snapshot of the inode its `DataRange` reads a chunk map
by. -/
def statInfo (name : Bytes) (nid : ℕ) (ftype : FileMode) : Fallible (Inode × FileInfo) :=
  (img.readInfo name nid ftype).tryBind fun ino =>
    (img.statWith ino).tryBind fun fi => .done (.ok (ino, fi))

/-- `DataRange` of a chunk-based file's `FileInfo`, which reads the map again: a failure since
`Stat` reads as no ranges. -/
def loadRanges (ino : Inode) : ReadProg (List DataRange) :=
  (img.buildChunkDataRanges ino).bind fun r => .done <| match r with
    | .ok ranges => ranges
    | .error _ => []

end Image

end Erofs
