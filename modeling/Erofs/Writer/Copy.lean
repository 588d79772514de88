import Erofs.Xattr
import Erofs.Writer.State

/-!
# `CopyFrom`

The generic route of `Writer.CopyFrom` (`mkfs.go`): the callback it hands to
`fs.WalkDir`, and `add` and `addRegular` below it.  A source is given by what
`fs.WalkDir` delivers, one `WalkItem` per call of the callback, in lexical order with
every directory before its contents.

A step that fails may already have changed the Writer, so a step returns the Writer
together with the error, if any.  The answers of the data file to the writes made for an
item are part of the item.
-/

namespace Erofs

open GoPath

/-! ## Sources -/

/-- `builder.Entry`. -/
structure BuilderEntry where
  uid : ℕ := 0
  gid : ℕ := 0
  mtime : ℕ := 0
  mtimeNs : ℕ := 0
  nlink : ℕ := 0
  rdev : ℕ := 0
  dev : ℕ := 0
  ino : ℕ := 0
  xattrs : List (Bytes × Bytes) := []
  linkTarget : Bytes := []
  data : Option Reader := none
  chunks : List Chunk := []
  contiguous : Bool := false
  deriving DecidableEq

/-- The fields of the package's own `Stat` that `CopyFrom` reads. -/
structure Stat where
  uid : ℕ := 0
  gid : ℕ := 0
  mtime : ℕ := 0
  mtimeNs : ℕ := 0
  nlink : ℕ := 0
  rdev : ℕ := 0
  ino : ℕ := 0
  xattrs : List (Bytes × Bytes) := []
  deriving DecidableEq

/-- The fields of a host's `syscall.Stat_t` that `statEntry` reads. -/
structure HostStat where
  uid : ℕ := 0
  gid : ℕ := 0
  dev : ℕ := 0
  ino : ℕ := 0
  nlink : ℕ := 0
  rdev : ℕ := 0
  sec : Int := 0
  nsec : ℕ := 0
  deriving DecidableEq

/-- What `FileInfo.Sys` returns. -/
inductive Sys
  | entry (be : BuilderEntry)
  | stat (st : Stat)
  | host (st : HostStat)
  | other
  deriving DecidableEq

/-- `Sys` is a `*Stat` of this package. -/
def Sys.isStat : Sys → Bool
  | .stat _ => true
  | _ => false

/-- `DataRange`; a hole has the offset `-1`. -/
structure DataRange where
  device : ℕ := 0
  offset : Int
  size : Int
  deriving DecidableEq

/-- `fs.FileInfo`.  `modTime` is `none` for the zero time, and otherwise seconds and
nanoseconds; `dataRange` is what `DataRange` returns where the type has it. -/
structure FileInfo where
  mode : FileMode
  size : Int := 0
  modTime : Option (Int × ℕ) := none
  sys : Sys := .other
  dataRange : List DataRange := []
  deriving DecidableEq

/-- What one `Write` of the data file returned: `n` bytes were taken. -/
structure WriteAnswer where
  n : ℕ
  err : Option GoError := none
  deriving DecidableEq

/-- One call of the callback of `fs.WalkDir`, with what the source and the data file answer
when the callback asks them about the path. -/
structure WalkItem where
  path : Path
  /-- The error `fs.WalkDir` passes on. -/
  err : Option GoError := none
  /-- `d.Info()`. -/
  info : Except GoError FileInfo
  /-- `src.Open(path)`. -/
  file : Except GoError Reader := .ok { bytes := [] }
  /-- `ReadLink(path)`, of a source that has it. -/
  link : Except GoError Bytes := .ok []
  /-- `openDirect` of the inode, of a source that is an image. -/
  direct : Option Reader := none
  pad : WriteAnswer := { n := 0 }
  copied : WriteAnswer := { n := 0 }
  padEnd : WriteAnswer := { n := 0 }

/-- A source `fs.FS`, with the optional interfaces it implements. -/
structure Source where
  walk : List WalkItem
  /-- `blockSize` and `buildTime` of a source that is an `*image`. -/
  image : Option (Int × ℕ) := none
  blockSizer : Option Int := none
  deviceBlocker : Option ℕ := none
  buildTimer : Option ℕ := none
  readLinker : Bool := false

/-- `CopyOpt`s. -/
structure CopyOpts where
  metadataOnly : Bool := false
  merge : Bool := false

/-! ## Metadata -/

/-- `entryFromSys`, with `statEntry`. -/
def entryFromSys (info : FileInfo) : Except GoError (Option BuilderEntry) :=
  match info.sys with
  | .entry be => .ok (some be)
  | .host st =>
    if st.rdev ≥ 2 ^ 32 then
      .error (errorf "rdev %#x does not fit the 32-bit on-disk field: %w" [.int st.rdev] .invalid)
    else .ok (some {
      uid := st.uid, gid := st.gid, mtime := (st.sec % 2 ^ 64).toNat, mtimeNs := st.nsec % 2 ^ 32
      nlink := st.nlink % 2 ^ 32, rdev := st.rdev, dev := st.dev, ino := st.ino })
  | .stat _ => .ok none
  | .other => .ok none

/-- The first `switch` of the callback: the metadata `Sys` carries. -/
def sysEntry (p : Path) (info : FileInfo) : Except GoError (Option BuilderEntry) :=
  match info.sys with
  | .entry be => .ok (some be)
  | .stat st =>
    if st.rdev > 2 ^ 32 - 1 then
      .error (errorf "mkfs: %s: rdev %#x does not fit the 32-bit on-disk field: %w"
        [.path p, .int st.rdev] .invalid)
    else .ok (some {
      uid := st.uid, gid := st.gid, mtime := st.mtime, mtimeNs := st.mtimeNs
      nlink := min st.nlink (2 ^ 32 - 1), rdev := st.rdev, xattrs := st.xattrs, ino := st.ino })
  | .host _ => .ok none
  | .other => .ok none

/-- `entryFromSys` where the caller falls back to an empty entry. -/
def entryOrDefault (p : Path) (info : FileInfo) : Except GoError BuilderEntry :=
  match entryFromSys info with
  | .error e => .error (e.wrap "mkfs: %s: %w" [.path p])
  | .ok none => .ok {}
  | .ok (some be) => .ok be

/-- `be`, and the entry of `Sys` where there is none yet. -/
def orEntry (be : Option BuilderEntry) (p : Path) (info : FileInfo) : Except GoError BuilderEntry :=
  match be with
  | some be => .ok be
  | none => entryOrDefault p info

/-- The modification time `add` falls back to. -/
def withModTime (be : BuilderEntry) (info : FileInfo) : BuilderEntry :=
  match info.modTime with
  | some (sec, nsec) =>
    if be.mtime = 0 ∧ be.mtimeNs = 0 ∧ sec ≥ 0 then { be with mtime := sec.toNat, mtimeNs := nsec }
    else be
  | none => be

/-- The loop of `add` over the attributes. -/
def validateXattrs (p : Path) : List (Bytes × Bytes) → Except GoError Unit
  | [] => .ok ()
  | (name, value) :: rest =>
    match validateXattr name value with
    | .error e => .error (e.wrap "mkfs: %s: %w" [.path p])
    | .ok () => validateXattrs p rest

namespace Writer

/-! ## Block size, devices and data -/

def minBlockSize : ℕ := 512
def maxBlockSize : ℕ := 65536
def defaultBlockSize : ℕ := 4096

/-- `setBlockSize`. -/
def setBlockSize (w : Writer) (n : Int) : Except GoError Writer :=
  if n < minBlockSize ∨ n > maxBlockSize then
    .error (errorf "mkfs: invalid block size %d: must be between %d and %d: %w"
      [.int n, .int minBlockSize, .int maxBlockSize] .invalid)
  else if ¬ n.toNat.isPowerOfTwo then
    .error (errorf "mkfs: invalid block size %d: must be a power of two: %w" [.int n] .invalid)
  else if w.blockSize = 0 then .ok { w with blockSize := n.toNat }
  else if (w.blockSize : Int) ≠ n then
    .error (errorf "mkfs: block size conflict: already %d, requested %d: %w"
      [.int w.blockSize, .int n] .invalid)
  else .ok w

/-- `resolveBlockSize`. -/
def resolveBlockSize (w : Writer) : Writer :=
  if w.blockSize = 0 then { w with blockSize := defaultBlockSize } else w

/-- `checkDeviceCount`. -/
def checkDeviceCount (w : Writer) (adding : ℕ) : Except GoError Unit :=
  if w.devices.length + adding > 65535 then
    .error (errorf "mkfs: %d devices exceeds the %d a 16-bit device id can name: %w"
      [.int (w.devices.length + adding), .int 65535] .invalid)
  else .ok ()

/-- A Writer and the error the call returned, if any. -/
abbrev Result := Writer × Option GoError

/-- The next statement, unless the call has failed. -/
def Result.andThen (r : Result) (f : Writer → Result) : Result :=
  match r.2 with
  | some e => (r.1, some e)
  | none => f r.1

/-- Return the error of a check, or go on with its value. -/
def check {α : Type} (w : Writer) (c : Except GoError α) (f : α → Result) : Result :=
  match c with
  | .error e => (w, some e)
  | .ok a => f a

/-- `Write` of the data file: `dataFile.Write(data)` and `dataOff += n`. -/
def writeData (w : Writer) (data : Bytes) (a : WriteAnswer) : Writer :=
  { w with
    dataFile := w.dataFile.map (· ++ data.take a.n)
    dataOff := w.dataOff + (data.take a.n).length }

/-- Pad the data file to a block boundary. -/
def padData (w : Writer) (a : WriteAnswer) : Result :=
  if w.dataOff % w.blockSize = 0 then (w, none)
  else
    (w.writeData (List.replicate (w.blockSize - w.dataOff % w.blockSize) nulByte) a,
      a.err.map (·.wrap "mkfs: pad data file: %w" []))

/-- `alignDataOff`. -/
def alignDataOff (w : Writer) (a : WriteAnswer) : Result :=
  if w.dataFile.isNone then (w, none) else w.resolveBlockSize.padData a

/-- The chunks of a run of `blocks` blocks from `start`, at most 65535 to a chunk. -/
def chunkRun (device : ℕ) : ℕ → ℕ → ℕ → List Chunk
  | 0, _, _ => []
  | fuel + 1, start, blocks =>
    if blocks = 0 then []
    else
      let count := min blocks 65535
      { physicalBlock := start, count, deviceID := device } ::
        chunkRun device fuel (if start = nullPhysicalBlock then start else start + count)
          (blocks - count)

/-- `deviceChunks`. -/
def deviceChunks (start blocks device : ℕ) : List Chunk := chunkRun device blocks start blocks

/-- `closeDataFile`, for the file with entry `e` whose data starts at `start` and is
`written` bytes long. -/
def closeDataFile (w : Writer) (e : EntryId) (start written : ℕ) (a : WriteAnswer) : Result :=
  if written = 0 then (w, none)
  else (w.resolveBlockSize.padData a).andThen fun w =>
    (w.modify e fun x => { x with
      chunks := x.chunks ++
        deviceChunks (start / w.blockSize) ((written + w.blockSize - 1) / w.blockSize) 1 }, none)

/-- The data-file branch of `add`: `alignDataOff`, then `ReadFrom` and `Close` of a `File` on
the entry. -/
def copyData (w : Writer) (e : EntryId) (data : Reader) (it : WalkItem) : Result :=
  (w.alignDataOff it.pad).andThen fun w =>
    let start := w.dataOff
    let w₁ := (w.modify e fun x => { x with dataStartOff := start }).writeData data.bytes it.copied
    match it.copied.err.or data.err with
    | some err => (w₁, some err)
    | none =>
      let written := w₁.dataOff - start
      (w₁.modify e fun x => { x with fileClosed := true, size := written }).closeDataFile e start
        written it.padEnd

/-! ## Chunks of a metadata-only source -/

/-- The value of an `int64` sum. -/
def int64 (x : Int) : Int := Int.bmod x (2 ^ 64)

/-- One range of `chunksFromRanges`. -/
def rangeChunks (blockSize i : ℕ) (final : Bool) (r : DataRange) : Except GoError (List Chunk) :=
  let blocks := (r.size.toNat + blockSize - 1) / blockSize
  if r.size ≤ 0 then
    .error (errorf "DataRange[%d]: non-positive Size %d: %w" [.int i, .int r.size] .invalid)
  else if final = false ∧ r.size.toNat % blockSize ≠ 0 then
    .error (errorf "DataRange[%d]: non-final Size %d is not block-aligned (block size %d): %w"
      [.int i, .int r.size, .int blockSize] .invalid)
  else if r.offset = -1 then .ok (deviceChunks nullPhysicalBlock blocks 0)
  else if r.offset < 0 then
    .error (errorf "DataRange[%d]: negative Offset %d: %w" [.int i, .int r.offset] .invalid)
  else if r.offset.toNat % blockSize ≠ 0 then
    .error (errorf "DataRange[%d]: Offset %d is not block-aligned (block size %d): %w"
      [.int i, .int r.offset, .int blockSize] .invalid)
  else if r.device ≠ 0 then
    .error (errorf ("DataRange[%d]: Device %d out of range " ++
      "(source declared one device, only Device=0 is valid): %w")
      [.int i, .int r.device] .invalid)
  else .ok (deviceChunks (r.offset.toNat / blockSize) blocks (r.device + 1))

/-- The loop of `chunksFromRanges`, from the `i`-th range on. -/
def rangesChunks (blockSize : ℕ) : ℕ → List DataRange → Except GoError (List Chunk)
  | _, [] => .ok []
  | i, r :: rest =>
    match rangeChunks blockSize i rest.isEmpty r with
    | .error e => .error e
    | .ok cs => (rangesChunks blockSize (i + 1) rest).map (cs ++ ·)

/-- `chunksFromRanges`, once the block size is resolved. -/
def chunksFromRanges (w : Writer) (ranges : List DataRange) (fileSize : Int) :
    Except GoError (List Chunk) :=
  let total := ranges.foldl (fun t r => int64 (t + r.size)) 0
  if total ≠ fileSize then
    .error (errorf "DataRange total size %d does not match file size %d: %w"
      [.int total, .int fileSize] .invalid)
  else rangesChunks w.blockSize 0 ranges

/-- `remapChunkDevices` of one chunk. -/
def remapChunk (w : Writer) (p : Path) (c : Chunk) : Except GoError Chunk :=
  if c.physicalBlock = nullPhysicalBlock then .ok c
  else if c.deviceID = 0 ∧ w.copySourceIsImage = false then
    .error (errorf ("mkfs: %s: chunk references the source's own device (DeviceID 0), " ++
      "which is not registered in the destination: %w")
      [.path p] .invalid)
  else
    let id := c.deviceID + (if w.copySourceIsImage then w.copyDeviceID else w.copyDeviceID - 1)
    if id > w.devices.length then
      .error (errorf "mkfs: %s: chunk device %d maps to device %d, past the %d declared devices: %w"
        [.path p, .int c.deviceID, .int id, .int w.devices.length] .invalid)
    else .ok { c with deviceID := id }

/-- The loop of `remapChunkDevices`: the chunks before one that is refused are remapped. -/
def remapLoop (w : Writer) (p : Path) : List Chunk → List Chunk × Option GoError
  | [] => ([], none)
  | c :: rest =>
    match w.remapChunk p c with
    | .error e => (c :: rest, some e)
    | .ok c' => (c' :: (remapLoop w p rest).1, (remapLoop w p rest).2)

/-- `remapChunkDevices`. -/
def remapChunkDevices (w : Writer) (p : Path) (chunks : List Chunk) : List Chunk × Option GoError :=
  if w.copyDeviceID = 0 then (chunks, none) else w.remapLoop p chunks

/-! ## Adding one entry -/

/-- The entry `add` builds. -/
def newEntry (p : Path) (mode : Mode) (size : ℕ) (be : BuilderEntry) : FsEntry where
  path := p
  mode
  uid := be.uid
  gid := be.gid
  mtime := be.mtime
  mtimeNs := be.mtimeNs
  size
  rdev := be.rdev
  xattrs := be.xattrs
  linkTarget := be.linkTarget
  chunks := be.chunks
  contiguous := be.contiguous

/-- The root branch of `add`. -/
def setRoot (w : Writer) (mode : Mode) (be : BuilderEntry) : Writer :=
  w.modify w.root fun r => { r with
    mode, uid := be.uid, gid := be.gid, mtime := be.mtime, mtimeNs := be.mtimeNs
    xattrs := be.xattrs }

/-- The condition under which `add` looks at `copyLinks`: a source inode that may have more
names. -/
def sharesInode (mode : Mode) (be : BuilderEntry) : Bool :=
  mode.typ != Mode.dir && be.ino != 0 && be.nlink > 1

/-- The inode an earlier name of the source inode was given, if it is still there. -/
def priorName (w : Writer) (k : HardlinkKey) : Option EntryId :=
  match w.copyLinks k with
  | some t => if (w.ent t).removed then none else some t
  | none => none

/-- `placeEntry`, with the source inode remembered if it may have more names. -/
def placeItem (w : Writer) (fe : FsEntry) (share : Bool) (k : HardlinkKey) : Writer × EntryId :=
  let w₀ := (w.placeEntry fe).1
  let e := (w.placeEntry fe).2
  (if share then { w₀ with copyLinks := Function.update w₀.copyLinks k (some e) } else w₀, e)

/-- The end of `add`: the chunks and the data of the entry `fe` that was placed. -/
def fillEntry (w : Writer) (fe : EntryId) (p : Path) (mode : Mode) (size : ℕ) (be : BuilderEntry)
    (it : WalkItem) : Result :=
  if w.copyMetadataOnly then
    let (chunks, err) := w.remapChunkDevices p be.chunks
    let w₁ := w.modify fe fun x => { x with metadataOnly := true, chunks }
    match err with
    | some e => (w₁, some e)
    | none => (w₁.modify fe fun x => { x with fileClosed := true }, none)
  else
    match (if mode.typ = Mode.reg ∧ size > 0 then be.data else none) with
    | some data =>
      let w₁ := w.modify fe fun x => { x with chunks := [], contiguous := false }
      if w₁.dataFile.isSome then w₁.copyData fe data it
      else (w₁.modify fe fun x => { x with directData := some data, fileClosed := true }, none)
    | none => (w.modify fe fun x => { x with fileClosed := true }, none)

/-- `add` from `fe = fsys.placeEntry(fe)` on. -/
def finishEntry (w : Writer) (p : Path) (mode : Mode) (size : ℕ) (be : BuilderEntry)
    (it : WalkItem) : Result :=
  let r := w.placeItem (newEntry p mode size be) (sharesInode mode be) ⟨be.dev, be.ino⟩
  r.1.fillEntry r.2 p mode size be it

/-- `add`, of an already cleaned path, `sys` being what `entryFromSys` gives for its `info`. -/
def add (w : Writer) (p : Path) (info : FileInfo) (sys : Except GoError BuilderEntry)
    (it : WalkItem) : Result :=
  let mode := goModeToUnixMode info.mode
  w.check (checkPathLen p) fun _ =>
  w.check (checkNameLen p) fun _ =>
  if info.size < 0 then
    (w, some (errorf "mkfs: %s: negative size %d: %w" [.path p, .int info.size] .invalid))
  else
    w.check sys fun be =>
    w.check (if mode.typ = Mode.symlink then checkSymlinkTarget p be.linkTarget else .ok ())
      fun _ =>
    w.check (validateXattrs p be.xattrs) fun _ =>
    let be := withModTime be info
    if p = [] then (w.setRoot mode be, none)
    else w.check (w.ensureParent p) fun w =>
      match (if sharesInode mode be then w.priorName ⟨be.dev, be.ino⟩ else none) with
      | some prior => w.check (w.addAlias p prior) fun w => (w, none)
      | none => w.finishEntry p mode info.size.toNat be it

/-- The chunks `addRegular` finds for a file of a metadata-only source. -/
def withRanges (w : Writer) (p : Path) (info : FileInfo) (be : BuilderEntry) :
    Except GoError BuilderEntry :=
  if be.chunks = [] ∧ info.dataRange ≠ [] then
    match w.chunksFromRanges info.dataRange info.size with
    | .error e => .error (e.wrap "chunksFromRanges %s: %w" [.path p])
    | .ok chunks => .ok { be with
        chunks
        contiguous := match info.dataRange with
          | [r] => r.offset != -1
          | _ => false }
  else .ok be

/-- `addRegular`. -/
def addRegular (w : Writer) (src : Source) (info : FileInfo) (be : Option BuilderEntry)
    (it : WalkItem) : Result :=
  let p := it.path
  if w.copyMetadataOnly then
    w.check (orEntry be p info) fun be =>
      let w := if be.chunks = [] ∧ info.dataRange ≠ [] then w.resolveBlockSize else w
      w.check (w.withRanges p info be) fun be => w.add p info (.ok be) it
  else
    match (if src.image.isSome ∧ info.sys.isStat then it.direct else none) with
    | some dr => w.add p info (.ok { be.getD {} with data := some dr }) it
    | none =>
      w.check (orEntry be p info) fun be =>
        match it.file with
        | .error e => (w, some (e.wrap "open %s: %w" [.path p]))
        | .ok f => w.add p info (.ok { be with data := some f }) it

/-! ## The walk -/

/-- The name of a whiteout marker, as the generic route recognises it. -/
def isWhiteout (base : Bytes) : Bool := whiteoutPrefix.isPrefixOf base

/-- The merge branch of the callback, for the marker at `p`. -/
def applyMarker (w : Writer) (p : Path) : Writer :=
  if base p = opaqueWhiteout then w.removeChildren (dir p)
  else w.removeTree (joinElem (dir p) ((base p).drop whiteoutPrefix.length))

/-- The callback once the entry is known to be no marker. -/
def addItem (w : Writer) (src : Source) (info : FileInfo) (it : WalkItem) : Result :=
  let p := it.path
  w.check (sysEntry p info) fun be =>
  if info.mode.isRegular ∧ info.size > 0 ∧ (be.bind (·.data)).isNone then
    w.addRegular src info be it
  else if info.mode.has FileMode.symlink ∧ (be.all fun b => b.linkTarget.isEmpty) ∧
      src.readLinker then
    match it.link with
    | .error e => (w, some (e.wrap "readlink %s: %w" [.path p]))
    | .ok target => w.check (orEntry be p info) fun be =>
        w.add p info (.ok { be with linkTarget := target }) it
  else if info.mode.isDir then
    w.check (orEntry be p info) fun be => w.add p info (.ok be) it
  else w.add p info (orEntry be p info) it

/-- The callback of `fs.WalkDir`. -/
def walkStep (src : Source) (w : Writer) (it : WalkItem) : Result :=
  match it.err with
  | some e => (w, some e)
  | none =>
    match it.info with
    | .error e => (w, some (e.wrap "stat %s: %w" [.path it.path]))
    | .ok info =>
      if w.copyMerge ∧ it.path ≠ [] ∧ isWhiteout (base it.path) then (w.applyMarker it.path, none)
      else w.addItem src info it

/-- `fs.WalkDir` with the callback: it stops at the first error. -/
def walkDir (src : Source) (w : Writer) : List WalkItem → Result
  | [] => (w, none)
  | it :: rest => (walkStep src w it).andThen fun w => walkDir src w rest

/-- The state a `CopyFrom` starts from, its options applied. -/
def beginCopy (w : Writer) (opts : CopyOpts) : Writer :=
  { w with
    copyMetadataOnly := opts.metadataOnly
    copyMerge := opts.merge
    copyDeviceID := 0
    copySourceIsImage := false
    copyLinks := fun _ => none }

/-- `setBlockSize` where the source declares a size. -/
def sourceBlockSize (w : Writer) (size : Option Int) : Except GoError Writer :=
  match size with
  | some n => w.setBlockSize n
  | none => .ok w

/-- Take over the source's build time unless one is set. -/
def sourceBuildTime (w : Writer) (time : Option ℕ) : Writer :=
  match time with
  | some t => if w.hasBuildTime then w else { w with buildTime := t, hasBuildTime := true }
  | none => w

/-- Register the device of a metadata-only source. -/
def sourceDevice (w : Writer) (blocks : Option ℕ) : Except GoError Writer :=
  match (if w.copyMetadataOnly then blocks else none) with
  | none => .ok w
  | some n => (w.checkDeviceCount 1).map fun _ =>
      { w with devices := w.devices ++ [n], copyDeviceID := w.devices.length + 1 }

/-- `CopyFrom`, of a source that is not copied by `copyFromImage`. -/
def copyFrom (w : Writer) (src : Source) (opts : CopyOpts) : Result :=
  match w.wErr with
  | some e => (w, some e)
  | none =>
    w.check (w.checkNoOpenFile "call CopyFrom") fun _ =>
    let w := w.beginCopy opts
    w.check (w.sourceBlockSize (src.image.map (·.1))) fun w =>
    let w := w.sourceBuildTime (src.image.map (·.2))
    w.check (w.sourceBlockSize src.blockSizer) fun w =>
    w.check (w.sourceDevice src.deviceBlocker) fun w =>
    walkDir src (w.sourceBuildTime src.buildTimer) src.walk

end Writer

end Erofs
