import Erofs.Writer.Copy

/-!
# The tree `Close` writes

`buildErofsTree` and the part of `Close` before the image is written (`mkfs.go`).  There is one
`erofsEntry` for each entry of the Writer that is converted, and it goes by the same index.

The queue loop takes the number of allocated entries as its fuel: an entry hangs under one
directory, and is queued once.
-/

namespace Erofs

open GoPath

/-- `erofsEntry`, without what `planLayout` assigns. -/
structure ErofsEntry where
  mode : Mode
  uid : ℕ := 0
  gid : ℕ := 0
  mtime : ℕ := 0
  mtimeNs : ℕ := 0
  nlink : ℕ := 0
  size : ℕ := 0
  rdev : ℕ := 0
  name : Bytes
  path : Path
  children : List EntryId := []
  symTarget : Bytes := []
  chunks : List Chunk := []
  contiguous : Bool := false
  metadataOnly : Bool := false
  tail : Bytes := []
  data : Option Reader := none
  xattrs : List (Bytes × Bytes) := []
  aliasOf : Option EntryId := none
  erofsFileType : ℕ := 0
  deriving DecidableEq

/-- `e.mode&disk.StatTypeMask == disk.StatTypeDir`. -/
def ErofsEntry.isDir (e : ErofsEntry) : Bool := e.mode.typ == Mode.dir

/-- The tree under `root`. -/
structure ErofsTree where
  ent : EntryId → ErofsEntry
  root : EntryId

namespace Writer

/-- The reader `fsToErofs` resolves for the data of an entry. -/
def entryData (w : Writer) (e : FsEntry) : Option Reader :=
  if w.dataFile.isNone ∧ e.chunks = [] ∧ e.metadataOnly = false ∧ e.mode.typ = Mode.reg ∧
      e.size > 0 then
    e.directData.or (w.spool.map fun s => { bytes := (s.drop e.spoolOff).take e.size })
  else none

/-- `fsToErofs`. -/
def fsToErofs (w : Writer) (e : FsEntry) : ErofsEntry where
  mode := e.mode
  uid := e.uid
  gid := e.gid
  mtime := e.mtime
  mtimeNs := e.mtimeNs
  nlink := w.linkCount e
  size := e.size
  rdev := e.rdev
  name := base e.path
  path := e.path
  symTarget := e.linkTarget
  chunks := e.chunks
  contiguous := e.contiguous
  metadataOnly := e.metadataOnly
  tail := e.tail
  data := w.entryData e
  xattrs := e.xattrs
  erofsFileType := modeToFileType e.mode

/-- The children that are not removed. -/
def liveChildren (w : Writer) (e : EntryId) : List EntryId :=
  (w.ent e).children.filter fun c => !(w.ent c).removed

/-- The loop of `buildErofsTree`: the entries taken off the queue, in order. -/
def dequeued (w : Writer) : ℕ → List EntryId → List EntryId
  | 0, _ => []
  | _ + 1, [] => []
  | fuel + 1, cur :: queue =>
    cur :: dequeued w fuel (queue ++ (w.liveChildren cur).filter fun c =>
      (w.ent c).linkTo.isNone && (w.ent c).isDir)

/-- The entries whose children `buildErofsTree` converts. -/
def expanded (w : Writer) : List EntryId := w.dequeued w.next [w.root]

/-- The entries `buildErofsTree` comes to below the root, in order. -/
def visited (w : Writer) : List EntryId := w.expanded.flatMap w.liveChildren

/-- The entry is in the map `converted`: it has an `erofsEntry` of its own, for its aliases. -/
def isConverted (w : Writer) (t : EntryId) : Bool :=
  w.visited.contains t && (w.ent t).linkTo.isNone && (w.ent t).extraLinks > 0

/-- The children of an `erofsEntry`, in the order of their names. -/
def sortedChildren (w : Writer) (e : EntryId) : List EntryId :=
  (w.liveChildren e).insertionSort fun a b => base (w.ent a).path ≤ base (w.ent b).path

/-- The `erofsEntry` of an entry; an alias has a name and no inode. -/
def erofsEntry (w : Writer) (c : EntryId) : ErofsEntry :=
  let e := w.ent c
  match e.linkTo with
  | some t => {
      mode := e.mode, name := base e.path, path := e.path
      aliasOf := if w.isConverted t then some t else none }
  | none => { w.fsToErofs e with
      children := if w.expanded.contains c then w.sortedChildren c else [] }

/-- The error of the last alias whose target was not converted. -/
def danglingAlias (w : Writer) : Option GoError :=
  (w.visited.reverse.findSome? fun c => (w.ent c).linkTo.bind fun t =>
    if w.isConverted t then none
    else some (errorf "mkfs: hardlink %s: target %s no longer exists: %w"
      [.path (w.ent c).path, .path (w.ent t).path] .notExist))

/-- `buildErofsTree`. -/
def buildErofsTree (w : Writer) : Writer × ErofsTree :=
  ({ w with wErr := w.danglingAlias.or w.wErr }, ⟨w.erofsEntry, w.root⟩)

/-- `Close` from `fsys.closed = true` to the tree: the block size is settled, and the data file's
device slot gets its size. -/
def beginClose (w : Writer) : Writer :=
  let w := { w with closed := true }.resolveBlockSize
  if w.dataFile.isSome then
    { w with devices := w.devices.set 0 ((w.dataOff + w.blockSize - 1) / w.blockSize) }
  else w

/-- `Close`, `write` being the error writing the image ended with, if any. -/
def close (w : Writer) (write : Option GoError) : Result :=
  match w.wErr with
  | some e => (w, some e)
  | none =>
    if w.closed then (w, some (errorf "mkfs: FS already closed: %w" [] .closed))
    else w.check (w.checkNoOpenFile "close the image") fun _ =>
      let w := w.beginClose.buildErofsTree.1
      (w, w.wErr.or write)

end Writer

end Erofs
