import Erofs.Errors
import Erofs.Disk

/-!
# The Writer's tree of entries

The in-memory tree of `mkfs.go`: `fsEntry`, the `Writer` that holds it, and the
functions that attach, replace and remove entries.  Pointers are indices into the
heap `ent`, handed out in order from `next`; a Go map is a function to `Option`.

A path is the list of its elements (`GoPath.Path`), which is the cleaned string the
source keys `byPath` by (`cleanPath_render`).  A loop over the tree that the source
writes as a recursive closure takes the number of allocated entries as its fuel: no
chain of directories is longer.
-/

namespace Erofs

open GoPath

/-! ## Data -/

/-- A pointer to an `fsEntry`. -/
abbrev EntryId := ℕ

/-- `builder.NullPhysicalBlock`. -/
def nullPhysicalBlock : ℕ := 2 ^ 64 - 1

/-- `builder.Chunk`. -/
structure Chunk where
  physicalBlock : ℕ
  count : ℕ
  deviceID : ℕ := 0
  deriving DecidableEq

/-- An `io.Reader` handed over for a file's data: what it delivers, and the error it
ends with, if it does not end with `io.EOF`. -/
structure Reader where
  bytes : Bytes
  err : Option GoError := none
  deriving DecidableEq

/-- `fsEntry`. -/
structure FsEntry where
  path : Path
  mode : Mode
  uid : ℕ := 0
  gid : ℕ := 0
  atime : ℕ := 0
  atimeNs : ℕ := 0
  mtime : ℕ := 0
  mtimeNs : ℕ := 0
  nlink : ℕ := 0
  nlinkSet : Bool := false
  size : ℕ := 0
  rdev : ℕ := 0
  xattrs : List (Bytes × Bytes) := []
  linkTarget : Bytes := []
  chunks : List Chunk := []
  contiguous : Bool := false
  tail : Bytes := []
  linkTo : Option EntryId := none
  extraLinks : ℕ := 0
  parent : Option EntryId := none
  children : List EntryId := []
  spoolOff : ℕ := 0
  dataStartOff : ℕ := 0
  fileClosed : Bool := false
  directData : Option Reader := none
  removed : Bool := false
  metadataOnly : Bool := false
  deriving DecidableEq

/-- `e.mode&disk.StatTypeMask == disk.StatTypeDir`. -/
def FsEntry.isDir (e : FsEntry) : Bool := e.mode.typ == Mode.dir

/-- A pointer to a `File`. -/
abbrev FileId := ℕ

/-- `File`. -/
structure File where
  entry : EntryId
  dataStartOff : ℕ := 0
  written : ℕ := 0
  closed : Bool := false
  deriving DecidableEq

/-- `hardlinkKey`: the identity of a source inode within one `CopyFrom`. -/
structure HardlinkKey where
  dev : ℕ
  ino : ℕ
  deriving DecidableEq

/-- `Writer`.  `spool` and `dataFile` hold the bytes appended so far to the spool file and
to the data file; the data file is what `WithDataFile` supplied. -/
structure Writer where
  ent : EntryId → FsEntry
  next : EntryId
  root : EntryId
  byPath : Path → Option EntryId
  closed : Bool := false
  blockSize : ℕ := 0
  noInlineData : Bool := false
  buildTime : ℕ := 0
  buildTimeNs : ℕ := 0
  hasBuildTime : Bool := false
  wErr : Option GoError := none
  devices : List ℕ := []
  copyMetadataOnly : Bool := false
  copyMerge : Bool := false
  copyDeviceID : ℕ := 0
  copySourceIsImage : Bool := false
  copyLinks : HardlinkKey → Option EntryId := fun _ => none
  files : FileId → File := fun _ => { entry := 0 }
  nextFile : FileId := 0
  openFile : Option FileId := none
  dataFile : Option Bytes := none
  dataOff : ℕ := 0
  spool : Option Bytes := none
  spoolOff : ℕ := 0

/-! ## Paths -/

/-- `cleanPath`: a path in rooted form, the root for `""`, `"."` and `"/"`. -/
def cleanPath (p : Bytes) : Path := cleanElems (isAbs p) (split p)

/-- The string of a canonical path cleans to the path itself, so that `byPath` keyed by
the elements is `byPath` keyed by the string. -/
theorem cleanPath_render {p : Path} (h : Canonical p) : cleanPath (render p) = p :=
  elems_render h

/-- `maxPathLen`. -/
def maxPathLen : ℕ := 4096

/-- `maxNameLen`. -/
def maxNameLen : ℕ := 255

/-- `maxSymlinkTarget`. -/
def maxSymlinkTarget : ℕ := 4095

/-- `whiteoutPrefix`. -/
def whiteoutPrefix : Bytes := ascii ['.', 'w', 'h', '.']

/-- `opaqueWhiteout`. -/
def opaqueWhiteout : Bytes := ascii ['.', 'w', 'h', '.', '.', 'w', 'h', '.', '.', 'o', 'p', 'q']

namespace Writer

/-! ## The heap -/

/-- Assign through the pointer `i`. -/
def modify (w : Writer) (i : EntryId) (f : FsEntry → FsEntry) : Writer :=
  { w with ent := Function.update w.ent i (f (w.ent i)) }

@[simp] theorem modify_byPath (w : Writer) (i : EntryId) (f : FsEntry → FsEntry) :
    (w.modify i f).byPath = w.byPath := rfl

@[simp] theorem modify_next (w : Writer) (i : EntryId) (f : FsEntry → FsEntry) :
    (w.modify i f).next = w.next := rfl

@[simp] theorem modify_root (w : Writer) (i : EntryId) (f : FsEntry → FsEntry) :
    (w.modify i f).root = w.root := rfl

@[simp] theorem modify_copyLinks (w : Writer) (i : EntryId) (f : FsEntry → FsEntry) :
    (w.modify i f).copyLinks = w.copyLinks := rfl

theorem modify_ent (w : Writer) (i : EntryId) (f : FsEntry → FsEntry) (j : EntryId) :
    (w.modify i f).ent j = if j = i then f (w.ent i) else w.ent j := by
  simp [modify, Function.update_apply]

/-- `linkCount`: the link count `Close` will write. -/
def linkCount (w : Writer) (e : FsEntry) : ℕ :=
  if e.nlinkSet then e.nlink
  else if e.isDir then
    2 + (e.children.filter fun c => !(w.ent c).removed && (w.ent c).isDir).length
  else 1 + e.extraLinks

/-- The inode a registered name stands for: the target of a hardlink, the entry itself
otherwise. -/
def resolve (w : Writer) (i : EntryId) : EntryId := ((w.ent i).linkTo).getD i

/-- `lookup`. -/
def lookup (w : Writer) (name : Bytes) : Except GoError EntryId :=
  match w.byPath (cleanPath name) with
  | none => .error (errorf "mkfs: path not found %q: %w" [.path (cleanPath name)] .notExist)
  | some e => .ok (w.resolve e)

/-! ## Checks -/

/-- `checkPathLen`. -/
def checkPathLen (name : Path) : Except GoError Unit :=
  if (render name).length > maxPathLen then
    .error (errorf ("mkfs: path is %d bytes, over the %d byte limit " ++
      "(a source whose directories form a cycle looks like this): %w")
      [.int (render name).length, .int maxPathLen] .invalid)
  else .ok ()

/-- `checkNameLen`. -/
def checkNameLen (name : Path) : Except GoError Unit :=
  match name.find? fun component => decide (component.length > maxNameLen) with
  | some component =>
    .error (errorf "mkfs: name %q is %d bytes, over the %d byte limit: %w"
      [.bytes component, .int component.length, .int maxNameLen] .invalid)
  | none => .ok ()

/-- `checkSymlinkTarget`. -/
def checkSymlinkTarget (name : Path) (target : Bytes) : Except GoError Unit :=
  if target = [] then
    .error (errorf "mkfs: %s: empty symlink target: %w" [.path name] .invalid)
  else if nulByte ∈ target then
    .error (errorf "mkfs: %s: symlink target holds a NUL byte: %w" [.path name] .invalid)
  else if target.length > maxSymlinkTarget then
    .error (errorf "mkfs: %s: symlink target is %d bytes, over the %d byte limit: %w"
      [.path name, .int target.length, .int maxSymlinkTarget] .invalid)
  else .ok ()

/-- `checkPath`. -/
def checkPath (w : Writer) (name : Path) : Except GoError Unit := do
  if w.closed then throw (errorf "mkfs: FS is closed: %w" [] .closed)
  checkPathLen name
  checkNameLen name
  if (w.byPath name).isSome then
    throw (errorf "mkfs: duplicate path %q: %w" [.path name] .exist)

/-- `checkNoOpenFile`. -/
def checkNoOpenFile (w : Writer) (action : String) : Except GoError Unit :=
  match w.openFile with
  | none => .ok ()
  | some f =>
    .error (errorf "mkfs: %q is %w; close it before you %s"
      [.path (w.ent (w.files f).entry).path, .text action] .fileOpen)

/-- `checkNotOpen`. -/
def checkNotOpen (w : Writer) (e : EntryId) (action : String) : Except GoError Unit :=
  match w.openFile with
  | none => .ok ()
  | some f =>
    if (w.files f).entry = e then
      .error (errorf "mkfs: %q is %w; close it before you %s it"
        [.path (w.ent e).path, .text action] .fileOpen)
    else .ok ()

/-! ## Attaching entries -/

/-- `addChild`, of a freshly allocated entry.  The parent is the entry registered at the
directory of the path, and the root where there is none. -/
def addChild (w : Writer) (e : FsEntry) : Writer :=
  let parent := (w.byPath (dir e.path)).getD w.root
  { w with
    ent := Function.update (Function.update w.ent w.next { e with parent := some parent }) parent
      { w.ent parent with children := (w.ent parent).children ++ [w.next] }
    next := w.next + 1
    byPath := Function.update w.byPath e.path (some w.next) }

/-- The directory entry `ensureParent` creates. -/
def implicitDir (p : Path) : FsEntry := { path := p, mode := Mode.dir ||| 0o755#16 }

/-- The first loop of `ensureParent`: from `d` upwards, the directories that are missing
below the nearest registered ancestor, the deepest first. -/
def missingParents (w : Writer) : ℕ → Path → Except GoError (List Path)
  | 0, _ => .ok []
  | fuel + 1, d =>
    if d = [] then .ok []
    else match w.byPath d with
      | some e =>
        if (w.ent (w.resolve e)).isDir then .ok []
        else .error (pathError "mkdir" d .notDirectory)
      | none => (missingParents w fuel (dir d)).map (d :: ·)

/-- `ensureParent`: the missing directories are created from the top down. -/
def ensureParent (w : Writer) (name : Path) : Except GoError Writer :=
  (w.missingParents name.length (dir name)).map fun missing =>
    missing.reverse.foldl (fun w d => w.addChild (implicitDir d)) w

/-! ## Removing entries -/

/-- The walk of `promoteAlias`: the entries below `d`, none of them removed, that are
names of `target`'s inode. -/
def aliasesBelow (w : Writer) (target : EntryId) : ℕ → EntryId → List EntryId
  | 0, _ => []
  | fuel + 1, d => (w.ent d).children.flatMap fun c =>
      if (w.ent c).removed then []
      else (if (w.ent c).linkTo = some target then [c] else [])
        ++ (if (w.ent c).isDir then aliasesBelow w target fuel c else [])

/-- The aliases of `target` in the order of their path strings. -/
def sortedAliases (w : Writer) (target : EntryId) : List EntryId :=
  (w.aliasesBelow target w.next w.root).insertionSort
    fun a b => render (w.ent a).path ≤ render (w.ent b).path

/-- The heir of `promoteAlias` after `*heir = *target`: `target`'s inode under the heir's
own name and place in the tree. -/
def takeover (target heir : FsEntry) (extraLinks : ℕ) : FsEntry :=
  { target with
    path := heir.path, parent := heir.parent, linkTo := none, removed := false, extraLinks }

/-- `promoteAlias`. -/
def promoteAlias (w : Writer) (target : EntryId) : Writer :=
  match w.sortedAliases target with
  | [] => w.modify target fun t => { t with extraLinks := 0 }
  | heir :: others =>
    let w₁ := w.modify heir fun h => takeover (w.ent target) h others.length
    let w₂ := others.foldl (fun w a => w.modify a fun e => { e with linkTo := some heir }) w₁
    let w₃ := w₂.modify target fun t => { t with extraLinks := 0, children := [] }
    { w₃ with copyLinks := fun k =>
        if w₃.copyLinks k = some target then some heir else w₃.copyLinks k }

/-- The first two statements of `unlinkEntry`: the entry is marked and its name dropped. -/
def dropName (w : Writer) (e : EntryId) : Writer :=
  { w.modify e fun x => { x with removed := true } with
    byPath := Function.update w.byPath (w.ent e).path none }

theorem dropName_ent (w : Writer) (e j : EntryId) :
    (w.dropName e).ent j = if j = e then { w.ent e with removed := true } else w.ent j := by
  simp [dropName, modify_ent]

@[simp] theorem dropName_next (w : Writer) (e : EntryId) : (w.dropName e).next = w.next := rfl

@[simp] theorem dropName_root (w : Writer) (e : EntryId) : (w.dropName e).root = w.root := rfl

@[simp] theorem dropName_byPath (w : Writer) (e : EntryId) :
    (w.dropName e).byPath = Function.update w.byPath (w.ent e).path none := rfl

/-- `extraLinks--` of a `uint32`. -/
def decLinks (n : ℕ) : ℕ := if n = 0 then 2 ^ 32 - 1 else n - 1

/-- `unlinkEntry`: drop one name, and settle what it means for the inode's other names. -/
def unlinkEntry (w : Writer) (e : EntryId) : Writer :=
  match (w.ent e).linkTo with
  | some t => (w.dropName e).modify t fun x => { x with extraLinks := decLinks x.extraLinks }
  | none =>
    if (w.ent e).extraLinks > 0 then (w.dropName e).promoteAlias e else w.dropName e

/-- Unlink an entry and, if it is a directory, everything below it: the loop body of
`removeSubtree` and the whole of `removeTree`. -/
def removeEntry (removeSubtree : Writer → EntryId → Writer) (w : Writer) (e : EntryId) : Writer :=
  if ((w.unlinkEntry e).ent e).isDir then removeSubtree (w.unlinkEntry e) e else w.unlinkEntry e

/-- `removeSubtree`: unlink every entry below `e`. -/
def removeSubtree : ℕ → Writer → EntryId → Writer
  | 0, w, _ => w
  | fuel + 1, w, e => (w.ent e).children.foldl (fun w c =>
      if (w.ent c).removed then w else removeEntry (removeSubtree fuel) w c) w

/-- `removeTree`, of an already cleaned path. -/
def removeTree (w : Writer) (p : Path) : Writer :=
  match w.byPath p with
  | none => w
  | some e => removeEntry (removeSubtree w.next) w e

/-- `removeChildren`, of an already cleaned path. -/
def removeChildren (w : Writer) (d : Path) : Writer :=
  match w.byPath d with
  | none => w
  | some e => removeSubtree w.next w e

/-! ## Replacing entries -/

/-- `addAlias`. -/
def addAlias (w : Writer) (p : Path) (target : EntryId) : Except GoError Writer :=
  let t := w.resolve target
  match w.byPath p with
  | none =>
    .ok ((w.addChild { path := p, mode := (w.ent t).mode, linkTo := some t }).modify t
      fun x => { x with extraLinks := x.extraLinks + 1 })
  | some existing =>
    if existing = t then .ok w
    else if (w.ent existing).isDir then
      .error
        (errorf "mkfs: %s: cannot replace a directory with a hardlink: %w" [.path p] .isDirectory)
    else
      let w' := w.unlinkEntry existing
      .ok ((w'.addChild { path := p, mode := (w'.ent t).mode, linkTo := some t }).modify t
        fun x => { x with extraLinks := x.extraLinks + 1 })

/-- `*existing = *fe` in `placeEntry`, with the place in the tree restored. -/
def overwrite (w : Writer) (e : EntryId) (fe : FsEntry) : Writer :=
  w.modify e fun x => { fe with parent := x.parent, children := x.children }

/-- `placeEntry`: attach a freshly built entry, replacing what is at its path.  The second
component is the pointer that now lives in the tree. -/
def placeEntry (w : Writer) (fe : FsEntry) : Writer × EntryId :=
  match w.byPath fe.path with
  | none => (w.addChild fe, w.next)
  | some existing =>
    if (w.ent existing).linkTo.isSome ∨ (w.ent existing).extraLinks > 0 then
      let w' := w.unlinkEntry existing
      (w'.addChild fe, w'.next)
    else
      (w.overwrite existing fe, existing)

/-! ## What the tree operations leave alone -/

/-- The Writer without its tree. -/
def bare (w : Writer) : Writer :=
  { w with
    ent := fun _ => { path := [], mode := 0 }
    next := 0
    byPath := fun _ => none
    copyLinks := fun _ => none }

theorem bare_foldl {α : Type} {f : Writer → α → Writer} (hf : ∀ w a, (f w a).bare = w.bare)
    (l : List α) (w : Writer) : (l.foldl f w).bare = w.bare := by
  induction l generalizing w with
  | nil => rfl
  | cons a l ih => exact (ih (f w a)).trans (hf w a)

@[simp] theorem bare_modify (w : Writer) (i : EntryId) (f : FsEntry → FsEntry) :
    (w.modify i f).bare = w.bare := rfl

@[simp] theorem bare_addChild (w : Writer) (e : FsEntry) : (w.addChild e).bare = w.bare := rfl

@[simp] theorem bare_promoteAlias (w : Writer) (t : EntryId) :
    (w.promoteAlias t).bare = w.bare := by
  unfold promoteAlias
  cases w.sortedAliases t with
  | nil => rfl
  | cons heir others =>
    exact bare_foldl (f := fun w a => w.modify a fun e => { e with linkTo := some heir })
      (fun _ _ => rfl) others (w.modify heir fun h => takeover (w.ent t) h others.length)

@[simp] theorem bare_unlinkEntry (w : Writer) (e : EntryId) :
    (w.unlinkEntry e).bare = w.bare := by
  unfold unlinkEntry
  cases (w.ent e).linkTo with
  | some t => rfl
  | none =>
    simp only
    split_ifs
    · exact bare_promoteAlias _ _
    · rfl

theorem bare_removeEntry {sub : Writer → EntryId → Writer} (hs : ∀ w e, (sub w e).bare = w.bare)
    (w : Writer) (e : EntryId) : (removeEntry sub w e).bare = w.bare := by
  unfold removeEntry
  split_ifs
  · rw [hs, bare_unlinkEntry]
  · exact bare_unlinkEntry w e

theorem bare_removeSubtree (fuel : ℕ) (w : Writer) (e : EntryId) :
    (removeSubtree fuel w e).bare = w.bare := by
  induction fuel generalizing w e with
  | zero => rfl
  | succ fuel ih =>
    refine bare_foldl (fun v c => ?_) _ _
    split_ifs
    · rfl
    · exact bare_removeEntry ih v c

@[simp] theorem bare_removeTree (w : Writer) (p : Path) : (w.removeTree p).bare = w.bare := by
  unfold removeTree
  cases w.byPath p with
  | none => rfl
  | some e => exact bare_removeEntry (bare_removeSubtree w.next) w e

@[simp] theorem bare_removeChildren (w : Writer) (p : Path) :
    (w.removeChildren p).bare = w.bare := by
  unfold removeChildren
  cases w.byPath p with
  | none => rfl
  | some e => exact bare_removeSubtree w.next w e

@[simp] theorem bare_placeEntry (w : Writer) (fe : FsEntry) :
    (w.placeEntry fe).1.bare = w.bare := by
  unfold placeEntry
  cases w.byPath fe.path with
  | none => rfl
  | some e =>
    simp only
    split_ifs
    · exact (bare_addChild _ fe).trans (bare_unlinkEntry w e)
    · rfl

theorem bare_addAlias {w w' : Writer} {p : Path} {t : EntryId} (h : w.addAlias p t = .ok w') :
    w'.bare = w.bare := by
  unfold addAlias at h
  cases hb : w.byPath p with
  | none =>
    rw [hb] at h
    obtain rfl := Except.ok.inj h
    rfl
  | some e =>
    rw [hb] at h
    simp only at h
    split_ifs at h
    · obtain rfl := Except.ok.inj h
      rfl
    · obtain rfl := Except.ok.inj h
      exact bare_unlinkEntry w e

end Writer

end Erofs
