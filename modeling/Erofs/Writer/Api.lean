import Erofs.Writer.Copy

/-!
# The calls of a Writer

The entry, metadata and file methods of `Writer` and `File` (`mkfs.go`).  A path argument is the
string the caller gave; `cleanPath` is the first thing that happens to it.  What the data file or
the spool answers to a write is an argument of the call.
-/

namespace Erofs

open GoPath

/-- A `time.Time` as seconds since 1970 and nanoseconds. -/
structure Time where
  sec : Int
  nsec : ℕ
  deriving DecidableEq

/-- `uint64(t.Unix())`. -/
def Time.unix (t : Time) : ℕ := (t.sec % 2 ^ 64).toNat

namespace Writer

/-- Every method first returns the error the Writer was created with, if any. -/
def unlessFailed (w : Writer) (r : Result) : Result :=
  match w.wErr with
  | some e => (w, some e)
  | none => r

/-! ## Entries -/

/-- `checkPath`, `ensureParent` and `addChild` of a new entry. -/
def addNew (w : Writer) (e : FsEntry) : Result :=
  w.check (w.checkPath e.path) fun _ =>
  w.check (w.ensureParent e.path) fun w => (w.addChild e, none)

/-- `ensureSpool`; `temp` is the error of `os.CreateTemp`, if it fails. -/
def ensureSpool (w : Writer) (temp : Option GoError) : Result :=
  if w.spool.isSome then (w, none)
  else match temp with
    | some e => (w, some (e.wrap "mkfs: create spool: %w" []))
    | none => ({ w with spool := some [] }, none)

/-- The entry is open for writing, its data to start at `start`. -/
def openEntry (w : Writer) (e : EntryId) (start : ℕ) : Writer :=
  { w with
    files := Function.update w.files w.nextFile { entry := e, dataStartOff := start }
    nextFile := w.nextFile + 1
    openFile := some w.nextFile }

/-- The end of `Create`: where the data of the entry `e` is to start. -/
def openStore (w : Writer) (e : EntryId) (pad : WriteAnswer) (temp : Option GoError) : Result :=
  if w.dataFile.isSome then
    (w.alignDataOff pad).andThen fun w =>
      ((w.modify e fun x => { x with dataStartOff := w.dataOff }).openEntry e w.dataOff, none)
  else
    (w.ensureSpool temp).andThen fun w =>
      ((w.modify e fun x => { x with spoolOff := w.spoolOff, dataStartOff := w.spoolOff }).openEntry
        e w.spoolOff, none)

/-- `Create`.  The entry is registered before the store is known to be ready. -/
def createFile (w : Writer) (name : Bytes) (pad : WriteAnswer) (temp : Option GoError) : Result :=
  w.unlessFailed <|
  w.check (w.checkNoOpenFile "create another file") fun _ =>
  let name := cleanPath name
  if name = [] then (w, some (errorf "mkfs: cannot create file at root: %w" [] .exist))
  else
    w.check (w.checkPath name) fun _ =>
    w.check (w.ensureParent name) fun w =>
    (w.addChild { path := name, mode := Mode.reg ||| 0o644#16 }).openStore w.next pad temp

/-- `Mkdir`. -/
def mkdir (w : Writer) (name : Bytes) (perm : FileMode) : Result :=
  w.unlessFailed <|
  let mode := Mode.dir ||| (goModeToUnixMode perm &&& ~~~ Mode.typeMask)
  let name := cleanPath name
  if name = [] then (w.modify w.root fun r => { r with mode }, none)
  else w.addNew { path := name, mode }

/-- `Symlink`. -/
def symlink (w : Writer) (oldname newname : Bytes) : Result :=
  w.unlessFailed <|
  let newname := cleanPath newname
  if newname = [] then (w, some (errorf "mkfs: cannot create symlink at root: %w" [] .exist))
  else
    w.check (checkSymlinkTarget newname oldname) fun _ =>
    w.addNew { path := newname, mode := Mode.symlink ||| 0o777#16, linkTarget := oldname }

/-- `Link`. -/
def link (w : Writer) (oldname newname : Bytes) : Result :=
  w.unlessFailed <|
  let oldname := cleanPath oldname
  let newname := cleanPath newname
  if newname = [] then (w, some (errorf "mkfs: cannot link at root: %w" [] .exist))
  else match w.byPath oldname with
    | none => (w, some (pathError "link" oldname .notExist))
    | some e =>
      let target := w.resolve e
      if (w.ent target).isDir then
        (w, some (errorf "mkfs: cannot hardlink directory %q: %w" [.path oldname] .isDirectory))
      else
        w.check (w.checkPath newname) fun _ =>
        w.check (w.ensureParent newname) fun w =>
        ((w.addChild { path := newname, mode := (w.ent target).mode, linkTo := some target }).modify
          target fun x => { x with extraLinks := x.extraLinks + 1 }, none)

/-- The `switch` of `Mknod`: the device number of a node of that type, if there is such a node. -/
def nodeRdev (typ : Mode) (rdev : ℕ) : Option ℕ :=
  if typ = Mode.chrdev ∨ typ = Mode.blkdev then some rdev
  else if typ = Mode.fifo ∨ typ = Mode.sock then some 0
  else none

/-- `Mknod`. -/
def mknod (w : Writer) (name : Bytes) (mode : FileMode) (rdev : ℕ) : Result :=
  w.unlessFailed <|
  let name := cleanPath name
  if name = [] then (w, some (errorf "mkfs: cannot mknod at root: %w" [] .exist))
  else
    w.check (w.checkPath name) fun _ =>
    let unixMode := goModeToUnixMode mode
    match nodeRdev unixMode.typ rdev with
    | none =>
      (w, some (errorf "mkfs: %s: mknod of a %v: %w" [.path name, .int mode.typ.toNat] .invalid))
    | some rdev =>
      w.check (w.ensureParent name) fun w =>
      (w.addChild { path := name, mode := unixMode, rdev }, none)

/-! ## Metadata -/

/-- A metadata method: the inode the name stands for is changed. -/
def setMeta (w : Writer) (name : Bytes) (f : FsEntry → FsEntry) : Result :=
  w.unlessFailed <| w.check (w.lookup name) fun e => (w.modify e f, none)

/-- `Chmod`. -/
def chmod (w : Writer) (name : Bytes) (mode : FileMode) : Result :=
  w.setMeta name fun e => { e with mode := e.mode.withPerm (goModeToUnixMode mode) }

/-- `checkOwner`. -/
def checkOwner (uid gid : Int) : Except GoError (ℕ × ℕ) :=
  if uid < 0 ∨ 2 ^ 32 - 1 < uid then
    .error (errorf "uid %d out of range: %w" [.int uid] .invalid)
  else if gid < 0 ∨ 2 ^ 32 - 1 < gid then
    .error (errorf "gid %d out of range: %w" [.int gid] .invalid)
  else .ok (uid.toNat, gid.toNat)

/-- `Chown`. -/
def chown (w : Writer) (name : Bytes) (uid gid : Int) : Result :=
  w.unlessFailed <|
  w.check (w.lookup name) fun e =>
  match checkOwner uid gid with
  | .error err => (w, some (err.wrap "mkfs: %s: %w" [.path (cleanPath name)]))
  | .ok (u, g) => (w.modify e fun x => { x with uid := u, gid := g }, none)

/-- `Chtimes`. -/
def chtimes (w : Writer) (name : Bytes) (atime mtime : Time) : Result :=
  w.setMeta name fun e => { e with
    atime := atime.unix, atimeNs := atime.nsec, mtime := mtime.unix, mtimeNs := mtime.nsec }

/-- `xattrs[attr] = value`. -/
def setXattr (xs : List (Bytes × Bytes)) (attr value : Bytes) : List (Bytes × Bytes) :=
  xs.filter (·.1 ≠ attr) ++ [(attr, value)]

/-- `Setxattr`. -/
def setxattr (w : Writer) (name attr value : Bytes) : Result :=
  w.unlessFailed <|
  w.check (validateXattr attr value) fun _ =>
  w.check (w.lookup name) fun e =>
  (w.modify e fun x => { x with xattrs := setXattr x.xattrs attr value }, none)

/-- `SetNlink`. -/
def setNlink (w : Writer) (name : Bytes) (nlink : ℕ) : Result :=
  w.setMeta name fun e => { e with nlink, nlinkSet := true }

/-! ## Removing -/

/-- `Remove`. -/
def remove (w : Writer) (name : Bytes) : Result :=
  w.unlessFailed <|
  let name := cleanPath name
  if name = [] then (w, some (pathError "remove" name .invalid))
  else match w.byPath name with
    | none => (w, some (pathError "remove" name .notExist))
    | some e =>
      w.check (w.checkNotOpen e "remove") fun _ =>
      if (w.ent e).isDir ∧ ∃ c ∈ (w.ent e).children, (w.ent c).removed = false then
        (w, some (pathError "remove" name .dirNotEmpty))
      else (w.unlinkEntry e, none)

/-- `inSubtreeOf`: from `e` upwards, at most `fuel` steps. -/
def inSubtreeOf (w : Writer) (d : EntryId) : ℕ → EntryId → Bool
  | 0, _ => false
  | fuel + 1, e => e == d || ((w.ent e).parent).elim false (inSubtreeOf w d fuel)

/-- The nearest registered ancestor is no directory. -/
def throughFile (w : Writer) : ℕ → Path → Bool
  | 0, _ => false
  | fuel + 1, d =>
    if d = [] then false
    else match w.byPath d with
      | some anc => !(w.ent anc).isDir
      | none => throughFile w fuel (dir d)

/-- `RemoveAll`. -/
def removeAll (w : Writer) (name : Bytes) : Result :=
  w.unlessFailed <|
  let name := cleanPath name
  if name = [] then (w, some (pathError "removeall" name .invalid))
  else match w.byPath name with
    | none =>
      if w.throughFile name.length (dir name) then
        (w, some (pathError "removeall" name .notDirectory))
      else (w, none)
    | some e =>
      match w.openFile.filter fun f => w.inSubtreeOf e w.next (w.files f).entry with
      | some f =>
        w.check (w.checkNotOpen (w.files f).entry "remove") fun _ => (w, none)
      | none => (w.removeTree name, none)

/-! ## Files -/

/-- Count what was written to a file. -/
def addWritten (w : Writer) (f : FileId) (n : ℕ) : Writer :=
  let file := w.files f
  { w with files := Function.update w.files f { file with written := file.written + n } }

/-- `spool.Write(data)` and `spoolOff += n`. -/
def writeSpool (w : Writer) (data : Bytes) (a : WriteAnswer) : Writer :=
  { w with
    spool := w.spool.map (· ++ data.take a.n)
    spoolOff := w.spoolOff + (data.take a.n).length }

/-- `File.Write`. -/
def fileWrite (w : Writer) (f : FileId) (data : Bytes) (a : WriteAnswer) : Result :=
  if (w.files f).closed then (w, some (errorf "mkfs: write to closed file: %w" [] .closed))
  else
    ((if w.dataFile.isSome then w.writeData data a else w.writeSpool data a).addWritten f
      (data.take a.n).length, a.err)

/-- `File.ReadFrom`: what the reader delivers is written piece by piece, and `a` is what the store
answered to all of it. -/
def fileReadFrom (w : Writer) (f : FileId) (r : Reader) (a : WriteAnswer) : Result :=
  if r.bytes = [] then (w, r.err)
  else (w.fileWrite f r.bytes a).andThen fun w => (w, r.err)

/-- `File.Close`. -/
def fileClose (w : Writer) (f : FileId) (a : WriteAnswer) : Result :=
  let file := w.files f
  if file.closed then (w, some (errorf "mkfs: %w" [] .closed))
  else
    let w := { w with
      files := Function.update w.files f { file with closed := true }
      openFile := if w.openFile = some f then none else w.openFile }
    let w := w.modify file.entry fun e => { e with fileClosed := true, size := file.written }
    if w.dataFile.isSome then w.closeDataFile file.entry file.dataStartOff file.written a
    else (w, none)

/-- `File.Chmod`. -/
def fileChmod (w : Writer) (f : FileId) (mode : FileMode) : Result :=
  (w.modify (w.files f).entry fun e =>
    { e with mode := e.mode.withPerm (goModeToUnixMode mode) }, none)

/-- `File.Chown`. -/
def fileChown (w : Writer) (f : FileId) (uid gid : Int) : Result :=
  match checkOwner uid gid with
  | .error err => (w, some (err.wrap "mkfs: %s: %w" [.path (w.ent (w.files f).entry).path]))
  | .ok (u, g) => (w.modify (w.files f).entry fun x => { x with uid := u, gid := g }, none)

end Writer

end Erofs
