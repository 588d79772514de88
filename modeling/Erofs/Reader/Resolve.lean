import Erofs.Reader.Dir
import Erofs.Reader.Stat

/-!
# Paths and the file system's calls

`linkTarget`, `resolve` and the methods of the opened image: `Open`, `Stat`, `Lstat`, `ReadLink`,
`ReadFile` and `ReadDir` of `erofs.go`.  A path here is the string a caller writes, not the rooted
path of the Writer.

`resolve` counts the components it walks, so that the count left is its fuel.
-/

namespace Erofs

open GoPath LittleEndian Oracle

/-- `&fs.PathError{Op: op, Path: name, Err: err}`. -/
def GoError.onPath (err : GoError) (op : String) (name : Bytes) : GoError :=
  err.wrap op [.bytes name]

namespace Image

variable (img : Image)

/-! ## Whole files -/

/-- `io.ReadFull` of `n` more bytes, with the error `readAll` makes of a short file. -/
def readFull (size : ℕ) : ℕ → OpenFile → ℕ → Bytes → Fallible Bytes
  | 0, _, _, acc => .done (.ok acc)
  | fuel + 1, f, n, acc =>
    (f.read img n).bind fun r =>
      if n ≤ r.data.length then .done (.ok (acc ++ r.data))
      else match r.err with
        | none => readFull size fuel r.file (n - r.data.length) (acc ++ r.data)
        | some e =>
          .done <| .error <| if e.is .eof || e.is .unexpectedEOF then
            errorf "data ends before the declared size of %d bytes: %w" [.int size] .corrupt
          else e

/-- `readAll` into a buffer of `n` bytes. -/
def readAll (f : OpenFile) (n : ℕ) : Fallible Bytes :=
  if n = 0 then .done (.ok []) else img.readFull n n f n []

/-- `maxSymlinkSize`. -/
def maxSymlinkSize : ℕ := 4096

/-- `linkTarget`. -/
def linkTarget (nid : ℕ) (name : Bytes) : Fallible Bytes :=
  (OpenFile.readInfo img { name, nid, ftype := FileMode.symlink }).tryBind fun r =>
    if r.2.size = 0 then
      .done (.error (errorf "empty symlink target: %w" [] .corrupt))
    else if maxSymlinkSize < r.2.size then
      .done (.error (errorf "symlink target size %d out of range: %w" [.int r.2.size] .corrupt))
    else (img.readAll r.1 r.2.size).tryBind fun buf =>
      .done <| if nulByte ∈ buf then
        .error (errorf "symlink target holds a NUL byte: %w" [] .corrupt)
      else .ok buf

/-! ## `resolve` -/

/-- `validPath`. -/
def validPath (name : Bytes) : Bool :=
  name == dot || (split name).all fun e => e != [] && e != dot && e != dotdot

/-- `maxSymlinks`. -/
def maxSymlinks : ℕ := 255

/-- `maxResolveComponents`. -/
def maxResolveComponents : ℕ := maxSymlinks * (maxSymlinkSize / 2)

/-- `ErrLoop`. -/
def errLoop : GoError := ⟨"too many symlinks: %w", [], .loop⟩

/-- `ErrNotDirectory`. -/
def errNotDirectory : GoError := ⟨"not a directory", [], .notDirectory⟩

/-- `fs.ErrInvalid`. -/
def errInvalid : GoError := ⟨"invalid argument", [], .invalid⟩

/-- `ErrIsDirectory`. -/
def errIsDirectory : GoError := ⟨"is a directory", [], .isDirectory⟩

/-- The first component of a path and the rest. -/
def cutPath (name : Bytes) : Bytes × Bytes :=
  (name.takeWhile (· != slash), (name.dropWhile (· != slash)).drop 1)

/-- The path a symlink leads to, from the root: its target before the rest of the path, after the
directory's path when it is relative, and cleaned. -/
def spliceTarget (curPath target rest : Bytes) : Bytes :=
  let target := if rest ≠ [] then target ++ slash :: rest else target
  let target := if isAbs target then target else curPath ++ slash :: target
  clean target

/-- The path the walk restarts with after a symlink. -/
def restartPath (target : Bytes) : Except GoError Bytes :=
  let stripped := if isAbs target then target.drop 1 else target
  if maxPathLen < target.length then
    .error (errorf "resolved path is %d bytes, over the %d byte limit: %w"
      [.int target.length, .int maxPathLen] .invalid)
  else if stripped ≠ [] ∧ !validPath stripped then
    .error
      (errorf "symlink resolves to %q, which is not a valid path: %w" [.bytes stripped] .invalid)
  else .ok (if stripped = dot then [] else stripped)

/-- Where the walk stands: the inode reached, its type, its name, the path walked and the
symlinks followed. -/
structure Walk where
  nid : ℕ
  ftype : FileMode
  basename : Bytes
  curPath : Bytes := []
  links : ℕ := 0
  deriving DecidableEq

/-- The walk back at the root, about to follow `name`. -/
def rootWalk (name : Bytes) (links : ℕ) : Walk where
  nid := img.sb.rootNid
  ftype := FileMode.dir
  basename := name
  links := links

/-- The walk one component further. -/
def Walk.enter (w : Walk) (nid : ℕ) (ftype : FileMode) (name : Bytes) : Walk :=
  { w with
    nid, ftype
    basename := name
    curPath := if w.curPath = [] then name else w.curPath ++ slash :: name }

/-- One component of `resolve`: the walk after it and the path that is left. -/
def resolveStep (follow : Bool) (w : Walk) (name : Bytes) : Fallible (Walk × Bytes) :=
  let (comp, rest) := cutPath name
  if w.ftype ≠ FileMode.dir then .done (.error errNotDirectory)
  else (lookupIn img comp w.nid w.ftype comp).tryBind fun (nid, entType) =>
    let ftype := entType.typ
    if ftype.has FileMode.symlink && (follow || rest != []) then
      if maxSymlinks < w.links + 1 then .done (.error errLoop)
      else (img.linkTarget nid comp).tryBind fun target =>
        .done <| (restartPath (spliceTarget w.curPath target rest)).map fun name =>
          (img.rootWalk name (w.links + 1), name)
    else .done (.ok (w.enter nid ftype comp, rest))

/-- The loop of `resolve`, `k` components of its budget left. -/
def resolveLoop (follow : Bool) : ℕ → Walk → Bytes → Fallible Walk
  | k, w, name =>
    if name = [] then .done (.ok w)
    else match k with
      | 0 => .done (.error errLoop)
      | k + 1 => (img.resolveStep follow w name).tryBind fun r => resolveLoop follow k r.1 r.2

/-- `resolve`: the inode, its type and its name. -/
def resolve (op : String) (name : Bytes) (follow : Bool) : Fallible Walk :=
  if !validPath name then .done (.error (errInvalid.onPath op name))
  else if maxPathLen < name.length then
    .done (.error ((errorf "path is %d bytes, over the %d byte limit: %w"
      [.int name.length, .int maxPathLen] .invalid).onPath op name))
  else
    let start := if name = dot then [] else name
    (img.resolveLoop follow maxResolveComponents (img.rootWalk start 0) start).bind fun r =>
      .done <| match r with
        | .error e => .error (e.onPath op name)
        | .ok w => .ok (if w.basename = [] then { w with basename := name } else w)

/-! ## The methods of the file system -/

/-- What `Open` returns. -/
inductive Handle
  | file (f : OpenFile)
  | dir (d : OpenDir)
  deriving DecidableEq

/-- The file a walk ends at. -/
def Walk.file (w : Walk) : OpenFile := { name := w.basename, nid := w.nid, ftype := w.ftype }

/-- `Open`. -/
def open_ (name : Bytes) : Fallible Handle :=
  (img.resolve "open" name true).tryBind fun w =>
    .done (.ok (if w.ftype.isDir then .dir { file := w.file } else .file w.file))

/-- `Stat`. -/
def stat (name : Bytes) : Fallible (Inode × FileInfo) :=
  (img.resolve "stat" name true).tryBind fun w => img.statInfo w.basename w.nid w.ftype

/-- `Lstat`. -/
def lstat (name : Bytes) : Fallible (Inode × FileInfo) :=
  (img.resolve "lstat" name false).tryBind fun w => img.statInfo w.basename w.nid w.ftype

/-- `ReadLink`. -/
def readLink (name : Bytes) : Fallible Bytes :=
  (img.resolve "readlink" name false).tryBind fun w =>
    if w.ftype.has FileMode.symlink then img.linkTarget w.nid w.basename
    else .done (.error (errInvalid.onPath "readlink" name))

/-- `maxReadFileSize`. -/
def maxReadFileSize : ℕ := 128 * 2 ^ 20

/-- `ReadFile`. -/
def readFile (name : Bytes) : Fallible Bytes :=
  (img.resolve "readfile" name true).tryBind fun w =>
    if w.ftype.isDir then .done (.error (errIsDirectory.onPath "read" name))
    else (w.file.readInfo img).tryBind fun r =>
      if maxReadFileSize < r.2.size then
        .done (.error (errorf
          "file size %d exceeds ReadFile limit %d; use Open and io.Copy for large files: %w"
          [.int r.2.size, .int maxReadFileSize] .invalid))
      else (img.readAll r.1 r.2.size).bind fun r => .done (r.mapError fun e => e.onPath "read" name)

/-- `ReadDir`: the entries in the order of their names. -/
def readDirAt (name : Bytes) : Fallible (List DirEntry) :=
  (img.resolve "readdir" name true).tryBind fun w =>
    if !w.ftype.isDir then .done (.error (errNotDirectory.onPath "readdir" name))
    else (OpenDir.readDir img none { file := w.file }).bind fun r => .done <|
      match r.2.2 with
      | some e => .error e
      | none => .ok (r.2.1.mergeSort fun a b => a.name ≤ b.name)

end Image

end Erofs
