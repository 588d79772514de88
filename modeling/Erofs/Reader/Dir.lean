import Erofs.Reader.File

/-!
# Directories

`ReadDir` and `lookup` of `erofs.go`: a directory is a file whose blocks hold dirents and, after
them, their names.  `ReadDir` walks the blocks in order and stops inside one when it has as many
entries as were asked for; `lookup` is a binary search over the blocks, then over the dirents of
one.
-/

namespace Erofs

open GoPath LittleEndian Oracle

/-- `disk.Dirent`. -/
structure Dirent where
  nid : ℕ
  nameOff : ℕ
  fileType : ℕ
  deriving DecidableEq

/-- `Dirent.Unmarshal` of the dirent numbered `i`. -/
def direntAt (buf : Bytes) (i : ℕ) : Dirent :=
  ⟨field buf (12 * i) 8, field buf (12 * i + 8) 2, field buf (12 * i + 10) 1⟩

/-- `buf[lo:hi]`. -/
def slice (buf : Bytes) (lo hi : ℕ) : Bytes := (buf.drop lo).take (hi - lo)

/-- The bytes before the first NUL. -/
def untilNul (b : Bytes) : Bytes := b.takeWhile (· != nulByte)

/-- `checkDirentName`. -/
def checkDirentName (name : Bytes) : Except GoError Unit :=
  if name = [] then .error (errorf "empty dirent name: %w" [] .corrupt)
  else if slash ∈ name then
    .error (errorf "dirent name %q contains a path separator: %w" [.bytes name] .corrupt)
  else if nulByte ∈ name then
    .error (errorf "dirent name %q contains a NUL: %w" [.bytes name] .corrupt)
  else .ok ()

/-- `direntry`: what `ReadDir` returns of an entry. -/
structure DirEntry where
  name : Bytes
  nid : ℕ
  ftype : FileMode
  deriving DecidableEq

/-! ## `ReadDir` -/

/-- The bounds of the name of dirent `i` of `entryN`: to the next one's name, or for the last to
the first NUL or the end of the block. -/
def nameBounds (buf : Bytes) (entryN i : ℕ) : Except GoError (ℕ × ℕ) :=
  let lo := (direntAt buf i).nameOff
  if i + 1 < entryN then
    let hi := (direntAt buf (i + 1)).nameOff
    if buf.length < 12 * (i + 1) + 12 then
      .error (errorf "dirent entry %d exceeds block: %w" [.int (i + 1 : ℕ)] .corrupt)
    else if buf.length < lo ∨ buf.length < hi ∨ hi < lo then
      .error (errorf "invalid dirent name offset range [%d:%d] (buf size %d): %w"
        [.int lo, .int hi, .int buf.length] .corrupt)
    else .ok (lo, hi)
  else if buf.length < lo then
    .error (errorf "invalid dirent name offset %d (buf size %d): %w"
      [.int lo, .int buf.length] .corrupt)
  else .ok (lo, lo + (untilNul (buf.drop lo)).length)

/-- The name of dirent `i` as `ReadDir` takes it from the block. -/
def listedName (buf : Bytes) (entryN i : ℕ) : Except GoError Bytes := do
  let (lo, hi) ← nameBounds buf entryN i
  if lo < (direntAt buf 0).nameOff then
    throw (errorf "dirent %d name offset %d precedes the name region at %d: %w"
      [.int i, .int lo, .int (direntAt buf 0).nameOff] .corrupt)
  checkDirentName (slice buf lo hi)
  return slice buf lo hi

/-- The checks of a block before its entries are listed; the result is the number of entries. -/
def checkDirBlock (nid : ℕ) (buf : Bytes) : Except GoError ℕ :=
  let nameOff := (direntAt buf 0).nameOff
  if buf.length < Disk.sizeDirent then
    .error (errorf "directory block of %d bytes for nid %d: %w"
      [.int buf.length, .int nid] .corrupt)
  else if buf.length ≤ nameOff ∨ nameOff / 12 = 0 ∨ nameOff % 12 ≠ 0 then
    .error (errorf "invalid de[0].nameoff %d (buf size %d): %w"
      [.int nameOff, .int buf.length] .corrupt)
  else .ok (nameOff / 12)

/-- `dir`: an open directory, with the block it is at and how many dirents of it have been
handed out. -/
structure OpenDir where
  file : OpenFile
  bn : ℕ := 0
  consumed : ℕ := 0
  deriving DecidableEq

/-- How the walk over a block ended: at its end, with as many entries as were asked for, or with
an error. -/
inductive BlockEnd
  | whole
  | full
  | failed (e : GoError)
  deriving DecidableEq

/-- What `ReadDir` has after some dirents: the directory, the entries and how it ended. -/
structure Listing where
  dir : OpenDir
  ents : List DirEntry
  ended : BlockEnd
  deriving DecidableEq

namespace OpenDir

/-- The dirents from `i` on, `k` of them left; `n` is the number asked for, none for all. -/
def listEntries (n : Option ℕ) (buf : Bytes) (entryN : ℕ) :
    ℕ → ℕ → OpenDir → List DirEntry → Listing
  | 0, _, d, ents => ⟨d, ents, .whole⟩
  | k + 1, i, d, ents =>
    match listedName buf entryN i with
    | .error e => ⟨d, ents, .failed e⟩
    | .ok name =>
      if i < d.consumed ∨ name = dot ∨ name = dotdot then
        listEntries n buf entryN k (i + 1) d ents
      else
        let de := direntAt buf i
        let ents := ents ++ [⟨name, de.nid, eroFSFtypeToFileMode de.fileType⟩]
        let d := { d with consumed := i + 1 }
        if n = some ents.length then
          ⟨if i = entryN - 1 then { d with consumed := 0, bn := d.bn + 1 } else d, ents, .full⟩
        else listEntries n buf entryN k (i + 1) d ents

/-- One block of `ReadDir`. -/
def listBlock (n : Option ℕ) (nid : ℕ) (buf : Bytes) (d : OpenDir) (ents : List DirEntry) :
    Listing :=
  match checkDirBlock nid buf with
  | .error e => ⟨d, ents, .failed e⟩
  | .ok entryN => listEntries n buf entryN entryN 0 d ents

/-- The error `ReadDir` ends with at the end of the directory. -/
def endError (n : Option ℕ) : Option GoError := if n.isSome then some eofError else none

/-- `pos`: the position of the block the directory is at.  It is an `int64` and wraps. -/
def pos (img : Image) (d : OpenDir) : Int := int64 (d.bn * img.blockSize : ℕ)

/-- A turn of `ReadDir`'s loop once the block is loaded; `next` is the rest of the loop. -/
def listLoaded (n : Option ℕ) (nid : ℕ)
    (next : OpenDir → List DirEntry → ReadProg (OpenDir × List DirEntry × Option GoError))
    (d : OpenDir) (ents : List DirEntry) :
    Except GoError Bytes → ReadProg (OpenDir × List DirEntry × Option GoError)
  | .error e =>
    -- an end of file is taken for the end of the directory
    if e.is .eof then .done (d, ents, endError n) else .done (d, [], some e)
  | .ok buf =>
    let l := listBlock n nid buf d ents
    match l.ended with
    | .failed e => .done (l.dir, l.ents, some e)
    | .full => .done (l.dir, l.ents, none)
    | .whole => next { l.dir with consumed := 0, bn := l.dir.bn + 1 } l.ents

/-- The block loop of `ReadDir`. -/
def listBlocks (img : Image) (n : Option ℕ) (fi : Inode) :
    ℕ → OpenDir → List DirEntry → ReadProg (OpenDir × List DirEntry × Option GoError)
  | 0, d, ents => .done (d, ents, endError n)
  | fuel + 1, d, ents =>
    if fi.size ≤ d.pos img then .done (d, ents, endError n)
    else (img.loadBlockAt fi (d.pos img)).bind
      (listLoaded n fi.nid (listBlocks img n fi fuel) d ents)

/-- The turns the loop is given: one for each block, and where the position wraps as many more as
there are positions, after which it has come back to one and would not end. -/
def turns (img : Image) (fi : Inode) : ℕ :=
  calculateBlocks img.sb.blkSizeBits fi.size +
    if fi.size + img.blockSize ≤ 2 ^ 63 then 0 else 2 ^ 64

/-- `ReadDir`. -/
def readDir (img : Image) (n : Option ℕ) (d : OpenDir) :
    ReadProg (OpenDir × List DirEntry × Option GoError) :=
  (d.file.readInfo img).bind fun r => match r with
    | .error e => .done (d, [], some (e.wrap "readInfo failed: %w" []))
    | .ok (f, fi) => listBlocks img n fi (turns img fi) { d with file := f } []

/-- `ReadDir` once the inode is known. -/
theorem readDir_run {img : Image} {o : Req → Answer} {n : Option ℕ} {d : OpenDir} {f : OpenFile}
    {fi : Inode} (h : (d.file.readInfo img).run o = .ok (f, fi)) :
    (d.readDir img n).run o =
      (listBlocks img n fi (turns img fi) { d with file := f } []).run o := by
  rw [readDir, Prog.run_bind, h]

/-- `ReadDir` of a directory that was just opened. -/
theorem readDir_opened {img : Image} {o : Req → Answer} {n : Option ℕ} {name : Bytes} {nid : ℕ}
    {ftype : FileMode} {fi : Inode} (h : (img.readInfo name nid ftype).run o = .ok fi) :
    (readDir img n ⟨⟨name, nid, ftype, 0, none, none⟩, 0, 0⟩).run o =
      (listBlocks img n fi (turns img fi)
        ⟨⟨name, nid, ftype, 0, some fi, none⟩, 0, 0⟩ []).run o := by
  refine readDir_run ?_
  simp only [OpenFile.readInfo, Prog.exec_bind, h, Prog.run_done]

section Position

variable {img : Image} {n : Option ℕ} {fi : Inode} {d : OpenDir} {ents : List DirEntry} {fuel : ℕ}

theorem pos_eq (h : d.bn * img.blockSize < 2 ^ 63) : d.pos img = (d.bn * img.blockSize : ℕ) :=
  int64_of (Int.natCast_nonneg _) (by rw [maxInt64]; omega)

/-- A turn at a block of the directory. -/
theorem listBlocks_inside (hsize : fi.size < 2 ^ 63) (hlt : d.bn * img.blockSize < fi.size) :
    listBlocks img n fi (fuel + 1) d ents = (img.loadBlock fi (d.bn * img.blockSize)).bind
      (listLoaded n fi.nid (listBlocks img n fi fuel) d ents) := by
  rw [listBlocks, pos_eq (by omega), if_neg (by omega), Image.loadBlockAt_natCast]

/-- The loop ends after the last block, unless the position there wraps. -/
theorem listBlocks_past (hsize : fi.size + img.blockSize ≤ 2 ^ 63)
    (hbn : d.bn ≤ calculateBlocks img.sb.blkSizeBits fi.size)
    (hend : fi.size ≤ d.bn * img.blockSize) :
    listBlocks img n fi fuel d ents = .done (d, ents, endError n) := by
  cases fuel with
  | zero => rfl
  | succ fuel =>
    have hle : d.bn * img.blockSize < fi.size + img.blockSize :=
      Image.mul_lt_of_le_calculateBlocks hbn
    rw [listBlocks, pos_eq (by omega), if_pos (by omega)]

/-- There is a turn for each block. -/
theorem calculateBlocks_le_turns : calculateBlocks img.sb.blkSizeBits fi.size ≤ turns img fi :=
  Nat.le_add_right _ _

end Position

end OpenDir

/-! ## `lookup` -/

/-- The end of the name of dirent `i` of `entryN`, from the next dirent's offset. -/
def nextNameOff (buf : Bytes) (entryN i : ℕ) (err : GoError) : Except GoError ℕ :=
  if i + 1 < entryN then
    if buf.length < 12 * (i + 1) + 8 + 2 then .error err
    else .ok (direntAt buf (i + 1)).nameOff
  else .ok buf.length

/-- `blockFirstName`. -/
def blockFirstName (buf : Bytes) : Except GoError Bytes := do
  if buf.length < Disk.sizeDirent then
    throw (errorf "directory block too small: %w" [] .corrupt)
  let nameOff := (direntAt buf 0).nameOff
  if nameOff / 12 = 0 ∨ buf.length < nameOff then
    throw (errorf "invalid name offset %d: %w" [.int nameOff] .corrupt)
  let nameEnd ← nextNameOff buf (nameOff / 12) 0
    (errorf "next dirent name offset out of range: %w" [] .corrupt)
  if nameEnd < nameOff ∨ buf.length < nameEnd then
    throw (errorf "name range [%d:%d] out of bounds: %w" [.int nameOff, .int nameEnd] .corrupt)
  let name := untilNul (slice buf nameOff nameEnd)
  checkDirentName name
  return name

/-- `blockDirent`. -/
def blockDirent (buf : Bytes) (i entryN : ℕ) : Except GoError (Dirent × Bytes) := do
  if buf.length < 12 * i + 12 then
    throw (errorf "dirent %d offset %d out of range: %w" [.int i, .int (12 * i : ℕ)] .corrupt)
  let de := direntAt buf i
  let nameEnd ← nextNameOff buf entryN i
    (errorf "dirent %d next name offset out of range: %w" [.int i] .corrupt)
  if nameEnd < de.nameOff ∨ buf.length < nameEnd then
    throw (errorf "dirent %d name range [%d:%d] out of bounds: %w"
      [.int i, .int de.nameOff, .int nameEnd] .corrupt)
  let name := slice buf de.nameOff nameEnd
  let name := if i + 1 = entryN then untilNul name else name
  checkDirentName name
  return (de, name)

/-- `fs.ErrNotExist`. -/
def errNotExist : GoError := ⟨"file does not exist", [], .notExist⟩

/-- The binary search of `lookupBlock` over the dirents in `[lo, hi)`. -/
def searchBlock (buf target : Bytes) (entryN : ℕ) :
    ℕ → ℕ → ℕ → Except GoError (ℕ × FileMode)
  | 0, _, _ => .error errNotExist
  | fuel + 1, lo, hi =>
    if hi ≤ lo then .error errNotExist
    else
      let mid := lo + (hi - lo) / 2
      match blockDirent buf mid entryN with
      | .error e => .error e
      | .ok (de, name) =>
        if name = target then .ok (de.nid, eroFSFtypeToFileMode de.fileType)
        else if name < target then searchBlock buf target entryN fuel (mid + 1) hi
        else searchBlock buf target entryN fuel lo mid

/-- `lookupBlock`. -/
def lookupBlock (buf target : Bytes) : Except GoError (ℕ × FileMode) :=
  let nameOff := (direntAt buf 0).nameOff
  if buf.length < Disk.sizeDirent then
    .error (errorf "directory block too small: %w" [] .corrupt)
  else if nameOff % 12 ≠ 0 then
    .error (errorf "invalid name offset %d not aligned to dirent size: %w" [.int nameOff] .corrupt)
  else if buf.length < nameOff then
    .error (errorf "name offset %d exceeds block size %d: %w"
      [.int nameOff, .int buf.length] .corrupt)
  else searchBlock buf target (nameOff / 12) (nameOff / 12 + 1) 0 (nameOff / 12)

/-- The binary search of `lookup` over the blocks in `[lo, hi)`: the last block whose first name
is no later than the target. -/
def searchBlocks (img : Image) (fi : Inode) (target : Bytes) :
    ℕ → ℕ → ℕ → Option Bytes → Fallible (Option Bytes)
  | 0, _, _, last => .done (.ok last)
  | fuel + 1, lo, hi, last =>
    if hi ≤ lo then .done (.ok last)
    else
      let mid := lo + (hi - lo) / 2
      (img.loadBlock fi (mid * img.blockSize)).bind fun r => match r with
        | .error e =>
          if e.is .eof then searchBlocks img fi target fuel lo mid last else .done (.error e)
        | .ok buf => match blockFirstName buf with
          | .error e => .done (.error e)
          | .ok first =>
            if first ≤ target then searchBlocks img fi target fuel (mid + 1) hi (some buf)
            else searchBlocks img fi target fuel lo mid last

/-- `nblocks` of `lookup`: the sum is an `int64` and wraps, and a negative number of blocks is a
search over none. -/
def lookupBlocks (size blockSize : ℕ) : ℕ :=
  ((int64 ((size + blockSize : ℕ) - 1)).tdiv blockSize).toNat

/-- `lookup` in the directory of inode `nid`. -/
def lookupIn (img : Image) (name : Bytes) (nid : ℕ) (ftype : FileMode) (target : Bytes) :
    Fallible (ℕ × FileMode) :=
  (img.readInfo name nid ftype).bind fun r => match r with
    | .error e => .done (.error (e.wrap "readInfo failed: %w" []))
    | .ok fi =>
      let nblocks := lookupBlocks fi.size img.blockSize
      (searchBlocks img fi target (nblocks + 1) 0 nblocks none).tryBind fun last =>
        .done <| match last with
          | none => .error errNotExist
          | some buf => lookupBlock buf target

end Erofs
