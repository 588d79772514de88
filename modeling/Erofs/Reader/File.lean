import Erofs.Reader.Block

/-!
# Reading files

The open file of `erofs.go`: `openDirect`, which offers a file whose data is one run as a section
of its device, and `Read` and `WriteTo`, which take that section where there is one and go block
by block otherwise.  A file remembers its inode and the answer of `openDirect`.

A loop takes a number of bytes as its fuel: every block delivers at least one (`loadBlock_length`,
`blockLen_pos`), so that the fuel never runs out.
-/

namespace Erofs

open GoPath LittleEndian Oracle

/-- `io.NewSectionReader(deviceReader(dev), base, len)`. -/
structure Section where
  dev : ℕ
  base : Int
  len : ℕ
  deriving DecidableEq

namespace Image

variable (img : Image)

/-- `ReadAt` of a section. -/
def readSection (s : Section) (off : Int) (n : ℕ) : ReadProg Answer :=
  sectionReadAt (img.deviceReader s.dev) s.base s.len off n

/-! ## `openDirect` -/

/-- `locateStart`. -/
def locateStart (ino : Inode) (n : Int) : Except GoError (ℕ × Int) :=
  match img.blockAddr ino.nid ino.startBlock with
  | .error e => .error e
  | .ok pa => img.locateRange pa n

/-- A buffer of `n` bytes after a `ReadAt` into it. -/
def buffer (n : ℕ) (data : Bytes) : Bytes := data ++ List.replicate (n - data.length) nulByte

/-- The entries of a chunk map of `n` chunks. -/
def chunkEntries (fi : Inode) (n : ℕ) (map : Bytes) : List (Option ChunkEntry) :=
  (List.range n).map fun i => img.decodeEntry fi ((map.drop (i * chunkUnit fi)).take (chunkUnit fi))

/-- The chunks follow each other on one device from block `c.block`, the next one being number
`i`; `per` is the number of blocks of a chunk. -/
def followOn (c : ChunkEntry) (per : ℕ) : ℕ → List (Option ChunkEntry) → Bool
  | _, [] => true
  | i, e :: es => e == some ⟨c.device, c.block + i * per⟩ && followOn c per (i + 1) es

/-- The first chunk of a map whose chunks are one run. -/
def oneRun (per : ℕ) : List (Option ChunkEntry) → Option ChunkEntry
  | some c :: es => if followOn c per 1 es then some c else none
  | _ => none

/-- The section of a chunk-based file whose map is one run from `c`. -/
def runSection (ino : Inode) (c : ChunkEntry) : Option Section :=
  match img.chunkAddr c.block with
  | .error _ => none
  | .ok addr =>
    match img.locate c.device addr with
    | .error _ => none
    | .ok (dev, mapped) =>
      match img.boundOnDevice dev mapped ino.size with
      | .error _ => none
      | .ok _ => some ⟨dev, mapped, ino.size⟩

/-- The chunk-based case of `openDirect`. -/
def openChunks (ino : Inode) : ReadProg (Option Section) :=
  let needed := img.chunkCount ino * Disk.sizeChunkIndex
  if !ino.chunkIndexed || ino.chunkUnsupported || !img.chunkIndexFits (img.chunkMapStart ino) needed
  then .done none
  else (readerAt 0 (img.chunkMapStart ino) needed).bind fun a => .done <|
    match a.err with
    | some _ => none
    | none =>
      (oneRun (2 ^ (ino.chunkFormat &&& 0x1f))
        (img.chunkEntries ino (img.chunkCount ino) (buffer needed a.data))).bind
        (img.runSection ino)

/-- The flat-inline case of `openDirect`. -/
def openInline (ino : Inode) : Option Section :=
  let addr := img.trailingAddr ino
  if img.blockSize < ino.size ∨ (img.blockSize : Int) < addr % img.blockSize + ino.size then none
  else match img.checkImageRange addr ino.size with
    | .error _ => none
    | .ok _ => some ⟨0, addr, ino.size⟩

/-- The flat-plain case of `openDirect`. -/
def openPlain (ino : Inode) : Option Section :=
  if ino.nullAddress then none
  else match img.locateStart ino ino.size with
    | .error _ => none
    | .ok (dev, off) => some ⟨dev, off, ino.size⟩

/-- `openDirect`. -/
def openDirect (ino : Inode) : ReadProg (Option Section) :=
  if ino.size = 0 then .done none
  else match ino.inodeLayout with
    | .flatPlain => .done (img.openPlain ino)
    | .flatInline => .done (img.openInline ino)
    | .chunkBased => img.openChunks ino
    | _ => .done none

end Image

/-! ## The open file -/

/-- `file`. -/
structure OpenFile where
  name : Bytes := []
  nid : ℕ
  ftype : FileMode := 0
  offset : ℕ := 0
  info : Option Inode := none
  /-- The answer of `openDirect` once it has been asked. -/
  direct : Option (Option Section) := none
  deriving DecidableEq

/-- What `Read` returns: the file after it, the bytes and the error. -/
structure ReadResult where
  file : OpenFile
  data : Bytes
  err : Option GoError
  deriving DecidableEq

namespace OpenFile

variable (img : Image)

/-- `readInfo`.  A refusal leaves the file as it was; the one exception, a panic, is modelled where
handles of symlinks are (`readInfoCall`). -/
def readInfo (f : OpenFile) : Fallible (OpenFile × Inode) :=
  match f.info with
  | some ino => .done (.ok (f, ino))
  | none => (img.readInfo f.name f.nid f.ftype).tryBind fun ino =>
      .done (.ok ({ f with info := some ino }, ino))

/-- `directReader`. -/
def directReader (f : OpenFile) (ino : Inode) : ReadProg (OpenFile × Option Section) :=
  match f.direct with
  | some s => .done (f, s)
  | none => (img.openDirect ino).bind fun s => .done ({ f with direct := some s }, s)

/-- The file after `n` more bytes. -/
def advance (f : OpenFile) (n : ℕ) : OpenFile := { f with offset := f.offset + n }

/-- `Read` through a section. -/
def readDirect (f : OpenFile) (ino : Inode) (s : Section) (n : ℕ) : ReadProg ReadResult :=
  if ino.size ≤ f.offset then .done ⟨f, [], some eofError⟩
  else
    let n := min n (ino.size - f.offset)
    (img.readSection s f.offset n).bind fun a =>
      .done ⟨f.advance a.data.length, a.data,
        if a.data.length = n then a.err.filter fun e => !e.is .eof else a.err⟩

/-- The block loop of `Read`: `n` bytes are wanted and `acc` has been delivered. -/
def readBlocks (ino : Inode) : ℕ → OpenFile → ℕ → Bytes → ReadProg ReadResult
  | 0, f, _, acc => .done ⟨f, acc, none⟩
  | fuel + 1, f, n, acc =>
    if n = 0 then .done ⟨f, acc, none⟩
    else if ino.size ≤ f.offset then .done ⟨f, acc, some eofError⟩
    else (img.loadBlock ino f.offset).bind fun r => match r with
      | .error e => .done ⟨f, acc, some (if e.is .eof then eofError else e)⟩
      | .ok buf =>
        let copied := buf.take n
        readBlocks ino fuel (f.advance copied.length) (n - copied.length) (acc ++ copied)

/-- `Read` once the inode is known. -/
def readWith (f : OpenFile) (ino : Inode) (n : ℕ) : ReadProg ReadResult :=
  (f.directReader img ino).bind fun r => match r with
    | (f, some s) => f.readDirect img ino s n
    | (f, none) => readBlocks img ino n f n []

/-- `Read` into a buffer of `n` bytes. -/
def read (f : OpenFile) (n : ℕ) : ReadProg ReadResult :=
  (f.readInfo img).bind fun r => match r with
    | .error e => .done ⟨f, [], some e⟩
    | .ok (f, ino) => f.readWith img ino n

/-! ## `WriteTo` -/

/-- An `io.Writer`: for the bytes already written and the next ones, how many it takes and the
error.  It takes no more than it is given, and all of it unless it says why not. -/
structure Sink where
  write : ℕ → Bytes → ℕ × Option GoError
  le : ∀ m b, (write m b).1 ≤ b.length
  short : ∀ m b, (write m b).1 < b.length → (write m b).2 ≠ none

/-- What `WriteTo` returns: the file after it, the bytes that reached the writer, the error. -/
abbrev WriteResult := ReadResult

/-- The buffer of `io.Copy`. -/
def copyBuffer : ℕ := 32 * 1024

/-- `io.Copy(w, io.NewSectionReader(sr, offset, size-offset))`: `acc` has been written. -/
def copySection (w : Sink) (s : Section) (size : ℕ) :
    ℕ → OpenFile → Bytes → ReadProg WriteResult
  | 0, f, acc => .done ⟨f, acc, none⟩
  | fuel + 1, f, acc =>
    if size ≤ f.offset then .done ⟨f, acc, none⟩
    else (img.readSection s f.offset (min copyBuffer (size - f.offset))).bind fun a =>
      let (nw, ew) := if a.data = [] then (0, none) else w.write acc.length a.data
      let f' := f.advance nw
      let acc' := acc ++ a.data.take nw
      match ew with
      | some e => .done ⟨f', acc', some e⟩
      | none => match a.err with
        | none => copySection w s size fuel f' acc'
        | some e => .done ⟨f', acc', if e = eofError then none else some e⟩

/-- The block loop of `WriteTo`. -/
def writeBlocks (w : Sink) (ino : Inode) : ℕ → OpenFile → Bytes → ReadProg WriteResult
  | 0, f, acc => .done ⟨f, acc, none⟩
  | fuel + 1, f, acc =>
    if ino.size ≤ f.offset then .done ⟨f, acc, none⟩
    else (img.loadBlock ino f.offset).bind fun r => match r with
      | .error e => .done ⟨f, acc, if e.is .eof then none else some e⟩
      | .ok buf =>
        let (nw, ew) := w.write acc.length buf
        let f' := f.advance nw
        let acc' := acc ++ buf.take nw
        match ew with
        | some e => .done ⟨f', acc', some e⟩
        | none => writeBlocks w ino fuel f' acc'

/-- `WriteTo` once the inode is known. -/
def writeToWith (w : Sink) (f : OpenFile) (ino : Inode) : ReadProg WriteResult :=
  if ino.size ≤ f.offset then .done ⟨f, [], none⟩
  else (f.directReader img ino).bind fun r => match r with
    | (f, some s) => copySection img w s ino.size (ino.size - f.offset) f []
    | (f, none) => writeBlocks img w ino (ino.size - f.offset) f []

/-- `WriteTo`. -/
def writeTo (w : Sink) (f : OpenFile) : ReadProg WriteResult :=
  (f.readInfo img).bind fun r => match r with
    | .error e => .done ⟨f, [], some e⟩
    | .ok (f, ino) => f.writeToWith img w ino

end OpenFile

end Erofs
