import Erofs.Writer.Slots

/-!
# Serializing the image

`write` of `writer.go` and what it calls: the data of flat files goes to the output first, behind
room for the superblock, then the metadata, and last the superblock area over the room.  The output
is an `io.WriteSeeker` that may fail at any call; the metadata is collected in a buffer, which
cannot.

`writeMetadataInodes` keeps a count of what it has written, apart from the buffer itself, and holds
it against the nids; `zeroBuf` has one block, so that a longer padding would panic.

The main results:

* `writeDataBlocks_ok` — the data of the entries, one after the other;
* `writeSeekable_ok` — what a write that succeeds leaves: the superblock area, the data and the
  metadata, every call of the output having succeeded.
-/

namespace Erofs

open GoPath LittleEndian

/-! ## The output -/

/-- An `io.WriteSeeker`: what it holds, where the next write goes, how often it was called, and for
each call the error it ends with, if it does. -/
structure Out where
  bytes : Bytes := []
  pos : ℕ := 0
  calls : ℕ := 0
  fails : ℕ → Option GoError := fun _ => none

namespace Out

/-- `out.Write(b)`; a call that fails ends the writing, so what it takes does not matter. -/
def write (out : Out) (b : Bytes) : Except GoError Out :=
  match out.fails out.calls with
  | some e => .error e
  | none => .ok { out with
      bytes := putAt out.bytes out.pos b, pos := out.pos + b.length, calls := out.calls + 1 }

/-- `out.Seek(0, io.SeekStart)`. -/
def seekStart (out : Out) : Except GoError Out :=
  match out.fails out.calls with
  | some e => .error e
  | none => .ok { out with pos := 0, calls := out.calls + 1 }

/-- A call of `Write` for each of `bs`.  The first one that fails ends it, and `what` names the data
in the error. -/
def writeEach (what : String) (p : Path) : List Bytes → Out → Except GoError Out
  | [], out => .ok out
  | b :: bs, out => do
    let out ← (out.write b).mapError fun e => e.wrap (what ++ ": %w") [.path p]
    writeEach what p bs out

/-- The output after a number of calls that all succeeded. -/
structure Passed (out out' : Out) : Prop where
  fails : out'.fails = out.fails
  le : out.calls ≤ out'.calls
  passed : ∀ k, out.calls ≤ k → k < out'.calls → out.fails k = none

theorem Passed.refl (out : Out) : out.Passed out := ⟨rfl, le_rfl, fun k h h' => by omega⟩

theorem Passed.trans {a b c : Out} (hab : a.Passed b) (hbc : b.Passed c) : a.Passed c where
  fails := hbc.fails.trans hab.fails
  le := hab.le.trans hbc.le
  passed k h h' := by
    by_cases hk : k < b.calls
    · exact hab.passed k h hk
    · rw [← hab.fails]
      exact hbc.passed k (by omega) h'

theorem write_ok {out out' : Out} {b : Bytes} (h : out.write b = .ok out') :
    out'.bytes = putAt out.bytes out.pos b ∧ out'.pos = out.pos + b.length ∧ out.Passed out' := by
  unfold write at h
  cases hf : out.fails out.calls with
  | some e =>
    rw [hf] at h
    cases h
  | none =>
    rw [hf] at h
    cases h
    refine ⟨rfl, rfl, rfl, Nat.le_succ _, fun k hk hk' => ?_⟩
    obtain rfl : k = out.calls := Nat.le_antisymm (Nat.le_of_lt_succ hk') hk
    exact hf

theorem seekStart_ok {out out' : Out} (h : out.seekStart = .ok out') :
    out'.bytes = out.bytes ∧ out'.pos = 0 ∧ out.Passed out' := by
  unfold seekStart at h
  cases hf : out.fails out.calls with
  | some e =>
    rw [hf] at h
    cases h
  | none =>
    rw [hf] at h
    cases h
    refine ⟨rfl, rfl, rfl, Nat.le_succ _, fun k hk hk' => ?_⟩
    obtain rfl : k = out.calls := Nat.le_antisymm (Nat.le_of_lt_succ hk') hk
    exact hf

/-- An output that has `b` behind what it had, every call having succeeded. -/
structure Appended (out : Out) (b : Bytes) (out' : Out) : Prop where
  bytes : out'.bytes = out.bytes ++ b
  atEnd : out'.pos = out'.bytes.length
  passed : out.Passed out'

theorem Appended.nil {out : Out} (hend : out.pos = out.bytes.length) : out.Appended [] out :=
  ⟨(List.append_nil _).symm, hend, .refl _⟩

theorem Appended.trans {a b c : Out} {x y : Bytes} (hab : a.Appended x b) (hbc : b.Appended y c) :
    a.Appended (x ++ y) c where
  bytes := by rw [hbc.bytes, hab.bytes, List.append_assoc]
  atEnd := hbc.atEnd
  passed := hab.passed.trans hbc.passed

theorem write_appends {out out' : Out} {b : Bytes} (h : out.write b = .ok out')
    (hend : out.pos = out.bytes.length) : out.Appended b out' := by
  obtain ⟨hbytes, hpos, hpassed⟩ := write_ok h
  rw [hend, putAt_length_self] at hbytes
  refine ⟨hbytes, ?_, hpassed⟩
  rw [hbytes, hpos, hend, List.length_append]

theorem writeEach_appends {what : String} {p : Path} {bs : List Bytes} {out out' : Out}
    (h : writeEach what p bs out = .ok out') (hend : out.pos = out.bytes.length) :
    out.Appended bs.flatten out' := by
  induction bs generalizing out with
  | nil =>
    cases h
    exact .nil hend
  | cons b bs ih =>
    obtain ⟨out₁, hb, h⟩ := except_bind_ok h
    have happ := write_appends (mapError_ok hb) hend
    exact happ.trans (ih h happ.atEnd)

end Out

/-! ## Entries -/

/-- An entry that is about to be written: its plan, the dirents of a directory, and the addresses of
its data and its tail, zero where it has none. -/
structure Assigned where
  planned : Planned
  dir : ErofsDir
  dataBlkAddr : ℕ
  tailBlkAddr : ℕ
  deriving DecidableEq

namespace Assigned

variable (a : Assigned)

/-- The entry, with the chunk of its tail. -/
def entry : ErofsEntry := a.planned.entry.withTail a.tailBlkAddr

/-- Its plan. -/
def plan : Plan := a.planned.plan

end Assigned

/-- The panic of `zeroBuf[:n]` past the buffer. -/
def slicePanic (n capacity : ℕ) : GoError :=
  ⟨"runtime error: slice bounds out of range [:%d] with capacity %d",
    [.int n, .int capacity], .external⟩

/-- `io.CopyBuffer` from `io.LimitReader(r, n)`, and the check of the count; `what` names the data
in an error. -/
def copyLimited (what : String) (p : Path) (r : Reader) (n : Int) : Except GoError Bytes :=
  let data := r.bytes.take n.toNat
  match if (r.bytes.length : Int) < n then r.err else none with
  | some e => .error (e.wrap (what ++ ": %w") [.path p])
  | none =>
    if (data.length : Int) ≠ n then
      .error (errorf (what ++ ": short read: got %d bytes, expected %d: %w")
        [.path p, .int data.length, .int n] .unexpectedEOF)
    else .ok data

/-- `len(w.copyBuf)`. -/
def copyBufSize : ℕ := 256 * 1024

/-- The pieces `io.CopyBuffer` writes, from a source that fills the buffer as long as it can. -/
def copyPieces : ℕ → Bytes → List Bytes
  | 0, _ => []
  | fuel + 1, b =>
    if b = [] then [] else b.take copyBufSize :: copyPieces fuel (b.drop copyBufSize)

theorem flatten_copyPieces {fuel : ℕ} {b : Bytes} (h : b.length ≤ fuel) :
    (copyPieces fuel b).flatten = b := by
  induction fuel generalizing b with
  | zero =>
    rw [List.length_eq_zero_iff.1 (Nat.le_zero.1 h)]
    rfl
  | succ fuel ih =>
    rw [copyPieces]
    by_cases hnil : b = []
    · rw [if_pos hnil, hnil]
      rfl
    · have hpos : 0 < b.length := List.length_pos_iff.2 hnil
      have hrest : (b.drop copyBufSize).length ≤ fuel := by
        rw [List.length_drop, copyBufSize]
        omega
      rw [if_neg hnil, List.flatten_cons, ih hrest, List.take_append_drop]

/-- `DeviceSlot.Marshal`, of a slot that declares `blocks`. -/
def marshalDeviceSlot (blocks : ℕ) : Bytes := record [(64, 0), (4, blocks), (4, 0), (56, 0)]

/-- `SuperBlock.Marshal`. -/
def marshalSuperBlock (sb : SuperBlock) (inos : ℕ) : Bytes :=
  record [(4, sb.magicNumber), (4, sb.checksum), (4, sb.featureCompat), (1, sb.blkSizeBits),
    (1, sb.extSlots), (2, sb.rootNid), (8, inos), (8, sb.buildTime), (4, sb.buildTimeNs),
    (4, sb.blocks), (4, sb.metaBlkAddr), (4, sb.xattrBlkAddr), (16, 0), (16, 0),
    (4, sb.featureIncompat), (2, sb.comprAlgs), (2, sb.extraDevices), (2, sb.devtSlotOff),
    (1, sb.dirBlkBits), (1, sb.xattrPrefixCount), (4, sb.xattrPrefixStart), (8, sb.packedNid),
    (1, 0), (1, sb.ishareXattrPrefixID), (22, 0)]

/-- `blkBits`: the number of trailing zeros. -/
def blkBits (blockSize : ℕ) : ℕ := ((List.range 64).find? blockSize.testBit).getD 64

namespace ErofsWriter

variable (w : ErofsWriter)

/-- `zeroBuf[:n]`. -/
def zeroBuf (n : ℕ) : Except GoError Bytes :=
  if n ≤ w.blockSize then .ok (List.replicate n nulByte) else .error (slicePanic n w.blockSize)

/-- The padding that fills up a block of which `n` bytes are written. -/
def blockPad (n : ℕ) : Except GoError Bytes :=
  w.zeroBuf ((w.blockSize - n % w.blockSize) % w.blockSize)

/-- The entries with the addresses `assignDataBlocks` gives them. -/
def assigned (xs : List (Planned × ErofsDir)) : List Assigned :=
  (xs.zip (w.assignDataBlocks (xs.map Prod.fst)).1).map fun q =>
    ⟨q.1.1, q.1.2, q.2.data.getD 0, q.2.tail.getD 0⟩

/-! ## Data -/

/-- The data `writeDataBlocks` writes for an entry that has some, before the padding. -/
def flatData (a : Assigned) : Except GoError Bytes :=
  let e := a.entry
  if e.mode.typ = Mode.reg then
    match e.data with
    | none => .ok []
    | some r => copyLimited "write data for %s" e.path r (flatPlainDataSize a.planned)
  else if e.mode.typ = Mode.dir then .ok (writeDirents w.blockSize a.dir)
  else if e.mode.typ = Mode.symlink then .ok e.symTarget
  else .ok []

/-- The calls of `Write` the data takes; what a source delivers is written before its error or its
count is looked at. -/
def flatCalls (a : Assigned) : List Bytes :=
  let e := a.entry
  if e.mode.typ = Mode.reg then
    match e.data with
    | none => []
    | some r =>
      let data := r.bytes.take (flatPlainDataSize a.planned).toNat
      copyPieces data.length data
  else if e.mode.typ = Mode.dir then
    direntCalls w.blockSize (allEnts a.dir).length (allEnts a.dir)
  else if e.mode.typ = Mode.symlink then [e.symTarget]
  else []

/-- How an error of these calls names the data. -/
def flatText (a : Assigned) : String :=
  if a.entry.mode.typ = Mode.reg then "write data for %s"
  else if a.entry.mode.typ = Mode.dir then "write dirents for %s"
  else "write symlink data for %s"

/-- The call that fills up a block of which `n` bytes are written, where one is needed. -/
def writePad (p : Path) (n : ℕ) (out : Out) : Except GoError Out := do
  let pad ← w.blockPad n
  Out.writeEach "write padding for %s" p (if pad = [] then [] else [pad]) out

/-- `writeTailBlock`. -/
def writeTailBlock (a : Assigned) (out : Out) : Except GoError Out :=
  if a.entry.tail = [] then .ok out
  else do
    let out ← Out.writeEach "write tail for %s" a.entry.path [a.entry.tail] out
    w.writePad a.entry.path a.entry.tail.length out

/-- What `writeDataBlocks` does for an entry. -/
def writeEntryData (a : Assigned) (out : Out) : Except GoError Out :=
  if flatPlainDataSize a.planned = 0 then w.writeTailBlock a out
  else do
    let out ← Out.writeEach (flatText a) a.entry.path (w.flatCalls a) out
    let data ← w.flatData a
    let out ← w.writePad a.entry.path data.length out
    w.writeTailBlock a out

/-- `writeDataBlocks`. -/
def writeDataBlocks : List Assigned → Out → Except GoError Out
  | [], out => .ok out
  | a :: as, out => do
    let out ← w.writeEntryData a out
    writeDataBlocks as out

/-! ## Metadata -/

/-- The data behind an inode and its attributes, and the bytes `writeMetadataInodes` counts for
it. -/
def writeTrailing (a : Assigned) : Except GoError (Bytes × ℕ) :=
  let e := a.entry
  if e.mode.typ = Mode.reg then
    if a.plan.layout = .chunkBased ∧ (0 < e.size ∨ e.chunks ≠ []) then do
      let pad ← w.zeroBuf a.plan.chunkPad
      return (pad ++ w.writeChunkIndexes a.plan.chunkBits e, a.plan.chunkPad + a.plan.trailingSize)
    else if a.plan.layout = .flatInline ∧ 0 < e.size then
      match e.data with
      | none => .ok ([], 0)
      | some r => do
        let data ← copyLimited "write inline data for %s" e.path r e.size
        return (data, data.length)
    else .ok ([], 0)
  else if e.mode.typ = Mode.dir ∧ a.plan.layout = .flatInline then
    .ok (writeDirents w.blockSize a.dir, (writeDirents w.blockSize a.dir).length)
  else if e.mode.typ = Mode.symlink ∧ a.plan.layout = .flatInline then
    .ok (e.symTarget, e.symTarget.length)
  else .ok ([], 0)

/-- The inode of an entry and its attributes. -/
def inodeHeader (a : Assigned) : Bytes :=
  w.writeInode a.entry a.planned.direntSize a.plan a.dataBlkAddr ++ xattrBytes a.entry.xattrs

/-- One turn of `writeMetadataInodes`: the count of bytes and the buffer after an entry. -/
def writeMetadataInode (metaStart : ℕ) (buf : Bytes) (a : Assigned) :
    Except GoError (ℕ × Bytes) := do
  let expectedOff := a.plan.nid * 32
  if expectedOff < metaStart then
    throw (errorf "write inode for %s: %w %d by %d bytes"
      [.path a.entry.path, .int a.plan.nid, .int (metaStart - expectedOff : ℕ)] .metaOverrun)
  let gap ← w.zeroBuf (expectedOff - metaStart)
  let trailing ← w.writeTrailing a
  let totalWritten := a.plan.used
  let pad ← w.zeroBuf ((32 - totalWritten % 32) % 32)
  return (expectedOff + a.plan.headerSize + trailing.2 + pad.length,
    buf ++ (gap ++ (w.inodeHeader a ++ trailing.1) ++ pad))

/-- The loop of `writeMetadataInodes`. -/
def writeInodes : List Assigned → ℕ → Bytes → Except GoError (ℕ × Bytes)
  | [], metaStart, buf => .ok (metaStart, buf)
  | a :: as, metaStart, buf => do
    let r ← w.writeMetadataInode metaStart buf a
    writeInodes as r.1 r.2

/-- `writeMetadataInodes`. -/
def writeMetadataInodes (as : List Assigned) : Except GoError Bytes := do
  let r ← w.writeInodes as 0 []
  let pad ← w.blockPad r.1
  return r.2 ++ pad

/-! ## The superblock area -/

/-- The superblock `writeBlock0` makes, before its checksum. -/
def superBlock (xs : List Planned) : SuperBlock where
  featureCompat := 1
  blkSizeBits := blkBits w.blockSize
  rootNid := (xs.head?.map (·.plan.nid)).getD 0
  buildTime := w.buildTime
  buildTimeNs := w.buildTimeNs
  blocks := w.totalBlocks xs
  metaBlkAddr := (w.assignDataBlocks xs).2
  featureIncompat := (if w.devices ≠ [] then 8 else 0) |||
    if xs.any fun x => x.plan.layout = .chunkBased then 4 else 0
  extraDevices := if w.devices ≠ [] then w.devices.length else 0
  devtSlotOff := if w.devices ≠ [] then
    (Disk.superBlockOffset + Disk.sizeSuperBlock) / Disk.sizeDeviceSlot else 0

/-- The loop of `writeBlock0` over the devices, from number `i` on. -/
def writeDeviceSlots : List ℕ → ℕ → Bytes → Except GoError Bytes
  | [], _, area => .ok area
  | blocks :: ds, i, area =>
    if 2 ^ 32 - 1 < blocks then
      .error (errorf "device %d block count %d exceeds 32-bit limit: %w"
        [.int (i + 1 : ℕ), .int blocks] .invalid)
    else writeDeviceSlots ds (i + 1)
      (putAt area (Disk.superBlockOffset + Disk.sizeSuperBlock + i * Disk.sizeDeviceSlot)
        (marshalDeviceSlot blocks))

/-- The area with its checksum, which covers all of its first block behind the checksum. -/
def withChecksum (area : Bytes) : Bytes :=
  putAt area (Disk.superBlockOffset + 4) (leBytes 4 (superblockChecksum
    ((area.drop (Disk.superBlockOffset + 8)).take (checksumSpan (blkBits w.blockSize)))))

/-- `writeBlock0`, up to the write. -/
def writeBlock0 (xs : List Planned) : Except GoError Bytes := do
  let area := putAt (List.replicate w.sbAreaSize nulByte) Disk.superBlockOffset
    (marshalSuperBlock (w.superBlock xs) xs.length)
  let area ← writeDeviceSlots w.devices 0 area
  return w.withChecksum area

/-! ## The image -/

/-- `writeSeekable`. -/
def writeSeekable (xs : List (Planned × ErofsDir)) (out : Out) : Except GoError Out := do
  let as := w.assigned xs
  let out ← out.write (List.replicate w.sbAreaSize nulByte)
  let out ← w.writeDataBlocks as out
  let metadata ← w.writeMetadataInodes as
  let out ← out.write metadata
  let out ← out.seekStart
  let area ← w.writeBlock0 (xs.map Prod.fst)
  out.write area

/-- `write`, of the entries in the order of their nids. -/
def write (xs : List (Planned × ErofsDir)) (out : Out) : Except GoError Out := do
  w.checkLimits (xs.map Prod.fst)
  w.writeSeekable xs out

end ErofsWriter

/-! ## What a write that succeeds leaves -/

section Written

variable {w : ErofsWriter} {a : Assigned} {as : List Assigned} {out out' : Out}
  {xs : List (Planned × ErofsDir)}

/-- The block of an entry's tail. -/
def ErofsWriter.tailBytes (w : ErofsWriter) (a : Assigned) : Except GoError Bytes :=
  if a.entry.tail = [] then .ok []
  else do
    let pad ← w.blockPad a.entry.tail.length
    return a.entry.tail ++ pad

/-- The blocks of an entry, whatever calls they take. -/
def ErofsWriter.entryBytes (w : ErofsWriter) (a : Assigned) : Except GoError Bytes :=
  if ErofsWriter.flatPlainDataSize a.planned = 0 then w.tailBytes a
  else do
    let data ← w.flatData a
    let pad ← w.blockPad data.length
    let tail ← w.tailBytes a
    return data ++ pad ++ tail

/-- The data regions of entries, one for each. -/
def ErofsWriter.Regions (w : ErofsWriter) (as : List Assigned) (regions : List Bytes) : Prop :=
  List.Forall₂ (fun a r => w.entryBytes a = .ok r) as regions

theorem writePad_appends {p : Path} {n : ℕ} (h : w.writePad p n out = .ok out')
    (hend : out.pos = out.bytes.length) :
    ∃ pad, w.blockPad n = .ok pad ∧ out.Appended pad out' := by
  obtain ⟨pad, hpad, h⟩ := except_bind_ok h
  refine ⟨pad, hpad, ?_⟩
  have happ := Out.writeEach_appends h hend
  by_cases hnil : pad = []
  · rwa [if_pos hnil, List.flatten_nil, ← hnil] at happ
  · rwa [if_neg hnil, List.flatten_singleton] at happ

theorem writeTailBlock_appends (h : w.writeTailBlock a out = .ok out')
    (hend : out.pos = out.bytes.length) :
    ∃ tail, w.tailBytes a = .ok tail ∧ out.Appended tail out' := by
  unfold ErofsWriter.writeTailBlock at h
  unfold ErofsWriter.tailBytes
  by_cases hnil : a.entry.tail = []
  · rw [if_pos hnil] at h ⊢
    cases h
    exact ⟨[], rfl, .nil hend⟩
  · rw [if_neg hnil] at h ⊢
    obtain ⟨out₁, htail, h⟩ := except_bind_ok h
    have happ := Out.writeEach_appends htail hend
    obtain ⟨pad, hpad, happ'⟩ := writePad_appends h happ.atEnd
    rw [List.flatten_singleton] at happ
    refine ⟨_, ?_, happ.trans happ'⟩
    rw [hpad]
    rfl

/-- The calls write the data that passes the check of the count. -/
theorem flatten_flatCalls {data : Bytes} (h : w.flatData a = .ok data) :
    (w.flatCalls a).flatten = data := by
  unfold ErofsWriter.flatData at h
  unfold ErofsWriter.flatCalls
  dsimp only at h ⊢
  split_ifs at h ⊢ with hreg hdir hlink
  · cases hr : a.entry.data with
    | none =>
      rw [hr] at h
      cases h
      rfl
    | some r =>
      rw [hr] at h
      dsimp only
      rw [flatten_copyPieces le_rfl]
      unfold copyLimited at h
      dsimp only at h
      split at h
      · cases h
      · split_ifs at h
        cases h
        rfl
  · cases h
    rw [flatten_direntCalls, writeDirents]
  · cases h
    exact List.flatten_singleton
  · cases h
    rfl

theorem writeEntryData_appends (h : w.writeEntryData a out = .ok out')
    (hend : out.pos = out.bytes.length) :
    ∃ r, w.entryBytes a = .ok r ∧ out.Appended r out' := by
  unfold ErofsWriter.writeEntryData at h
  unfold ErofsWriter.entryBytes
  by_cases hds : ErofsWriter.flatPlainDataSize a.planned = 0
  · rw [if_pos hds] at h ⊢
    exact writeTailBlock_appends h hend
  · rw [if_neg hds] at h ⊢
    obtain ⟨out₁, hcalls, h⟩ := except_bind_ok h
    obtain ⟨data, hdata, h⟩ := except_bind_ok h
    obtain ⟨out₂, hpad, h⟩ := except_bind_ok h
    have happ := Out.writeEach_appends hcalls hend
    rw [flatten_flatCalls hdata] at happ
    obtain ⟨pad, hpad, happ₂⟩ := writePad_appends hpad happ.atEnd
    obtain ⟨tail, htail, happ₃⟩ := writeTailBlock_appends h happ₂.atEnd
    refine ⟨_, ?_, (happ.trans happ₂).trans happ₃⟩
    rw [hdata]
    change (w.blockPad data.length >>= _) = _
    rw [hpad]
    change (w.tailBytes a >>= _) = _
    rw [htail]
    rfl

/-- The data of the entries goes behind what is there. -/
theorem writeDataBlocks_ok (h : w.writeDataBlocks as out = .ok out')
    (hend : out.pos = out.bytes.length) :
    ∃ regions, w.Regions as regions ∧ out.Appended regions.flatten out' := by
  induction as generalizing out with
  | nil =>
    cases h
    exact ⟨[], .nil, .nil hend⟩
  | cons a as ih =>
    obtain ⟨out₁, hentry, h⟩ := except_bind_ok h
    obtain ⟨r, hr, happ⟩ := writeEntryData_appends hentry hend
    obtain ⟨regions, hregions, happ'⟩ := ih h happ.atEnd
    exact ⟨r :: regions, .cons hr hregions, happ.trans happ'⟩

/-- The parts of an image that was written. -/
structure ErofsWriter.Parts (w : ErofsWriter) (xs : List (Planned × ErofsDir)) (area : Bytes)
    (regions : List Bytes) (metadata : Bytes) : Prop where
  area : w.writeBlock0 (xs.map Prod.fst) = .ok area
  data : w.Regions (w.assigned xs) regions
  metadata : w.writeMetadataInodes (w.assigned xs) = .ok metadata

/-- The image is made of its parts: the area written last goes over the room that was left. -/
theorem writeSeekable_ok (h : w.writeSeekable xs out = .ok out') (hnew : out.bytes = [])
    (hpos : out.pos = 0) :
    ∃ area regions metadata, w.Parts xs area regions metadata ∧
      out'.bytes = area ++ (List.replicate w.sbAreaSize nulByte ++ regions.flatten ++
        metadata).drop area.length ∧ out.Passed out' := by
  obtain ⟨out₁, h₁, h⟩ := except_bind_ok h
  obtain ⟨out₂, h₂, h⟩ := except_bind_ok h
  obtain ⟨metadata, hmeta, h⟩ := except_bind_ok h
  obtain ⟨out₃, h₃, h⟩ := except_bind_ok h
  obtain ⟨out₄, h₄, h⟩ := except_bind_ok h
  obtain ⟨area, harea, h⟩ := except_bind_ok h
  obtain ⟨hb₁, hp₁, hc₁⟩ := Out.write_ok h₁
  rw [hnew, hpos] at hb₁
  have hroom : out₁.bytes = List.replicate w.sbAreaSize nulByte := by
    simpa [putAt] using hb₁
  have hend₁ : out₁.pos = out₁.bytes.length := by rw [hp₁, hpos, hroom, Nat.zero_add]
  obtain ⟨regions, hregions, hb₂, hp₂, hc₂⟩ := writeDataBlocks_ok h₂ hend₁
  obtain ⟨hb₃, -, hc₃⟩ := Out.write_ok h₃
  rw [hp₂, putAt_length_self, hb₂, hroom] at hb₃
  obtain ⟨hb₄, hp₄, hc₄⟩ := Out.seekStart_ok h₄
  obtain ⟨hb₅, -, hc₅⟩ := Out.write_ok h
  refine ⟨area, regions, metadata, ⟨harea, hregions, hmeta⟩, ?_,
    (((hc₁.trans hc₂).trans hc₃).trans hc₄).trans hc₅⟩
  rw [hb₅, hp₄, hb₄, hb₃]
  simp [putAt]

end Written

end Erofs
