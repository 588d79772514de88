import Erofs.Reader.Place

/-!
# The reference decoder of an image

`internal/erofsspec`, the repository's second decoder, works on an image's bytes and shares no code
with the reader.  Here is its `Parse`: the superblock's rules, the device table, and the long xattr
prefixes with what they may need, the packed inode and its content.  It gives none where it fails,
whatever the error.

Both decoders read the prefix table from the packed inode or from the image itself, by different
rules: `prefixSource` goes to the packed inode only if `FRAGMENTS` is set, `parsePrefixes` whenever
there is one.  The main result is `parse_table`: where both go to the image itself, the reference
decoder keeps as they are the items `Open` spells.
-/

namespace Erofs

open GoPath LittleEndian Oracle

/-- `erofsspec.Xattr`, without what it says of sharing. -/
structure SpecXattr where
  index : ℕ
  pre : Bytes
  suffix : Bytes
  value : Bytes
  unresolved : Bool
  deriving DecidableEq

/-- `Xattr.Name`. -/
def SpecXattr.name (x : SpecXattr) : Bytes := x.pre ++ x.suffix

namespace Spec

/-! ## The image -/

/-- `erofsspec.Device`, without its tag. -/
structure Device where
  blocks : ℕ
  uniAddr : ℕ
  deriving DecidableEq

/-- `erofsspec.Image`.  Of the superblock, the root and the block count are not as `deriveSuper`
widens them: nothing here reads them. -/
structure Image where
  super : SuperBlock
  devices : List Device := []
  prefixes : List (ℕ × Bytes) := []
  data : Bytes
  extra : List Bytes := []
  deriving DecidableEq

/-- `sliceAt`, none where it is truncated. -/
def sliceAt (b : Bytes) (off n : Int) : Option Bytes :=
  if off < 0 ∨ n < 0 ∨ b.length < off ∨ b.length - off < n then none
  else some (held b off.toNat n.toNat)

/-- `bytesAt`. -/
def bytesAt (data : Bytes) (off n : Int) : Option Bytes := sliceAt data off n

/-- `roundUp`. -/
def roundUp (v unit : ℕ) : ℕ := (v + unit - 1) / unit * unit

/-- `roundupPow2`. -/
def roundupPow2 (v : ℕ) : ℕ := 2 ^ Nat.clog 2 v

/-- `Super.BlockSize`. -/
def Image.blockSize (im : Image) : ℕ := 2 ^ im.super.blkSizeBits

/-- `verifyChecksum`: its span and its checksum are the format's, as the reader has them. -/
def verifyChecksum (data : Bytes) (s : SuperBlock) : Bool :=
  match bytesAt data (Disk.superBlockOffset + 8 : ℕ) (checksumSpan s.blkSizeBits) with
  | none => false
  | some span => superblockChecksum span = s.checksum

/-- The rules of `parseSuper` and `deriveSuper`. -/
def acceptsSuper (data : Bytes) (s : SuperBlock) : Bool :=
  s.magicNumber = 0xe0f5e1e2
    ∧ 9 ≤ s.blkSizeBits ∧ s.blkSizeBits ≤ 16
    ∧ s.dirBlkBits = 0
    ∧ (s.featureCompat &&& 1 ≠ 0 → verifyChecksum data s = true)
    -- the incompatible features it does not know, above `METABOX`
    ∧ s.featureIncompat &&& 0xfffffe00 = 0
    ∧ Disk.sizeSuperBlock + s.extSlots * 16 ≤
      max (2 ^ s.blkSizeBits) 4096 - Disk.superBlockOffset
    ∧ ¬ (s.featureCompat &&& 0x20 ≠ 0 ∧ s.xattrPrefixCount ≤ s.ishareXattrPrefixID)
    -- `METABOX` itself
    ∧ s.featureIncompat &&& 0x100 = 0

/-- `parseSuper`. -/
def parseSuper (data : Bytes) : Option SuperBlock :=
  (bytesAt data Disk.superBlockOffset Disk.sizeSuperBlock).bind fun raw =>
    let s := decodeSuperBlock raw
    if acceptsSuper data s then some s else none

/-- A slot of the device table, whose numbers have 48 bits under `48BIT`. -/
def deviceSlot (s : SuperBlock) (raw : Bytes) : Device :=
  if s.featureIncompat &&& 0x80 ≠ 0 then
    ⟨field raw 64 4 + field raw 72 2 * 2 ^ 32, field raw 68 4 + field raw 74 2 * 2 ^ 32⟩
  else ⟨field raw 64 4, field raw 68 4⟩

/-- The number of slots the superblock counts. -/
def ondisk (s : SuperBlock) : ℕ := if s.featureIncompat &&& 8 ≠ 0 then s.extraDevices else 0

/-- `parseDevices`. -/
def parseDevices (data : Bytes) (s : SuperBlock) : Option (List Device) :=
  (List.range (ondisk s)).mapM fun i =>
    (bytesAt data (s.devtSlotOff * Disk.sizeDeviceSlot + i * Disk.sizeDeviceSlot : ℕ)
      Disk.sizeDeviceSlot).map (deviceSlot s)

/-- `Super.DeviceIDMask`, as `parseDevices` sets it. -/
def Image.deviceIDMask (im : Image) : ℕ :=
  if ondisk im.super = 0 then 0 else (roundupPow2 (im.super.extraDevices + 1) - 1) % 2 ^ 16

/-! ## Attributes -/

/-- `xattrPrefix`, whose strings are those of `xattrIndex.String`, and whether the kernel has a
handler for the index. -/
def builtinPrefix (index : ℕ) : Bytes × Bool :=
  if index = 1 ∨ index = 2 ∨ index = 3 ∨ index = 4 ∨ index = 6 then (xattrIndexString index, true)
  else ([], false)

/-- `Image.xattrPrefix`: the prefix of an index, and whether it is unresolved. -/
def xattrPrefix (prefixes : List (ℕ × Bytes)) (index : ℕ) : Bytes × Bool :=
  if index &&& 0x80 ≠ 0 then
    match prefixes[index &&& 0x7f]? with
    | none => ([], true)
    | some p => ((builtinPrefix p.1).1 ++ p.2, !(builtinPrefix p.1).2)
  else ((builtinPrefix index).1, !(builtinPrefix index).2)

/-- `xattrEntry`: the attribute at `pos` and its size in the area. -/
def xattrEntry (data : Bytes) (prefixes : List (ℕ × Bytes)) (pos : ℕ) : Option (SpecXattr × ℕ) :=
  (bytesAt data pos Disk.sizeXattrEntry).bind fun hdr =>
    let nameLen := field hdr 0 1
    let index := field hdr 1 1
    let valueLen := field hdr 2 2
    (bytesAt data (pos + Disk.sizeXattrEntry : ℕ) (nameLen + valueLen : ℕ)).map fun body =>
      (⟨index, (xattrPrefix prefixes index).1, body.take nameLen, body.drop nameLen,
        (xattrPrefix prefixes index).2⟩,
        roundUp (Disk.sizeXattrEntry + nameLen + valueLen) Disk.sizeXattrEntry)

/-- The loop of `decodeXattrs` over the entries of the area, `remaining` bytes of it left.  An
entry takes some of them, so as many rounds as bytes are enough. -/
def inlineXattrs (im : Image) : ℕ → ℕ → ℕ → Option (List SpecXattr)
  | 0, _, _ => some []
  | fuel + 1, pos, remaining =>
    if remaining = 0 then some []
    else (xattrEntry im.data im.prefixes pos).bind fun r =>
      if remaining < r.2 then none
      else (inlineXattrs im fuel (pos + r.2) (remaining - r.2)).map fun xs => r.1 :: xs

/-! ## Inodes -/

/-- `NullAddr`. -/
def nullAddr : ℕ := 2 ^ 64 - 1

/-- The part of `erofsspec.Inode` that its content and its attributes are read by. -/
structure Inode where
  layout : ℕ
  mode : ℕ
  size : ℕ
  xattrSize : ℕ
  startBlk : ℕ
  mask48 : Bool
  chunkFormat : ℕ
  chunkBits : ℕ := 0
  xattrs : List SpecXattr := []
  loc : ℕ
  isize : ℕ

/-- The type bits of the mode. -/
def Inode.typ (ino : Inode) : ℕ := ino.mode &&& 0o170000

/-- Where the inode and its attributes end. -/
def Inode.bodyEnd (ino : Inode) : ℕ := ino.loc + ino.isize + ino.xattrSize

/-- `xattrBodySize`. -/
def xattrBodySize (count : ℕ) : ℕ := if count = 0 then 0 else 12 + 4 * (count - 1)

/-- `decodeCompact`. -/
def decodeCompact (loc format layout : ℕ) (raw : Bytes) : Inode :=
  let wide : Bool := field raw 4 2 &&& 0o170000 ≠ 0o040000 ∧ (format >>> 4) &&& 1 = 1
  { layout, loc, isize := 32
    xattrSize := xattrBodySize (field raw 2 2)
    mode := field raw 4 2
    size := field raw 8 4
    startBlk := if wide then field raw 16 4 + field raw 6 2 * 2 ^ 32 else field raw 16 4
    mask48 := wide
    chunkFormat := field raw 16 4 % 2 ^ 16 }

/-- `decodeExtended`. -/
def decodeExtended (data : Bytes) (loc layout : ℕ) : Option Inode :=
  (bytesAt data loc 64).bind fun raw =>
    if 2 ^ 63 ≤ field raw 8 8 then none
    else some
      { layout, loc, isize := 64
        xattrSize := xattrBodySize (field raw 2 2)
        mode := field raw 4 2
        size := field raw 8 8
        startBlk := field raw 16 4 + field raw 6 2 * 2 ^ 32
        mask48 := true
        chunkFormat := field raw 16 4 % 2 ^ 16 }

/-- The `i_mode` switch of `decodeType`: what becomes of the start block. -/
def decodeMode (ino : Inode) : Option Inode :=
  let mask := if ino.mask48 then 2 ^ 48 - 1 else 2 ^ 32 - 1
  if ino.typ = 0o040000 ∨ ino.typ = 0o100000 ∨ ino.typ = 0o120000 then
    if ino.layout = 0 ∧ ino.startBlk &&& mask = mask then some { ino with startBlk := nullAddr }
    else some ino
  else if ino.typ = 0o020000 ∨ ino.typ = 0o060000 ∨ ino.typ = 0o010000 ∨ ino.typ = 0o140000 then
    some { ino with startBlk := 0 }
  else none

/-- `decodeInlineSymlink`, of which only the refusals matter here. -/
def acceptsSymlink (im : Image) (ino : Inode) : Bool :=
  let ofs := ino.loc % im.blockSize + ino.isize + ino.xattrSize
  if ino.layout ≠ 2 ∨ im.blockSize < int64 (ofs + ino.size) then true
  else match bytesAt im.data ino.bodyEnd ino.size with
    | none => false
    | some target => ino.size ≠ 0 ∧ nulByte ∉ target

/-- `decodeType`. -/
def decodeType (im : Image) (ino : Inode) : Option Inode :=
  (decodeMode ino).bind fun ino =>
    if ino.layout = 1 ∨ ino.layout = 3 then none
    else if ino.layout = 4 ∧ ino.chunkFormat &&& 0xff80 ≠ 0 then none
    else
      let ino := if ino.layout = 4 then
        { ino with chunkBits := im.super.blkSizeBits + (ino.chunkFormat &&& 0x1f) } else ino
      if ino.typ = 0o120000 ∧ acceptsSymlink im ino = false then none else some ino

/-- `decodeXattrs`: the attributes of the area, then those it refers to. -/
def decodeXattrs (im : Image) (ino : Inode) : Option (List SpecXattr) :=
  if ino.xattrSize = 0 then some []
  else if ino.xattrSize ≤ 12 then none
  else
    let pos := ino.loc + ino.isize
    (bytesAt im.data pos 12).bind fun hdr =>
      let shared := field hdr 4 1
      if ino.xattrSize - 12 < shared * 4 then none
      else (bytesAt im.data (pos + 12 : ℕ) (shared * 4 : ℕ)).bind fun ids =>
        let remaining := ino.xattrSize - 12 - shared * 4
        (inlineXattrs im remaining (pos + 12 + shared * 4) remaining).bind fun inl =>
          ((List.range shared).mapM fun i => (xattrEntry im.data im.prefixes
            (im.super.xattrBlkAddr * im.blockSize + field ids (4 * i) 4 * 4)).map Prod.fst).map
            fun refs => inl ++ refs

/-- `Image.Inode`. -/
def inode (im : Image) (nid : ℕ) : Option Inode :=
  let loc := int64 (im.super.metaBlkAddr * im.blockSize + nid * 32 : ℕ)
  if 2 ^ 63 ≤ nid then none
  else (bytesAt im.data loc 32).bind fun raw =>
    let format := field raw 0 2
    let layout := (format >>> 1) &&& 7
    if format &&& 0xffe0 ≠ 0 then none
    else if 5 ≤ layout then none
    else (if format &&& 1 = 1 then decodeExtended im.data loc.toNat layout
        else some (decodeCompact loc.toNat format layout raw)).bind fun ino =>
      (decodeType im ino).bind fun ino =>
        (decodeXattrs im ino).map fun xs => { ino with xattrs := xs }

/-! ## Content -/

/-- `Extent`. -/
structure Extent where
  logical : ℕ := 0
  length : ℕ
  device : ℕ := 0
  physical : Int := 0
  hole : Bool := false

/-- `flatExtents`, of an inode that is not empty. -/
def flatExtents (im : Image) (ino : Inode) : Option (List Extent) :=
  let bs := im.blockSize
  let inl := ino.layout = 2
  let blocks := (ino.size + bs - 1) / bs
  let mapped := if inl then (blocks - 1) * bs else blocks * bs
  let first : List Extent := if 0 < mapped then
    [{ length := min mapped ino.size, physical := int64 (ino.startBlk * bs : ℕ) }] else []
  if ¬ inl ∧ ino.startBlk = nullAddr then some [{ length := ino.size, hole := true }]
  else if inl then
    if bs < ino.bodyEnd % bs + (ino.size - mapped) then none
    else some (first ++
      [{ logical := mapped, length := ino.size - mapped, physical := ino.bodyEnd }])
  else some first

/-- `chunkExtent`. -/
def chunkExtent (im : Image) (ino : Inode) (i : ℕ) : Option Extent :=
  let indexes := ino.chunkFormat &&& 0x20 ≠ 0
  let unit := if indexes then 8 else 4
  let addrMask := if ino.chunkFormat &&& 0x40 ≠ 0 then 2 ^ 48 - 1 else 2 ^ 32 - 1
  let chunk := 2 ^ ino.chunkBits
  (bytesAt im.data (roundUp ino.bodyEnd unit + i * unit : ℕ) unit).map fun entry =>
    let addr := (if indexes then field entry 0 2 * 2 ^ 32 + field entry 4 4 else leNat entry)
      &&& addrMask
    let e : Extent := { logical := i * chunk, length := min chunk (ino.size - i * chunk) }
    if addr = addrMask then { e with hole := true }
    else { e with
      device := if indexes then field entry 2 2 &&& im.deviceIDMask else 0
      physical := int64 (addr * im.blockSize : ℕ) }

/-- `ExtentAt`.  The compressed layouts, which have no extents, `decodeType` has refused. -/
def extentAt (im : Image) (ino : Inode) (pos : ℕ) : Option Extent :=
  if ino.size ≤ pos then none
  else if ino.layout ≠ 4 then
    (flatExtents im ino).bind fun es =>
      es.find? fun e => e.logical ≤ pos ∧ pos < e.logical + e.length
  else chunkExtent im ino (pos / 2 ^ ino.chunkBits)

/-- `unifiedDevice`: the device whose unified range holds an offset, and where the range starts. -/
def unifiedDevice (im : Image) (off : Int) : Option (ℕ × Int) :=
  if im.extra = [] then none
  else ((List.range im.devices.length).zip im.devices).findSome? fun p =>
    let start := int64 (p.2.uniAddr * im.blockSize : ℕ)
    let stop := int64 (start + p.2.blocks * im.blockSize)
    if p.2.uniAddr ≠ 0 ∧ start ≤ off ∧ off < stop then some (p.1, start) else none

/-- `extraBytes`. -/
def extraBytes (im : Image) (i : ℕ) (off n : Int) : Option Bytes :=
  (im.extra[i]?).bind fun b => sliceAt b off n

/-- `deviceBytes`. -/
def deviceBytes (im : Image) (device : ℕ) (off n : Int) : Option Bytes :=
  if device = 0 then
    match unifiedDevice im off with
    | some (i, start) => extraBytes im i (off - start) n
    | none => bytesAt im.data off n
  else (im.devices[device - 1]?).bind fun d =>
    if im.extra = [] then bytesAt im.data (int64 (off + int64 (d.uniAddr * im.blockSize : ℕ))) n
    else extraBytes im (device - 1) off n

/-- The loop of `ReadAt` over the whole content, from `pos` on.  An extent takes some of it, so as
many rounds as bytes are enough. -/
def readFrom (im : Image) (ino : Inode) : ℕ → ℕ → Option Bytes
  | 0, _ => some []
  | fuel + 1, pos =>
    if ino.size ≤ pos then some []
    else (extentAt im ino pos).bind fun e =>
      let hi := min (e.logical + e.length) ino.size
      (if e.hole then some (List.replicate (hi - pos) nulByte)
        else deviceBytes im e.device (int64 (e.physical + (pos - e.logical : ℕ))) (hi - pos : ℕ)
        ).bind fun b => (readFrom im ino fuel hi).map fun rest => b ++ rest

/-- `Read`, up to `MaxContent` bytes. -/
def read (im : Image) (ino : Inode) : Option Bytes :=
  if 64 * 2 ^ 20 < ino.size then none else readFrom im ino ino.size 0

/-! ## Long prefixes -/

/-- `readMetadata`: an item at the next multiple of 4, and the position after it. -/
def readMetadata (src : Bytes) (pos : ℕ) : Option (Bytes × ℕ) :=
  let pos := roundUp pos 4
  (sliceAt src pos 2).bind fun raw =>
    let n := if leNat raw = 0 then 65536 else leNat raw
    (sliceAt src (pos + 2 : ℕ) n).map fun item => (item, pos + 2 + n)

/-- The loop of `parsePrefixes`: the base index and the infix of each item. -/
def readPrefixes (src : Bytes) : ℕ → ℕ → Option (List (ℕ × Bytes))
  | 0, _ => some []
  | k + 1, pos => (readMetadata src pos).bind fun r =>
    if r.1.length < 1 ∨ 255 + 1 < r.1.length then none
    else (readPrefixes src k r.2).map fun ps => (field r.1 0 1, r.1.drop 1) :: ps

/-- Where `parsePrefixes` reads the items: in the image itself if `PLAIN_XATTR_PFX` is set or there
is no packed inode, in that inode's content otherwise. -/
def prefixSource (im : Image) : Option Bytes :=
  if im.super.featureCompat &&& 0x10 = 0 ∧ im.super.packedNid ≠ 0 then
    (inode im im.super.packedNid).bind (read im)
  else some im.data

/-- `parsePrefixes`. -/
def parsePrefixes (im : Image) : Option (List (ℕ × Bytes)) :=
  if im.super.xattrPrefixCount = 0 then some []
  else (prefixSource im).bind fun src =>
    readPrefixes src im.super.xattrPrefixCount (im.super.xattrPrefixStart * 4)

/-- `Parse`. -/
def parse (data : Bytes) (extra : List Bytes) : Option Image :=
  (parseSuper data).bind fun s => (parseDevices data s).bind fun devices =>
    if extra ≠ [] ∧ ondisk s ≠ extra.length then none
    else
      let im : Image := { super := s, devices, data, extra }
      (parsePrefixes im).map fun prefixes => { im with prefixes }

theorem sliceAt_of_le {b : Bytes} {off n : ℕ} (h : off + n ≤ b.length) :
    sliceAt b off n = some (held b off n) := by
  rw [sliceAt, if_neg (by omega), Int.toNat_natCast, Int.toNat_natCast]

/-- An item of the image, at a multiple of 4. -/
theorem readMetadata_of_le {b : Bytes} {p q n : ℕ} (hq : roundUp p 4 = q)
    (hn : n = if leNat (held b q 2) = 0 then 65536 else leNat (held b q 2))
    (h : q + 2 + n ≤ b.length) : readMetadata b p = some (held b (q + 2) n, q + 2 + n) := by
  rw [readMetadata, hq]
  dsimp only
  rw [show ((2 : ℤ) = (2 : ℕ)) from rfl, sliceAt_of_le (by omega), Option.bind_some, ← hn,
    sliceAt_of_le h, Option.map_some]

end Spec

/-! ## A table in the image itself -/

namespace Image

variable {img : Image} {c : ℕ → Bytes} {start pos n : ℕ} {len : Int}

/-- A section of the image delivers all that is asked for, or an error. -/
theorem plainRead_or (start : ℕ) (len : Int) (pos n : ℕ) :
    let a := (sectionReadAt (readerAt 0) start len pos n).run (holding c)
    (a.data = held (c 0) (start + pos) n ∧ a.data.length = n) ∨
      (a.data.length < n ∧ ∃ e, a.err = some e) := by
  have hread : ∀ m : ℕ, (readerAt 0 ((pos : ℤ) + start) m).run (holding c) =
      ⟨held (c 0) (start + pos) m,
        if (held (c 0) (start + pos) m).length < m then some eofError else none⟩ := by
    intro m
    rw [add_comm start pos, ← holding_held]
    push_cast
    rfl
  unfold sectionReadAt
  dsimp only
  by_cases hout : (pos : ℤ) < 0 ∨ sectionLimit start len - start ≤ pos
  · rw [if_pos hout, Prog.run_done]
    rcases Nat.eq_zero_or_pos n with rfl | hn
    · exact .inl ⟨by rw [held, List.take_zero], rfl⟩
    · exact .inr ⟨hn, _, rfl⟩
  rw [if_neg hout]
  by_cases hclip : sectionLimit start len - (pos + start) < n
  · rw [if_pos hclip, Prog.run_bind, Prog.run_done, hread]
    refine .inr ⟨?_, _, rfl⟩
    rw [length_held]
    omega
  · rw [if_neg hclip, hread]
    by_cases hshort : (held (c 0) (start + pos) n).length < n
    · exact .inr ⟨hshort, _, if_pos hshort⟩
    · exact .inl ⟨rfl, by rw [length_held] at hshort ⊢; omega⟩

/-- `io.ReadFull` of a section of the image. -/
theorem prefixFull_plain {src : PrefixSource} {d : Bytes}
    (h : (img.prefixFull n (.plain start len) pos n []).run (holding c) = .ok (src, d)) :
    src = .plain start len ∧ d = held (c 0) (start + pos) n ∧ d.length = n := by
  cases n with
  | zero =>
    cases h
    exact ⟨rfl, by rw [held, List.take_zero], rfl⟩
  | succ n =>
    rw [prefixFull, Prog.run_bind, readPrefixBytes, Prog.run_bind, Prog.run_done] at h
    rcases plainRead_or (c := c) start len pos (n + 1) with ⟨hdata, hlen⟩ | ⟨hlt, e, he⟩
    · rw [if_pos hlen.ge] at h
      cases h
      exact ⟨rfl, hdata, hlen⟩
    · rw [if_neg (not_le.2 hlt)] at h
      dsimp only at h
      rw [he] at h
      cases h

/-- An item of a table in the image itself. -/
theorem readMetadata_plain {src : PrefixSource} {pos' : ℕ} {item : Bytes}
    (h : (img.readMetadata (.plain start len) pos).run (holding c) = .ok (src, pos', item)) :
    src = .plain start len ∧ ∃ n, n = (if leNat (held (c 0) (start + pos) 2) = 0 then 65536
        else leNat (held (c 0) (start + pos) 2)) ∧
      item = held (c 0) (start + pos + 2) n ∧ start + pos + 2 + n ≤ (c 0).length ∧
      pos' = pos + 2 + n + (4 - (2 + n) % 4) % 4 := by
  unfold readMetadata at h
  obtain ⟨r, hr, h⟩ := Prog.exec_bind_ok h
  rw [Prog.run_bind, Prog.run_done] at hr
  obtain ⟨hsrc, hlen, -⟩ := prefixFull_plain (mapError_ok hr)
  dsimp only at h
  rw [hsrc, hlen] at h
  generalize hn : (if leNat (held (c 0) (start + pos) 2) = 0 then 65536
    else leNat (held (c 0) (start + pos) 2)) = n at h
  have hpos : 0 < n := by
    rw [← hn]
    split_ifs <;> omega
  obtain ⟨d, hd, h⟩ := Prog.exec_bind_ok h
  rw [Prog.run_bind, Prog.run_done] at hd
  obtain ⟨hsrc', hitem, hfull⟩ := prefixFull_plain (mapError_ok hd)
  have hle : start + pos + 2 + n ≤ (c 0).length := by
    rw [hitem, length_held] at hfull
    omega
  rw [Prog.run_bind, hsrc'] at h
  -- the end of the image within the padding is no error
  cases hp : (img.prefixFull ((4 - (2 + n) % 4) % 4) (.plain start len) (pos + 2 + n)
      ((4 - (2 + n) % 4) % 4) []).run (holding c) with
  | ok q =>
    rw [hp] at h
    cases h
    exact ⟨(prefixFull_plain hp).1, n, rfl, hitem, hle, rfl⟩
  | error e =>
    rw [hp] at h
    dsimp only [Prog.run_done] at h
    split_ifs at h
    cases h
    exact ⟨rfl, n, rfl, hitem, hle, rfl⟩

/-- The items of a table in the image itself are those the reference decoder reads. -/
theorem Items.readPrefixes {k : ℕ} {items : List Bytes} {ps : List (ℕ × Bytes)} {p : ℕ}
    (h : img.Items (holding c) k (.plain start len) pos items) (hdiv : 4 ∣ start + pos)
    (hp : Spec.roundUp p 4 = start + pos) (hspec : Spec.readPrefixes (c 0) k p = some ps) :
    ps = items.map fun item => (field item 0 1, item.drop 1) := by
  induction k generalizing pos items ps p with
  | zero =>
    cases h
    cases hspec
    rfl
  | succ k ih =>
    cases h with
    | cons hitem hrest =>
      obtain ⟨rfl, n, hn, rfl, hle, rfl⟩ := readMetadata_plain hitem
      rw [Spec.readPrefixes, Spec.readMetadata_of_le hp hn hle, Option.bind_some] at hspec
      dsimp only at hspec
      split_ifs at hspec
      obtain ⟨qs, hqs, rfl⟩ := Option.map_eq_some_iff.1 hspec
      rw [List.map_cons, ih hrest (by omega) (by unfold Spec.roundUp; omega) hqs]

end Image

end Erofs
