import Erofs.Reader.Resolve

/-!
# Opening an image

`Open` of `erofs.go`: the superblock, its checks, the device table and the long xattr prefixes.
The readers are outside, so `Open` is given what they say of themselves: how many extra devices
there are and, by `sizes`, the length of each reader that can tell (`imageSize`), the image being
number 0.

The main results: `openImage_opened`, what every image `Open` returns satisfies;
`Opened.windowsFit`, that the windows of flatdev mode end with the image when its reader can tell
its length; and `openImage_table`, what its long prefixes are made of.
-/

namespace Erofs

open GoPath LittleEndian Oracle

/-! ## The superblock -/

/-- `SuperBlock.Unmarshal`. -/
def decodeSuperBlock (b : Bytes) : SuperBlock where
  magicNumber := field b 0 4
  checksum := field b 4 4
  featureCompat := field b 8 4
  blkSizeBits := field b 12 1
  extSlots := field b 13 1
  rootNid := field b 14 2
  buildTime := field b 24 8
  buildTimeNs := field b 32 4
  blocks := field b 36 4
  metaBlkAddr := field b 40 4
  xattrBlkAddr := field b 44 4
  featureIncompat := field b 80 4
  comprAlgs := field b 84 2
  extraDevices := field b 86 2
  devtSlotOff := field b 88 2
  dirBlkBits := field b 90 1
  xattrPrefixCount := field b 91 1
  xattrPrefixStart := field b 92 4
  packedNid := field b 96 8
  ishareXattrPrefixID := field b 105 1

/-- One bit of the CRC-32C, polynomial reversed. -/
def crcShift (c : BitVec 32) : BitVec 32 :=
  if c.getLsbD 0 then (c >>> 1) ^^^ 0x82f63b78#32 else c >>> 1

/-- One byte of the CRC-32C. -/
def crcByte (c : BitVec 32) (b : Byte) : BitVec 32 :=
  Nat.iterate crcShift 8 (c ^^^ BitVec.ofNat 32 b.val)

/-- `superblockChecksum`: the kernel's seed and no inversion. -/
def superblockChecksum (span : Bytes) : ℕ := (span.foldl crcByte 0x5045b54a#32).toNat

/-- `checksumSpan`. -/
def checksumSpan (blkSizeBits : ℕ) : ℕ :=
  (if 1024 < 2 ^ blkSizeBits then 2 ^ blkSizeBits - 1024 else 2 ^ blkSizeBits) - 8

/-- `verifySuperblockChecksum` after its `ReadAt`. -/
def checkChecksum (sb : SuperBlock) (a : Answer) : Except GoError Unit :=
  match a.hardError with
  | some e => .error (e.wrap "failed to read the superblock's block: %w" [])
  | none =>
    if a.data.length ≠ checksumSpan sb.blkSizeBits then
      .error (errorf "superblock block short of its checksummed length: %w" [] .corrupt)
    else if superblockChecksum a.data ≠ sb.checksum then
      .error (errorf "superblock checksum %#08x; want %#08x: %w"
        [.int (superblockChecksum a.data), .int sb.checksum] .corrupt)
    else .ok ()

/-- `verifySuperblockChecksum`. -/
def verifySuperblockChecksum (sb : SuperBlock) : Fallible Unit :=
  if sb.featureCompat &&& 1 = 0 then .done (.ok ())
  else (readerAt 0 (Disk.superBlockOffset + 8 : ℕ) (checksumSpan sb.blkSizeBits)).bind fun a =>
    .done (checkChecksum sb a)

/-- `ErrInvalidSuperblock`, which wraps `ErrCorrupt`. -/
def invalidSuperblock (format : String) (args : List Arg) : GoError := errorf format args .corrupt

/-- `Open`'s checks of the superblock's identity, before its checksum. -/
def checkIdentity (sb : SuperBlock) : Except GoError Unit :=
  if sb.magicNumber ≠ 0xe0f5e1e2 then
    .error (invalidSuperblock "%w: invalid magic number %x" [.int sb.magicNumber])
  else if sb.blkSizeBits < 9 ∨ 16 < sb.blkSizeBits then
    .error (invalidSuperblock "unsupported block size bits %d: %w" [.int sb.blkSizeBits])
  else .ok ()

/-- `Open`'s checks between the checksum and the device table. -/
def checkFeatures (sb : SuperBlock) : Except GoError Unit :=
  -- the incompatible features outside `FeatureIncompatAll`
  if sb.featureIncompat &&& 0xffffff92 ≠ 0 then
    .error (errorf "unsupported incompatible feature 0x%x: %w"
      [.int (sb.featureIncompat &&& 0xffffff92 : ℕ)] .notImplemented)
  else if max (2 ^ sb.blkSizeBits) 4096 - Disk.superBlockOffset
      < Disk.sizeSuperBlock + sb.extSlots * 16 then
    .error (invalidSuperblock "sb_extslots %d puts the superblock past its page: %w"
      [.int sb.extSlots])
  else if sb.featureCompat &&& 0x20 ≠ 0 ∧ sb.xattrPrefixCount ≤ sb.ishareXattrPrefixID then
    .error (invalidSuperblock "ishare xattr prefix id %d of %d: %w"
      [.int sb.ishareXattrPrefixID, .int sb.xattrPrefixCount])
  else .ok ()

/-- `Open`'s check of the compressed formats. -/
def checkCompression (sb : SuperBlock) : Except GoError Unit :=
  if sb.featureIncompat &&& 1 ≠ 0 ∨ sb.comprAlgs ≠ 0 then
    .error (errorf "unsupported compressed filesystem (FeatureIncompat=0x%x, ComprAlgs=0x%x): %w"
      [.int sb.featureIncompat, .int sb.comprAlgs] .notImplemented)
  else .ok ()

/-! ## The device table -/

/-- The number of device slots on disk. -/
def ondiskExtraDevices (sb : SuperBlock) : ℕ :=
  if sb.featureIncompat &&& 8 ≠ 0 then sb.extraDevices else 0

/-- `deviceIDMask`: the slots and the image numbered in whole bits. -/
def deviceIDMask (sb : SuperBlock) : ℕ :=
  if sb.featureIncompat &&& 8 ≠ 0 then (2 ^ Nat.clog 2 (sb.extraDevices + 1) - 1) % 2 ^ 16 else 0

/-- `flatWindow` on an image of `size` bytes. -/
def flatWindow (sb : SuperBlock) (size : Int) (mappedBlkAddr : ℕ) : Device :=
  let start : Int := (mappedBlkAddr * 2 ^ sb.blkSizeBits : ℕ)
  .window start (if 0 < size then max (size - start) 0 else maxInt64 - start)

/-- What a device's reader says of its length; a window is a section and knows it. -/
def deviceSize (sizes : ℕ → Option Int) (idx : ℕ) : Device → Int
  | .window start length => sectionLimit start length - start
  | .external => (sizes (idx + 1)).getD 0

/-- A device slot, `size` being the image's length as its reader gives it. -/
def deviceOf (sb : SuperBlock) (flatdev : Bool) (sizes : ℕ → Option Int) (size : Int) (idx : ℕ)
    (slot : Bytes) : DeviceInfo :=
  let device := if flatdev then flatWindow sb size (field slot 68 4) else .external
  { device, size := deviceSize sizes idx device
    mappedBlkAddr := field slot 68 4, blocks := field slot 64 4 }

/-- The loop over the device table, `k` slots left from number `idx`. -/
def readDevices (sb : SuperBlock) (flatdev : Bool) (sizes : ℕ → Option Int) (size : Int) :
    ℕ → ℕ → Fallible (List DeviceInfo)
  | 0, _ => .done (.ok [])
  | k + 1, idx =>
    let offset := sb.devtSlotOff * Disk.sizeDeviceSlot + idx * Disk.sizeDeviceSlot
    ((readerAt 0 offset Disk.sizeDeviceSlot).bind fun a => .done <| match a.err with
      | some e => .error (e.wrap "failed to read device slot %d at offset %d: %w"
          [.int idx, .int offset])
      | none => .ok (deviceOf sb flatdev sizes size idx (Image.buffer Disk.sizeDeviceSlot a.data))
      ).tryBind fun d =>
        (readDevices sb flatdev sizes size k (idx + 1)).tryBind fun ds => .done (.ok (d :: ds))

/-! ## Geometry -/

namespace Image

variable (img : Image)

/-- The image with the extent the superblock declares where the reader gives none. -/
def withDeclaredSize : Except GoError Image :=
  let declared : Int := (img.sb.blocks * img.blockSize : ℕ)
  if 0 < img.size then
    if img.size < declared then
      .error (invalidSuperblock
        "superblock declares %d blocks (%d bytes) but the image is %d bytes: %w"
        [.int img.sb.blocks, .int declared, .int img.size])
    else .ok img
  else .ok { img with size := declared }

/-- `Open`'s checks of the addresses in the superblock. -/
def checkGeometry : Except GoError Unit :=
  let xattrs : Int := (img.sb.xattrBlkAddr * img.blockSize : ℕ)
  if 0 < img.size ∧ img.size ≤ img.metaStartPos then
    .error (invalidSuperblock "metadata starts at %d, outside the %d byte image: %w"
      [.int img.metaStartPos, .int img.size])
  else if 0 < img.size ∧ img.size ≤ xattrs then
    .error (invalidSuperblock "shared xattrs start at %d, outside the %d byte image: %w"
      [.int xattrs, .int img.size])
  else match img.checkNid img.sb.rootNid with
    | .error e => .error (e.wrap "root %w" [])
    | .ok _ =>
      if img.sb.dirBlkBits ≠ 0 then
        .error (invalidSuperblock "directory block bits %d are not supported: %w"
          [.int img.sb.dirBlkBits])
      else .ok ()

/-! ## Long xattr prefixes -/

/-- Where the prefix table is read from: the packed inode's data, or a section of the image. -/
inductive PrefixSource
  | packed (f : OpenFile)
  | plain (start length : Int)
  deriving DecidableEq

/-- `prefixSource`. -/
def prefixSource (startOffset : ℕ) : Fallible PrefixSource :=
  if img.sb.featureCompat &&& 0x10 = 0 ∧ img.sb.featureIncompat &&& 0x20 ≠ 0 ∧ 0 < img.sb.packedNid
  then (OpenFile.readInfo img
      { name := ascii ['.', 'p', 'a', 'c', 'k', 'e', 'd'], nid := img.sb.packedNid }).bind
    fun r => .done <| match r with
      | .error e => .error (e.wrap "failed to read packed inode: %w" [])
      | .ok (f, fi) =>
        if fi.size < startOffset then
          .error (errorf "xattr prefix start offset %d exceeds packed inode size %d: %w"
            [.int startOffset, .int fi.size] .corrupt)
        else .ok (.packed { f with offset := startOffset })
  else .done <|
    if 0 < img.size then
      if img.size ≤ startOffset then
        .error (errorf "xattr prefix table starts at %d, outside the %d byte image: %w"
          [.int startOffset, .int img.size] .corrupt)
      else .ok (.plain startOffset (img.size - startOffset))
    else .ok (.plain startOffset (maxInt64 - startOffset))

/-- `Read` of `n` bytes from the prefix table, `pos` bytes into it. -/
def readPrefixBytes (src : PrefixSource) (pos n : ℕ) : ReadProg (PrefixSource × Answer) :=
  match src with
  | .packed f => (f.read img n).bind fun r => .done (.packed r.file, ⟨r.data, r.err⟩)
  | .plain start length =>
    (sectionReadAt (readerAt 0) start length pos n).bind fun a => .done (src, a)

/-- `io.ReadFull` of `n` bytes from the prefix table. -/
def prefixFull : ℕ → PrefixSource → ℕ → ℕ → Bytes → Fallible (PrefixSource × Bytes)
  | 0, src, _, _, acc => .done (.ok (src, acc))
  | fuel + 1, src, pos, n, acc =>
    (img.readPrefixBytes src pos n).bind fun r =>
      if n ≤ r.2.data.length then .done (.ok (r.1, acc ++ r.2.data))
      else match r.2.err with
        | none => prefixFull fuel r.1 (pos + r.2.data.length) (n - r.2.data.length)
            (acc ++ r.2.data)
        | some e => .done (.error e)

/-- One item of `readMetadata`: its bytes, and the source and the position after its padding.  An
end of the source within the padding is not an error. -/
def readMetadata (src : PrefixSource) (pos : ℕ) : Fallible (PrefixSource × ℕ × Bytes) :=
  ((img.prefixFull 2 src pos 2 []).bind fun r => .done <| r.mapError fun e =>
      e.wrap "failed to read metadata length %v: %w" []).tryBind fun r =>
    let dataLen := if leNat r.2 = 0 then 65536 else leNat r.2
    ((img.prefixFull dataLen r.1 (pos + 2) dataLen []).bind fun d => .done <| d.mapError fun e =>
      e.wrap "failed to read metadata payload: %w" []).tryBind fun d =>
      let pad := (4 - (2 + dataLen) % 4) % 4
      (img.prefixFull pad d.1 (pos + 2 + dataLen) pad []).bind fun p => .done <| match p with
        | .ok q => .ok (q.1, pos + 2 + dataLen + pad, d.2)
        | .error e =>
          if e.is .eof || e.is .unexpectedEOF then .ok (d.1, pos + 2 + dataLen + pad, d.2)
          else .error (e.wrap "failed to discard padding of %d bytes: %w" [.int pad])

/-- The error of an item that could not be read. -/
def prefixError (i : ℕ) (e : GoError) : GoError :=
  if e.is .eof || e.is .unexpectedEOF then
    errorf "long xattr prefix %d past the end of its source: %w" [.int i] .corrupt
  else e.wrap "failed to read long xattr prefix %d: %w" [.int i]

/-- The loop of `loadLongPrefixes`, `k` items left from number `i`. -/
def readPrefixes : ℕ → ℕ → PrefixSource → ℕ → Fallible (List Bytes)
  | 0, _, _, _ => .done (.ok [])
  | k + 1, i, src, pos =>
    (img.readMetadata src pos).bind fun r => match r with
      | .error e => .done (.error (prefixError i e))
      | .ok (src, pos, data) =>
        if 1 + 255 < data.length then
          .done (.error (errorf "long xattr prefix %d of %d bytes: %w"
            [.int i, .int data.length] .corrupt))
        else (readPrefixes k (i + 1) src pos).tryBind fun ps =>
          .done (.ok ((xattrIndexString (field data 0 1) ++ data.drop 1) :: ps))

/-- `loadLongPrefixes`. -/
def loadLongPrefixes : Fallible Image :=
  if img.sb.xattrPrefixCount = 0 then .done (.ok img)
  else (img.prefixSource (img.sb.xattrPrefixStart * 4)).tryBind fun src =>
    (img.readPrefixes img.sb.xattrPrefixCount 0 src 0).tryBind fun ps =>
      .done (.ok { img with longPrefixes := ps })

end Image

/-! ## `Open` -/

/-- The superblock's `ReadAt`. -/
def superBlockOf (a : Answer) : Except GoError SuperBlock :=
  match a.err with
  | some e => .error e
  | none =>
    if a.data.length ≠ Disk.sizeSuperBlock then
      .error (invalidSuperblock "%w: read %d bytes" [.int a.data.length])
    else .ok (decodeSuperBlock a.data)

/-- The devices of an image opened with `extra` devices, `size` the length its reader gives. -/
def openDevices (sb : SuperBlock) (extra : ℕ) (sizes : ℕ → Option Int) (size : Int) :
    Fallible (List DeviceInfo) :=
  let slots := ondiskExtraDevices sb
  if ¬ (extra = 0 ∧ 0 < slots) ∧ slots ≠ extra then
    .done (.error (invalidSuperblock "%w: extra devices count %d does not match provided %d"
      [.int slots, .int extra]))
  else readDevices sb (extra = 0 ∧ 0 < slots) sizes size slots 0

/-- `Open` after the device table. -/
def openGeometry (img : Image) : Except GoError Image := do
  checkCompression img.sb
  let img ← img.withDeclaredSize
  img.checkGeometry
  return img

/-- `Open` once the superblock is decoded. -/
def openSuperBlock (sb : SuperBlock) (extra : ℕ) (sizes : ℕ → Option Int) : Fallible Image :=
  let size := (sizes 0).getD 0
  match checkIdentity sb with
  | .error e => .done (.error e)
  | .ok _ => (verifySuperblockChecksum sb).tryBind fun _ =>
    match checkFeatures sb with
    | .error e => .done (.error e)
    | .ok _ => (openDevices sb extra sizes size).tryBind fun devices =>
      match openGeometry { sb, size, devices, deviceIDMask := deviceIDMask sb } with
      | .error e => .done (.error e)
      | .ok img => img.loadLongPrefixes

/-- `Open` with `extra` devices. -/
def openImage (extra : ℕ) (sizes : ℕ → Option Int) : Fallible Image :=
  ((readerAt 0 Disk.superBlockOffset Disk.sizeSuperBlock).bind fun a =>
    .done (superBlockOf a)).tryBind fun sb => openSuperBlock sb extra sizes

/-! ## What `Open` returns -/

/-- What `Open` establishes of the image it returns, `size₀` being the length its reader gives,
zero for none: the block size, the extent, the place of the metadata and of the root, and that its
devices are either all the caller's or all windows of the image. -/
structure Image.Opened (img : Image) (extra : ℕ) (size₀ : Int) : Prop where
  bits : 9 ≤ img.sb.blkSizeBits ∧ img.sb.blkSizeBits ≤ 16
  size : if 0 < size₀ then img.size = size₀ else img.size = (img.sb.blocks * img.blockSize : ℕ)
  metadata : 0 < img.size → img.metaStartPos < img.size
  root : img.checkNid img.sb.rootNid = .ok ()
  devices : (0 < extra ∧ ∀ d ∈ img.devices, d.device = .external) ∨
    (extra = 0 ∧ ∀ d ∈ img.devices, d.device = flatWindow img.sb size₀ d.mappedBlkAddr)

section Opened

variable {o : Req → Answer} {sb : SuperBlock} {flatdev : Bool} {sizes : ℕ → Option Int}
  {size : Int} {k idx extra : ℕ} {ds : List DeviceInfo} {img img' : Image}

theorem readDevices_ok (h : (readDevices sb flatdev sizes size k idx).run o = .ok ds) :
    ∀ d ∈ ds, ∃ i slot, d = deviceOf sb flatdev sizes size i slot := by
  induction k generalizing idx ds with
  | zero =>
    cases h
    simp
  | succ k ih =>
    rw [readDevices] at h
    obtain ⟨d, hd, h⟩ := Prog.exec_bind_ok h
    obtain ⟨ds', hds, h⟩ := Prog.exec_bind_ok h
    cases h
    intro e he
    rcases List.mem_cons.1 he with rfl | he
    · rw [Prog.run_bind, Prog.run_done] at hd
      split at hd
      · cases hd
      · cases hd
        exact ⟨_, _, rfl⟩
    · exact ih hds e he

/-- The devices are the caller's, or windows of the image where the caller gave none. -/
theorem openDevices_ok (h : (openDevices sb extra sizes size).run o = .ok ds) :
    (0 < extra ∧ ∀ d ∈ ds, d.device = .external) ∨
      (extra = 0 ∧ ∀ d ∈ ds, d.device = flatWindow sb size d.mappedBlkAddr) := by
  unfold openDevices at h
  dsimp only at h
  split_ifs at h with hcount
  · cases h
  · have hdev := readDevices_ok h
    by_cases hx : extra = 0
    · refine .inr ⟨hx, fun d hd => ?_⟩
      have hslots : 0 < ondiskExtraDevices sb := by
        by_contra hzero
        rw [show ondiskExtraDevices sb = 0 by omega] at h
        cases h
        simp at hd
      obtain ⟨i, slot, rfl⟩ := hdev d hd
      simp [deviceOf, hx, hslots]
    · refine .inl ⟨by omega, fun d hd => ?_⟩
      obtain ⟨i, slot, rfl⟩ := hdev d hd
      simp [deviceOf, hx]

theorem loadLongPrefixes_ok (h : img.loadLongPrefixes.run o = .ok img') :
    ∃ ps, img' = { img with longPrefixes := ps } := by
  unfold Image.loadLongPrefixes at h
  split_ifs at h
  · cases h
    exact ⟨_, rfl⟩
  · obtain ⟨src, -, h⟩ := Prog.exec_bind_ok h
    obtain ⟨ps, -, h⟩ := Prog.exec_bind_ok h
    cases h
    exact ⟨ps, rfl⟩

theorem withDeclaredSize_ok (h : img.withDeclaredSize = .ok img') :
    img' = { img with size := img'.size } ∧ if 0 < img.size then img'.size = img.size
      else img'.size = (img.sb.blocks * img.blockSize : ℕ) := by
  unfold Image.withDeclaredSize at h
  dsimp only at h
  split_ifs at h with h₁ h₂
  · cases h
    exact ⟨rfl, by rw [if_pos h₁]⟩
  · cases h
    exact ⟨rfl, by rw [if_neg h₁]⟩

theorem checkGeometry_ok (h : img.checkGeometry = .ok ()) :
    (0 < img.size → img.metaStartPos < img.size) ∧ img.checkNid img.sb.rootNid = .ok () := by
  unfold Image.checkGeometry at h
  dsimp only at h
  by_cases h₁ : 0 < img.size ∧ img.size ≤ img.metaStartPos
  · rw [if_pos h₁] at h
    cases h
  rw [if_neg h₁] at h
  by_cases h₂ : 0 < img.size ∧ img.size ≤ (img.sb.xattrBlkAddr * img.blockSize : ℕ)
  · rw [if_pos h₂] at h
    cases h
  rw [if_neg h₂] at h
  cases hr : img.checkNid img.sb.rootNid with
  | error e =>
    rw [hr] at h
    cases h
  | ok u => exact ⟨fun hs => not_le.1 fun hle => h₁ ⟨hs, hle⟩, rfl⟩

theorem checkIdentity_ok (h : checkIdentity sb = .ok ()) :
    9 ≤ sb.blkSizeBits ∧ sb.blkSizeBits ≤ 16 := by
  unfold checkIdentity at h
  split_ifs at h with h₁ h₂
  omega

/-- What is decided before the prefix table is read. -/
theorem openSuperBlock_ok (h : (openSuperBlock sb extra sizes).run o = .ok img) :
    checkIdentity sb = .ok () ∧ ∃ devices img₀,
      (openDevices sb extra sizes ((sizes 0).getD 0)).run o = .ok devices ∧
      openGeometry { sb, size := (sizes 0).getD 0, devices, deviceIDMask := deviceIDMask sb } =
        .ok img₀ ∧ img₀.loadLongPrefixes.run o = .ok img := by
  unfold openSuperBlock at h
  dsimp only at h
  cases hid : checkIdentity sb with
  | error e => rw [hid] at h; cases h
  | ok u =>
    rw [hid] at h
    obtain ⟨_, -, h⟩ := Prog.exec_bind_ok h
    cases hfe : checkFeatures sb with
    | error e => rw [hfe] at h; cases h
    | ok u =>
      rw [hfe] at h
      obtain ⟨devices, hdev, h⟩ := Prog.exec_bind_ok h
      split at h
      · cases h
      · next img₀ hgeo => exact ⟨rfl, devices, img₀, hdev, hgeo, h⟩

theorem openGeometry_ok (h : openGeometry img = .ok img') :
    img.withDeclaredSize = .ok img' ∧ img'.checkGeometry = .ok () := by
  obtain ⟨_, -, h⟩ := except_bind_ok h
  obtain ⟨img₁, hsize, h⟩ := except_bind_ok h
  obtain ⟨_, hcheck, h⟩ := except_bind_ok h
  cases h
  exact ⟨hsize, hcheck⟩

theorem openSuperBlock_opened (h : (openSuperBlock sb extra sizes).run o = .ok img) :
    img.Opened extra ((sizes 0).getD 0) := by
  obtain ⟨hid, devices, img₀, hdev, hgeo, hload⟩ := openSuperBlock_ok h
  obtain ⟨ps, rfl⟩ := loadLongPrefixes_ok hload
  obtain ⟨hsize, hcheck⟩ := openGeometry_ok hgeo
  obtain ⟨heq, hval⟩ := withDeclaredSize_ok hsize
  obtain ⟨hmeta, hroot⟩ := checkGeometry_ok hcheck
  rw [heq] at hmeta hroot ⊢
  exact ⟨checkIdentity_ok hid, hval, hmeta, hroot, openDevices_ok hdev⟩

/-- What every image `Open` returns satisfies. -/
theorem openImage_opened (h : (openImage extra sizes).run o = .ok img) :
    img.Opened extra ((sizes 0).getD 0) := by
  obtain ⟨sb, -, h⟩ := Prog.exec_bind_ok h
  exact openSuperBlock_opened h

/-- The windows of flatdev mode end with the image when its reader can tell its length. -/
theorem Image.Opened.windowsFit {size₀ : Int} (h : img.Opened extra size₀)
    (hx : 0 < size₀ ∨ 0 < extra) : img.WindowsFit := by
  intro d hd start length hdev
  rcases h.devices with ⟨-, hext⟩ | ⟨hzero, hwin⟩
  · rw [hext d hd] at hdev
    cases hdev
  · have hpos : 0 < size₀ := by omega
    have hsize := h.size
    rw [if_pos hpos] at hsize
    rw [hwin d hd] at hdev
    simp only [flatWindow, hpos, if_true, Device.window.injEq] at hdev
    obtain ⟨rfl, rfl⟩ := hdev
    exact ⟨by positivity, by omega⟩

/-! ## The prefix table -/

namespace Image

/-- What `loadLongPrefixes` keeps of an item: the spelling of its base index, and its infix. -/
def itemPrefix (item : Bytes) : Bytes := xattrIndexString (field item 0 1) ++ item.drop 1

/-- The items `readMetadata` gives one after the other, `k` of them. -/
inductive Items (img : Image) (o : Req → Answer) : ℕ → PrefixSource → ℕ → List Bytes → Prop
  | nil {src : PrefixSource} {pos : ℕ} : Items img o 0 src pos []
  | cons {k : ℕ} {src src' : PrefixSource} {pos pos' : ℕ} {item : Bytes} {items : List Bytes}
      (h : (img.readMetadata src pos).run o = .ok (src', pos', item))
      (hrest : Items img o k src' pos' items) : Items img o (k + 1) src pos (item :: items)

theorem Items.unique {src : PrefixSource} {pos : ℕ} {items items' : List Bytes}
    (h : img.Items o k src pos items) (h' : img.Items o k src pos items') : items = items' := by
  induction h generalizing items' with
  | nil =>
    cases h'
    rfl
  | cons h _ ih =>
    cases h' with
    | cons h' hrest' =>
      rw [h, Except.ok.injEq, Prod.mk.injEq, Prod.mk.injEq] at h'
      obtain ⟨rfl, rfl, rfl⟩ := h'
      rw [ih hrest']

theorem readPrefixes_items {i : ℕ} {src : PrefixSource} {pos : ℕ} {ps : List Bytes}
    (h : (img.readPrefixes k i src pos).run o = .ok ps) :
    ∃ items, img.Items o k src pos items ∧ ps = items.map itemPrefix := by
  induction k generalizing i src pos ps with
  | zero =>
    cases h
    exact ⟨[], .nil, rfl⟩
  | succ k ih =>
    rw [readPrefixes, Prog.run_bind] at h
    cases hr : (img.readMetadata src pos).run o with
    | error e =>
      rw [hr] at h
      cases h
    | ok r =>
      rw [hr] at h
      dsimp only at h
      split_ifs at h
      · cases h
      obtain ⟨ps', hps, h⟩ := Prog.exec_bind_ok h
      cases h
      obtain ⟨items, hitems, rfl⟩ := ih hps
      exact ⟨r.2.2 :: items, .cons hr hitems, rfl⟩

/-- The items of the image's prefix table, as `Open` reads them. -/
def Table (img : Image) (o : Req → Answer) (items : List Bytes) : Prop :=
  if img.sb.xattrPrefixCount = 0 then items = []
  else ∃ src, (({ img with longPrefixes := [] } : Image).prefixSource
      (img.sb.xattrPrefixStart * 4)).run o = .ok src ∧
    ({ img with longPrefixes := [] } : Image).Items o img.sb.xattrPrefixCount src 0 items

theorem Table.unique {items items' : List Bytes} (h : img.Table o items)
    (h' : img.Table o items') : items = items' := by
  unfold Table at h h'
  split_ifs at h h' with h0
  · rw [h, h']
  · obtain ⟨src, hsrc, h⟩ := h
    obtain ⟨src', hsrc', h'⟩ := h'
    rw [hsrc, Except.ok.injEq] at hsrc'
    subst hsrc'
    exact h.unique h'

theorem loadLongPrefixes_table (h : img.loadLongPrefixes.run o = .ok img')
    (hnil : img.longPrefixes = []) :
    ∃ items, img'.Table o items ∧ img'.longPrefixes = items.map itemPrefix := by
  have hself : ∀ ps, ({ { img with longPrefixes := ps } with longPrefixes := [] } : Image) =
      img := by
    intro ps
    rw [← hnil]
  unfold loadLongPrefixes at h
  split_ifs at h with h0
  · cases h
    exact ⟨[], by rw [Table, if_pos h0], hnil⟩
  · obtain ⟨src, hsrc, h⟩ := Prog.exec_bind_ok h
    obtain ⟨ps, hps, h⟩ := Prog.exec_bind_ok h
    cases h
    obtain ⟨items, hitems, rfl⟩ := readPrefixes_items hps
    refine ⟨items, ?_, rfl⟩
    rw [Table, if_neg h0, hself]
    exact ⟨src, hsrc, hitems⟩

end Image

/-- The long prefixes of an opened image are made of its table's items. -/
theorem openImage_table (h : (openImage extra sizes).run o = .ok img) :
    ∃ items, img.Table o items ∧ img.longPrefixes = items.map Image.itemPrefix := by
  obtain ⟨sb, -, h⟩ := Prog.exec_bind_ok h
  obtain ⟨-, devices, img₀, -, hgeo, hload⟩ := openSuperBlock_ok h
  have heq := (withDeclaredSize_ok (openGeometry_ok hgeo).1).1
  exact Image.loadLongPrefixes_table hload (by rw [heq])

end Opened

end Erofs
