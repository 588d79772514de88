import Erofs.Oracle
import Erofs.Errors
import Erofs.Disk

/-!
# Where an image's bytes are

The opened image of `erofs.go` and the arithmetic that turns block numbers into offsets:
`checkNid`, `chunkAddr`, `checkImageRange`, `locateRange`, `locate`, `boundOnDevice` and the
readers they lead to.  What the reader does to the outside is a program that asks for bytes
(`Oracle.Prog`): a request names the image (reader 0) or an extra device, an offset and a
length.

The main results say what an accepted address means: `checkNid_ok`, `checkImageRange_ok`,
`locateRange_ok`, `boundOnDevice_ok`.
-/

namespace Erofs

open GoPath Oracle

/-! ## Reading -/

/-- `math.MaxInt64`. -/
def maxInt64 : Int := 2 ^ 63 - 1

/-- A value stored in an `int64`. -/
def int64 (x : Int) : Int := x.bmod (2 ^ 64)

theorem int64_of {x : Int} (h0 : 0 ≤ x) (h : x ≤ maxInt64) : int64 x = x := by
  unfold maxInt64 at h
  refine Int.bmod_eq_of_le ?_ ?_
  · norm_num
    omega
  · norm_num
    omega

theorem int64_wraps {x : Int} (h0 : 2 ^ 63 ≤ x) (h : x < 2 ^ 64) : int64 x = x - 2 ^ 64 := by
  have hx : int64 (x - 2 ^ 64) = x - 2 ^ 64 := by
    refine Int.bmod_eq_of_le ?_ ?_ <;> norm_num <;> omega
  rw [← hx]
  exact (Int.sub_bmod_right ..).symm

/-- One `ReadAt` on reader `reader`, the image being reader 0. -/
structure Req where
  reader : ℕ
  off : Int
  len : ℕ
  deriving DecidableEq

/-- What `ReadAt` returns: the bytes read and the error. -/
structure Answer where
  data : Bytes
  err : Option GoError
  deriving DecidableEq

/-- What the reader does: `ReadAt` calls, and a result. -/
abbrev ReadProg (α : Type) := Prog Req Answer α

/-- The same, where the result may be an error. -/
abbrev Fallible (α : Type) := ReadProg (Except GoError α)

/-- `io.EOF`. -/
def eofError : GoError := ⟨"EOF", [], .eof⟩

/-- `r.ReadAt(p, off)` for a buffer of `n` bytes: no more than `n` are delivered. -/
def readerAt (reader : ℕ) (off : Int) (n : ℕ) : ReadProg Answer :=
  .ask ⟨reader, off, n⟩ fun a => .done ⟨a.data.take n, a.err⟩

/-- Readers that hold bytes: reader `r` delivers what is in `contents r`, with `io.EOF` where it
ends, as `bytes.Reader` does. -/
def holding (contents : ℕ → Bytes) (q : Req) : Answer :=
  if q.off < 0 then ⟨[], some ⟨"bytes.Reader.ReadAt: negative offset", [], .external⟩⟩
  else
    let data := ((contents q.reader).drop q.off.toNat).take q.len
    ⟨data, if data.length < q.len then some eofError else none⟩

theorem holding_nat (contents : ℕ → Bytes) (r off n : ℕ) :
    holding contents ⟨r, off, n⟩ = ⟨((contents r).drop off).take n,
      if (((contents r).drop off).take n).length < n then some eofError else none⟩ := by
  rw [holding, if_neg (by simp)]
  simp

/-- A read of readers that hold bytes. -/
theorem run_readerAt_holding (contents : ℕ → Bytes) (r off n : ℕ) :
    (readerAt r off n).run (holding contents) = holding contents ⟨r, off, n⟩ := by
  simp [readerAt, holding_nat]

/-- The end of `io.NewSectionReader(r, base, len)`. -/
def sectionLimit (base len : Int) : Int :=
  if base ≤ maxInt64 - len then base + len else maxInt64

/-- `io.NewSectionReader(r, base, len).ReadAt(p, off)`. -/
def sectionReadAt (r : Int → ℕ → ReadProg Answer) (base len off : Int) (n : ℕ) :
    ReadProg Answer :=
  let limit := sectionLimit base len
  if off < 0 ∨ limit - base ≤ off then .done ⟨[], some eofError⟩
  else if limit - (off + base) < n then
    (r (off + base) (limit - (off + base)).toNat).bind fun a =>
      .done ⟨a.data, some (a.err.getD eofError)⟩
  else r (off + base) n

/-! ## The image -/

/-- `disk.SuperBlock`, without the fields the reader never looks at. -/
structure SuperBlock where
  magicNumber : ℕ := 0xe0f5e1e2
  checksum : ℕ := 0
  featureCompat : ℕ := 0
  blkSizeBits : ℕ
  extSlots : ℕ := 0
  rootNid : ℕ
  buildTime : ℕ := 0
  buildTimeNs : ℕ := 0
  blocks : ℕ
  metaBlkAddr : ℕ
  xattrBlkAddr : ℕ := 0
  featureIncompat : ℕ := 0
  comprAlgs : ℕ := 0
  extraDevices : ℕ := 0
  devtSlotOff : ℕ := 0
  dirBlkBits : ℕ := 0
  xattrPrefixCount : ℕ := 0
  xattrPrefixStart : ℕ := 0
  packedNid : ℕ := 0
  ishareXattrPrefixID : ℕ := 0
  deriving DecidableEq

/-- An extra device's reader: one the caller gave, or in flatdev mode a window of the image. -/
inductive Device
  | external
  | window (start length : Int)
  deriving DecidableEq

/-- `deviceInfo`. -/
structure DeviceInfo where
  device : Device := .external
  /-- The device's readable length, zero when unknown. -/
  size : Int := 0
  mappedBlkAddr : ℕ
  blocks : ℕ
  deriving DecidableEq

/-- `image`; the readers themselves are outside. -/
structure Image where
  sb : SuperBlock
  /-- The readable length, zero when unknown. -/
  size : Int
  devices : List DeviceInfo := []
  deviceIDMask : ℕ := 0
  longPrefixes : List Bytes := []
  deriving DecidableEq

namespace Image

variable (img : Image)

/-- `blockSize`. -/
def blockSize : ℕ := 2 ^ img.sb.blkSizeBits

/-- `metaStartPos`. -/
def metaStartPos : ℕ := img.sb.metaBlkAddr * img.blockSize

/-- The offset of an inode, `metaStartPos + nid*32`. -/
def inodeStart (nid : ℕ) : ℕ := img.metaStartPos + nid * Disk.sizeInodeCompact

/-- `checkNid`. -/
def checkNid (nid : ℕ) : Except GoError Unit :=
  if (maxInt64 - Disk.sizeInodeExtended) / Disk.sizeInodeCompact < nid
      ∨ maxInt64 - Disk.sizeInodeExtended < img.inodeStart nid then
    .error (errorf "nid %d is out of range: %w" [.int nid] .corrupt)
  else if 0 < img.size ∧ img.size < img.inodeStart nid + Disk.sizeInodeCompact then
    .error (errorf "nid %d lies past the end of the %d byte image: %w"
      [.int nid, .int img.size] .corrupt)
  else .ok ()

/-- `maxChunkIndexBytes`. -/
def maxChunkIndexBytes : ℕ := 64 * 2 ^ 20

/-- `chunkIndexFits`. -/
def chunkIndexFits (off : Int) (needed : ℕ) : Bool :=
  needed ≤ maxChunkIndexBytes && 0 ≤ off && off ≤ maxInt64 - needed &&
    (img.size ≤ 0 || off + needed ≤ img.size)

/-- `chunkAddr`. -/
def chunkAddr (phys : ℕ) : Except GoError Int :=
  if maxInt64 / img.blockSize < phys then
    .error (errorf "chunk block address %d is out of range: %w" [.int phys] .corrupt)
  else .ok (phys * img.blockSize : ℕ)

/-- `blockAddr`. -/
def blockAddr (nid blk : ℕ) : Except GoError Int :=
  if maxInt64 / img.blockSize < blk then
    .error (errorf "block %#x of nid %d is past every device: %w" [.int blk, .int nid] .corrupt)
  else .ok (blk * img.blockSize : ℕ)

/-- `checkImageRange`. -/
def checkImageRange (off n : Int) : Except GoError Unit :=
  if off < 0 ∨ n < 0 ∨ maxInt64 - n < off then
    .error (errorf "data range [%d, +%d) is out of range: %w" [.int off, .int n] .corrupt)
  else if 0 < img.size ∧ img.size < off + n then
    .error (errorf "data range [%d, +%d) lies past the end of the %d byte image: %w"
      [.int off, .int n, .int img.size] .corrupt)
  else .ok ()

/-- The bytes of the primary device's address space that `d` is mapped at. -/
def mappedStart (d : DeviceInfo) : Int := (d.mappedBlkAddr * img.blockSize : ℕ)

/-- The length of that range. -/
def mappedLength (d : DeviceInfo) : Int := (d.blocks * img.blockSize : ℕ)

/-- Address `pa` of the primary device lies in the mapped range of `d`; a slot mapped at
block zero has none. -/
def mapsTo (d : DeviceInfo) (pa : Int) : Bool :=
  d.mappedBlkAddr != 0 && img.mappedStart d ≤ pa && pa < img.mappedStart d + img.mappedLength d

/-- The loop over the device table: the first device, counted from `k + 1`, that `pa` is
mapped to. -/
def findMapped (pa : Int) : ℕ → List DeviceInfo → Option (ℕ × DeviceInfo)
  | _, [] => none
  | k, d :: ds => if img.mapsTo d pa then some (k + 1, d) else findMapped pa (k + 1) ds

/-- `locateRange`. -/
def locateRange (pa n : Int) : Except GoError (ℕ × Int) :=
  if pa < 0 ∨ n < 0 ∨ maxInt64 - n < pa then
    .error (errorf "data range [%d, +%d) is out of range: %w" [.int pa, .int n] .corrupt)
  else match img.findMapped pa 0 img.devices with
    | some (k, d) =>
      if img.mappedStart d + img.mappedLength d < pa + n then
        .error (errorf "data range [%d, +%d) runs past the end of device %d's %d blocks: %w"
          [.int pa, .int n, .int k, .int d.blocks] .corrupt)
      else .ok (k, pa - img.mappedStart d)
    | none => (img.checkImageRange pa n).map fun _ => (0, pa)

/-- `locate`. -/
def locate (deviceID : ℕ) (pa : Int) : Except GoError (ℕ × Int) :=
  if 0 < deviceID then
    if img.devices.length < deviceID then
      .error (errorf "invalid device id %d: %w" [.int deviceID] .corrupt)
    else .ok (deviceID, pa)
  else match img.findMapped pa 0 img.devices with
    | some (k, d) => .ok (k, pa - img.mappedStart d)
    | none =>
      if pa < 0 ∨ 0 < img.size ∧ img.size ≤ pa then
        .error (errorf "physical address %d is outside the image: %w" [.int pa] .corrupt)
      else .ok (0, pa)

/-- `boundOnDevice`. -/
def boundOnDevice (dev : ℕ) (off n : Int) : Except GoError Unit :=
  if dev = 0 then img.checkImageRange off n
  else match img.devices[dev - 1]? with
    | none => .error (errorf "invalid device id %d: %w" [.int dev] .corrupt)
    | some d =>
      if off < 0 ∨ n < 0 ∨ maxInt64 - n < off then
        .error (errorf "data range [%d, +%d) on device %d is out of range: %w"
          [.int off, .int n, .int dev] .corrupt)
      else if 0 < d.size then
        if d.size < off + n then
          .error (errorf "data range [%d, +%d) runs past the end of device %d's %d bytes: %w"
            [.int off, .int n, .int dev, .int d.size] .corrupt)
        else .ok ()
      else if d.blocks ≠ 0 ∧ img.mappedLength d < off + n then
        .error (errorf "data range [%d, +%d) runs past the end of device %d's %d blocks: %w"
          [.int off, .int n, .int dev, .int d.blocks] .corrupt)
      else .ok ()

/-- `deviceReader(dev).ReadAt`.  A device the table lacks is an index out of range in Go, where
`locate` and `locateRange` never lead. -/
def deviceReader (dev : ℕ) (off : Int) (n : ℕ) : ReadProg Answer :=
  if dev = 0 then readerAt 0 off n
  else match img.devices[dev - 1]? with
    | some ⟨.window start length, _, _, _⟩ => sectionReadAt (readerAt 0) start length off n
    | _ => readerAt dev off n

/-! ## What an accepted address means -/

variable {img} {nid dev k : ℕ} {off pa n : Int} {d : DeviceInfo}

theorem checkNid_ok (h : img.checkNid nid = .ok ()) :
    (img.inodeStart nid : Int) ≤ maxInt64 - Disk.sizeInodeExtended ∧
      (0 < img.size → img.inodeStart nid + Disk.sizeInodeCompact ≤ img.size) := by
  unfold checkNid at h
  split_ifs at h with h₁ h₂
  push Not at h₁ h₂
  exact ⟨h₁.2, h₂⟩

theorem checkImageRange_ok (h : img.checkImageRange off n = .ok ()) :
    0 ≤ off ∧ 0 ≤ n ∧ (0 < img.size → off + n ≤ img.size) := by
  unfold checkImageRange at h
  split_ifs at h with h₁ h₂
  push Not at h₁ h₂
  exact ⟨h₁.1, h₁.2.1, h₂⟩

/-- The loop stops at a device that is in the table and maps the address. -/
theorem findMapped_some {pa : Int} {j : ℕ} {ds : List DeviceInfo}
    (h : img.findMapped pa j ds = some (k, d)) :
    j < k ∧ ds[k - j - 1]? = some d ∧ img.mapsTo d pa = true := by
  induction ds generalizing j with
  | nil => cases h
  | cons e ds ih =>
    rw [findMapped] at h
    split_ifs at h with he
    · cases h
      exact ⟨by omega, by simp, he⟩
    · obtain ⟨hj, hd, hm⟩ := ih h
      refine ⟨by omega, ?_, hm⟩
      rw [show k - j - 1 = (k - (j + 1) - 1) + 1 by omega, List.getElem?_cons_succ]
      exact hd

theorem mapsTo_iff : img.mapsTo d pa = true ↔ d.mappedBlkAddr ≠ 0 ∧ img.mappedStart d ≤ pa ∧
    pa < img.mappedStart d + img.mappedLength d := by
  simp [mapsTo, and_assoc]

/-- A placed range is inside the image, or inside the mapped range of the device it is on. -/
theorem locateRange_ok (h : img.locateRange pa n = .ok (dev, off)) :
    0 ≤ off ∧ 0 ≤ n ∧
      ((dev = 0 ∧ off = pa ∧ (0 < img.size → off + n ≤ img.size)) ∨
        (0 < dev ∧ ∃ d, img.devices[dev - 1]? = some d ∧ off = pa - img.mappedStart d ∧
          off + n ≤ img.mappedLength d)) := by
  unfold locateRange at h
  split_ifs at h with hr
  push Not at hr
  cases hf : img.findMapped pa 0 img.devices with
  | none =>
    rw [hf] at h
    cases hc : img.checkImageRange pa n with
    | error e => simp [hc, Except.map] at h
    | ok u =>
      simp only [hc, Except.map, Except.ok.injEq, Prod.mk.injEq] at h
      obtain ⟨rfl, rfl⟩ := h
      obtain ⟨h0, hn, hs⟩ := checkImageRange_ok hc
      exact ⟨h0, hn, .inl ⟨rfl, rfl, hs⟩⟩
  | some kd =>
    obtain ⟨k, d⟩ := kd
    rw [hf] at h
    obtain ⟨hk, hd, hm⟩ := findMapped_some hf
    obtain ⟨-, hlo, -⟩ := mapsTo_iff.1 hm
    dsimp only at h
    split_ifs at h with hlen
    cases h
    exact ⟨by omega, hr.2.1, .inr ⟨hk, d, hd, rfl, by omega⟩⟩

theorem boundOnDevice_zero : img.boundOnDevice 0 off n = img.checkImageRange off n := rfl

/-! ## What a read asks of the image -/

variable (img) in
/-- A request that, when it is one to the image, starts inside it. -/
def InImage (q : Req) : Prop := q.reader = 0 → 0 ≤ q.off ∧ q.off ≤ img.size

instance : DecidablePred img.InImage := fun q =>
  inferInstanceAs (Decidable (q.reader = 0 → 0 ≤ q.off ∧ q.off ≤ img.size))

variable (img) in
/-- The windows of flatdev mode end with the image. -/
def WindowsFit : Prop := ∀ d ∈ img.devices, ∀ start length, d.device = .window start length →
  0 ≤ start ∧ (0 < length → start + length ≤ img.size)

theorem inImage_of {r m : ℕ} (h : 0 ≤ off) (hs : off ≤ img.size) : img.InImage ⟨r, off, m⟩ :=
  fun _ => ⟨h, hs⟩

variable {o : Req → Answer}

theorem readerAt_asks {P : Req → Prop} {r m : ℕ} (h : P ⟨r, off, m⟩) :
    (readerAt r off m).Asks o P :=
  Prog.asks_ask.2 ⟨h, Prog.asks_done⟩

/-- A section of a reader asks for offsets inside the section only. -/
theorem sectionReadAt_asks {P : Req → Prop} {r : Int → ℕ → ReadProg Answer} {base len : Int} {m : ℕ}
    (h : 0 ≤ off → off + base < sectionLimit base len → ∀ j, (r (off + base) j).Asks o P) :
    (sectionReadAt r base len off m).Asks o P := by
  unfold sectionReadAt
  dsimp only
  split_ifs with h₁ h₂
  · exact Prog.asks_done
  · exact Prog.asks_bind (h (by omega) (by omega) _) Prog.asks_done
  · exact h (by omega) (by omega) _

/-- Reading a device asks the image for nothing outside it. -/
theorem deviceReader_asks {m : ℕ} (hw : img.WindowsFit)
    (h : dev = 0 → 0 ≤ off ∧ off ≤ img.size) : (img.deviceReader dev off m).Asks o img.InImage := by
  unfold deviceReader
  split_ifs with hdev
  · exact readerAt_asks fun _ => h hdev
  · split
    · next start length _ _ _ hd =>
      obtain ⟨hs, hl⟩ := hw _ (List.mem_of_getElem? hd) start length rfl
      refine sectionReadAt_asks fun h0 hlim j => readerAt_asks ?_
      have hlen : off + start < start + length := by
        unfold sectionLimit at hlim
        split_ifs at hlim <;> omega
      have hend := hl (by omega)
      exact inImage_of (by omega) (by omega)
    · exact readerAt_asks fun h0 => absurd h0 hdev

end Image

end Erofs
