import Erofs.Reader.Mapped

/-!
# The two ways to read a file

`Read`, `WriteTo`, `ReadFile` and a full copy take the section `openDirect` offers for a file whose
data is one run, and go block by block otherwise.  The section is placed once, at the run's first
address, and each block is placed for itself.  Where the mapped ranges of the device table split
the run, the two part.

The main results:

* `spot_sameHome_iff` — a byte has one home for two looks into the device table exactly when the
  devices are windows of the image or the table says the same both times;
* `openDirect_run`, `openDirect_lookedUp` — the section and every block are placed at addresses of
  one run, the one looked up for the first byte and the others for themselves;
* `direct_agrees_iff` — the two ways give the same bytes, whatever the devices hold, exactly when
  the table says the same of every block as of the first byte, up to room and flatdev mode.
-/

namespace Erofs

open GoPath LittleEndian Oracle

namespace Image

variable {img : Image} {c : ℕ → Bytes} {extra dev dev' deviceID n pos : ℕ} {size₀ pa off off' : Int}
  {ino : Inode} {s : Section} {buf : Bytes}

/-! ## Homes -/

theorem Opened.windowsNat (h : img.Opened extra size₀) : img.WindowsNat := by
  intro d hd start length hdev
  obtain ⟨-, hext⟩ | ⟨-, hwin⟩ := h.devices
  · rw [hext d hd] at hdev
    cases hdev
  · rw [hwin d hd] at hdev
    cases hdev
    exact Int.natCast_nonneg _

theorem home_add (dev : ℕ) (off k : Int) :
    img.home dev (off + k) = ((img.home dev off).1, (img.home dev off).2 + k) := by
  unfold home
  split_ifs
  · rfl
  · split
    · simp only [Prod.mk.injEq, true_and]
      omega
    · rfl

theorem home_nonneg (hw : img.WindowsNat) (hoff : 0 ≤ off) : 0 ≤ (img.home dev off).2 := by
  unfold home
  split_ifs
  · exact hoff
  · split
    · next hd =>
      have := hw _ (List.mem_of_getElem? hd) _ _ rfl
      dsimp only
      omega
    · exact hoff

/-- With the caller's devices, every offset is its own home. -/
theorem home_external (h : ∀ d ∈ img.devices, d.device = .external) :
    img.home dev off = (dev, off) := by
  unfold home
  split_ifs with hz
  · rw [hz]
  · split
    · next hd =>
      have := h _ (List.mem_of_getElem? hd)
      cases this
    · rfl

/-- In flatdev mode the home of an address of the primary device is that address of the image. -/
theorem home_window (h : ∀ d ∈ img.devices, d.device = flatWindow img.sb size₀ d.mappedBlkAddr)
    (hs : img.Sits 0 pa dev off) : img.home dev off = (0, pa) := by
  obtain ⟨rfl, rfl⟩ | ⟨-, hpos, ⟨device, size, mapped, blocks⟩, hd, rfl⟩ := hs
  · rfl
  · have hdev := h _ (List.mem_of_getElem? hd)
    simp only [flatWindow] at hdev
    unfold home
    rw [if_neg hpos.ne', hd, hdev]
    simp only [mappedStart, blockSize, Prod.mk.injEq, true_and]
    omega

/-- Two addresses of one device that are kept by one reader are as far apart there. -/
theorem sits_reader (h : img.Opened extra size₀) {k : Int} (hs : img.Sits deviceID pa dev off)
    (hs' : img.Sits deviceID (pa + k) dev' off')
    (hr : (img.home dev off).1 = (img.home dev' off').1) :
    img.home dev' off' = img.home dev (off + k) := by
  obtain ⟨-, hext⟩ | ⟨-, hwin⟩ := h.devices
  · rw [home_external hext, home_external hext] at hr
    obtain rfl : dev = dev' := hr
    suffices hoff : off' = off + k by rw [hoff]
    obtain ⟨hd, ho⟩ | ⟨hz, hpos, d, hd, ho⟩ := hs
    · obtain ⟨-, ho'⟩ | ⟨hz', hpos', -⟩ := hs'
      · omega
      · omega
    · obtain ⟨hd', -⟩ | ⟨-, -, d', hd', ho'⟩ := hs'
      · omega
      · rw [hd] at hd'
        cases hd'
        omega
  · by_cases hid : deviceID = 0
    · subst hid
      rw [home_window hwin hs', home_window hwin (hs.add k)]
    · obtain ⟨rfl, rfl⟩ | ⟨hz, -⟩ := hs
      · obtain ⟨rfl, rfl⟩ | ⟨hz, -⟩ := hs'
        · rfl
        · exact absurd hz hid
      · exact absurd hz hid

/-- Where the windows of flatdev mode end, `size₀` being the length the image's reader gives. -/
def windowLimit (size₀ : Int) : Int := if 0 < size₀ then min size₀ maxInt64 else maxInt64

theorem window_room_iff {sb : SuperBlock} {mapped : ℕ} {start length : Int} (hn : 0 < n)
    (hoff : 0 ≤ off) (hw : flatWindow sb size₀ mapped = .window start length) :
    off + n ≤ sectionLimit start length - start ↔ start + off + n ≤ windowLimit size₀ := by
  unfold flatWindow at hw
  simp only [Device.window.injEq] at hw
  obtain ⟨rfl, rfl⟩ := hw
  generalize ((mapped * 2 ^ sb.blkSizeBits : ℕ) : Int) = start
  unfold sectionLimit windowLimit
  generalize maxInt64 = top
  split_ifs <;> omega

/-- Whether a device has room for a read depends on the read's home alone. -/
theorem room_iff (h : img.Opened extra size₀) (hn : 0 < n) (hs : img.Sound dev off n) :
    img.Room dev off n ↔ (extra = 0 → (img.home dev off).2 + n ≤ windowLimit size₀) := by
  obtain ⟨hx, hext⟩ | ⟨hx, hwin⟩ := h.devices
  · have hroom : img.Room dev off n := by
      unfold Room
      split
      · next hd =>
        have := hext _ (List.mem_of_getElem? hd)
        cases this
      · trivial
    simp [hroom, hx.ne']
  · simp only [hx, true_implies]
    by_cases hz : dev = 0
    · subst hz
      have hroom : img.Room 0 off n := by
        unfold Room
        split
        · exact .inl rfl
        · trivial
      have hend : off + n ≤ windowLimit size₀ := by
        have hmax := hs.end_le
        have hsize := h.size
        unfold windowLimit
        split_ifs with hpos
        · rw [if_pos hpos] at hsize
          have := hs.inside rfl (by omega)
          omega
        · exact hmax
      exact ⟨fun _ => hend, fun _ => hroom⟩
    · have hlt : dev - 1 < img.devices.length := by have := hs.device; omega
      have hd := List.getElem?_eq_getElem hlt
      have hdev := hwin _ (List.getElem_mem hlt)
      unfold Room home
      rw [if_neg hz, hd]
      generalize img.devices[dev - 1] = d at hdev
      obtain ⟨device, size, mapped, blocks⟩ := d
      obtain ⟨start, length, hw⟩ : ∃ start length, device = .window start length := ⟨_, _, hdev⟩
      subst hw
      simp only [hz, false_or]
      exact window_room_iff hn hs.nonneg hdev.symm

/-! ## One address, looked up twice -/

/-- Two places stand for the same byte of the same reader, or are both holes. -/
def Place.SameHome (img : Image) : Place → Place → Prop
  | .hole, .hole => True
  | .data dev off, .data dev' off' => img.home dev off = img.home dev' off'
  | _, _ => False

/-- With the caller's devices, two looks into the table lead to one reader just when they lead to
the same device. -/
theorem mappedPlace_reader_iff {pa' : Int} :
    (img.mappedPlace pa).1 = (img.mappedPlace pa').1 ↔
      img.firstMapped pa = img.firstMapped pa' := by
  unfold mappedPlace
  cases hf : img.firstMapped pa with
  | none =>
    cases hf' : img.firstMapped pa' with
    | none => simp
    | some kd =>
      have := (firstMapped_some hf').1
      simp
      omega
  | some kd =>
    obtain ⟨k, d⟩ := kd
    obtain ⟨hk, hd, -⟩ := firstMapped_some hf
    cases hf' : img.firstMapped pa' with
    | none =>
      simp
      omega
    | some kd' =>
      obtain ⟨k', d'⟩ := kd'
      obtain ⟨-, hd', -⟩ := firstMapped_some hf'
      simp only [Option.some.injEq, Prod.mk.injEq]
      refine ⟨fun hkk => ⟨hkk, ?_⟩, fun h => h.1⟩
      subst hkk
      rw [hd] at hd'
      exact Option.some.inj hd'

/-- Where the table is asked for one byte of a run, it is asked for the others. -/
theorem tableAddr_run {b : Bytes} {q q' : ℕ}
    (haddr : img.fileAddr b ino pos = (img.fileAddr b ino q).add (pos - q))
    (haddr' : img.fileAddr b ino pos = (img.fileAddr b ino q').add (pos - q'))
    (htail : img.InTail ino q ↔ img.InTail ino q') (h : img.tableAddr b ino q = some pa) :
    ∃ pa', img.tableAddr b ino q' = some pa' ∧
      pa + (pos - q : ℕ) = pa' + (pos - q' : ℕ) := by
  obtain ⟨hbyte, hnot⟩ := tableAddr_some h
  rw [haddr, hbyte] at haddr'
  cases hq' : img.fileAddr b ino q' with
  | hole =>
    rw [hq'] at haddr'
    cases haddr'
  | byte dev pa' =>
    rw [hq'] at haddr'
    obtain ⟨rfl, hsum⟩ := Addr.byte.inj haddr'
    exact ⟨pa', tableAddr_byte hq' (mt htail.2 hnot), hsum⟩

/-- **Where the table matters.**  A byte has one home for two looks into the table, at earlier bytes
`q` and `q'` of its run, just when the devices are windows of the image or the table says the same
of both. -/
theorem spot_sameHome_iff (h : img.Opened extra size₀) {b : Bytes} {q q' : ℕ}
    (haddr : img.fileAddr b ino pos = (img.fileAddr b ino q).add (pos - q))
    (haddr' : img.fileAddr b ino pos = (img.fileAddr b ino q').add (pos - q'))
    (htail : img.InTail ino q ↔ img.InTail ino q') :
    (img.spot b ino q pos).SameHome img (img.spot b ino q' pos) ↔
      extra = 0 ∨ img.tableDevice b ino q = img.tableDevice b ino q' := by
  cases hq : img.tableAddr b ino q with
  | none =>
    have hq' : img.tableAddr b ino q' = none := by
      by_contra hne
      obtain ⟨pa', hpa'⟩ := Option.ne_none_iff_exists'.1 hne
      obtain ⟨pa, hpa, -⟩ := tableAddr_run haddr' haddr htail.symm hpa'
      rw [hq] at hpa
      cases hpa
    have hsame : img.spot b ino q pos = img.spot b ino q' pos := by
      unfold spot
      rw [hq, hq']
      dsimp only
      rw [← haddr, ← haddr']
    rw [hsame, tableDevice, tableDevice, hq, hq']
    simp only [or_true, iff_true]
    cases img.spot b ino q' pos <;> trivial
  | some pa =>
    obtain ⟨pa', hq', hsum⟩ := tableAddr_run haddr haddr' htail hq
    have hspot : ∀ {r : ℕ} {a : Int}, img.tableAddr b ino r = some a → img.spot b ino r pos =
        .data (img.mappedPlace a).1 ((img.mappedPlace a).2 + (pos - r : ℕ)) := fun hr => by
      unfold spot
      rw [hr]
    rw [hspot hq, hspot hq', tableDevice, tableDevice, hq, hq', Option.map_some, Option.map_some,
      Option.some.injEq, ← mappedPlace_reader_iff, Place.SameHome]
    obtain ⟨hx, hext⟩ | ⟨hx, hwin⟩ := h.devices
    · rw [home_external hext, home_external hext, Prod.ext_iff]
      simp only [hx.ne', false_or]
      refine ⟨fun hh => hh.1, fun hr => ⟨hr, ?_⟩⟩
      have hfirst := mappedPlace_reader_iff.1 hr
      unfold mappedPlace
      rw [hfirst]
      cases img.firstMapped pa' with
      | none => exact hsum
      | some kd =>
        dsimp only
        omega
    · have hhome : ∀ a k : Int, img.home (img.mappedPlace a).1 ((img.mappedPlace a).2 + k) =
          (0, a + k) := fun a k => home_window hwin ((mappedPlace_sits a).add k)
      rw [hhome, hhome, hsum]
      simp [hx]

/-! ## The section -/

/-- A read of `n` bytes at `pos` of a section gives `buf`, all of them. -/
def SectionGives (img : Image) (c : ℕ → Bytes) (s : Section) (pos n : ℕ) (buf : Bytes) : Prop :=
  ((img.readSection s pos n).run (holding c)).data = buf ∧ buf.length = n

/-- What `openDirect` guarantees of the section: it is at address `addr` of device `deviceID`, and
the bytes of the file are one run from there. -/
structure RunOf (img : Image) (b : Bytes) (ino : Inode) (s : Section) (deviceID : ℕ) (addr : Int) :
    Prop where
  len : s.len = ino.size
  sits : img.Sits deviceID addr s.dev s.base
  sound : img.Sound s.dev s.base ino.size
  addrs : ∀ pos < ino.size, img.fileAddr b ino pos = .byte deviceID (addr + pos)

/-- The block path places every window of the file at an address of the run. -/
theorem RunOf.blocks {b : Bytes} {addr : Int} {p : Place} (h : img.RunOf b ino s deviceID addr)
    (hpos : pos < ino.size) (hp : img.blockPlace b ino pos = some p) :
    ∃ dev off, p = .data dev off ∧ img.Sits deviceID (addr + pos) dev off ∧
      img.Sound dev off (img.blockLen ino.size pos) := by
  obtain ⟨hsits, hsound⟩ := blockPlace_sits hp
  rw [h.addrs pos hpos] at hsits
  cases p with
  | hole => exact hsits.elim
  | data dev off => exact ⟨dev, off, rfl, hsits, hsound⟩

/-- Inside its length a section is its device. -/
theorem sectionGives_iff (hs : img.Sound s.dev s.base s.len) (hn : 0 < n) (hpos : pos + n ≤ s.len) :
    img.SectionGives c s pos n buf ↔ img.Gives c s.dev (s.base + pos) n buf := by
  have hlimit : sectionLimit s.base s.len = s.base + s.len := by
    have := hs.end_le
    unfold sectionLimit
    rw [if_pos (by omega)]
  unfold SectionGives Gives readSection sectionReadAt
  dsimp only
  rw [hlimit, if_neg (by omega), if_neg (by omega), add_comm (pos : Int) s.base]

theorem openPlain_run {b : Bytes} (hlay : ino.inodeLayout = .flatPlain)
    (h : img.openPlain ino = some s) :
    img.RunOf b ino s 0 (ino.startBlock * img.blockSize : ℕ) := by
  unfold openPlain at h
  split_ifs at h with hnull
  cases hl : img.locateStart ino ino.size with
  | error e =>
    rw [hl] at h
    cases h
  | ok q =>
    obtain ⟨dev, off⟩ := q
    rw [hl] at h
    cases h
    have hloc : img.locateRange (ino.startBlock * img.blockSize : ℕ) ino.size = .ok (dev, off) := by
      unfold locateStart blockAddr at hl
      split_ifs at hl
      exact hl
    obtain ⟨hsits, hsound⟩ := locateRange_sits hloc
    refine ⟨rfl, hsits, hsound, fun pos hpos => ?_⟩
    unfold fileAddr
    simp only [hlay, if_neg hnull]

theorem openInline_run {b : Bytes} (hlay : ino.inodeLayout = .flatInline)
    (h : img.openInline ino = some s) : img.RunOf b ino s 0 (img.trailingAddr ino) := by
  unfold openInline at h
  dsimp only at h
  generalize haddr : img.trailingAddr ino = addr at *
  split_ifs at h with hbig
  cases hc : img.checkImageRange addr ino.size with
  | error e =>
    rw [hc] at h
    cases h
  | ok u =>
    rw [hc] at h
    cases h
    refine ⟨rfl, .inl ⟨rfl, rfl⟩, checkImageRange_sound hc, fun pos hpos => ?_⟩
    push Not at hbig
    have hzero : pos / img.blockSize * img.blockSize = 0 := by
      rw [Nat.div_eq_of_lt (by omega), Nat.zero_mul]
    unfold fileAddr
    simp only [hlay, hzero, haddr, Nat.zero_add, Nat.sub_zero, if_pos hbig.1]

theorem followOn_iff {e : ChunkEntry} {per i : ℕ} {es : List (Option ChunkEntry)} :
    followOn e per i es = true ↔
      ∀ j < es.length, es[j]? = some (some ⟨e.device, e.block + (i + j) * per⟩) := by
  induction es generalizing i with
  | nil => simp [followOn]
  | cons x es ih =>
    rw [followOn, Bool.and_eq_true, beq_iff_eq, ih]
    constructor
    · rintro ⟨rfl, hrest⟩ j hj
      cases j with
      | zero => rfl
      | succ j =>
        rw [List.getElem?_cons_succ, hrest j (by simpa using hj)]
        rw [show i + 1 + j = i + (j + 1) by omega]
    · intro hall
      refine ⟨Option.some.inj (hall 0 (by simp)), fun j hj => ?_⟩
      have := hall (j + 1) (by simpa using hj)
      rwa [List.getElem?_cons_succ, show i + (j + 1) = i + 1 + j by omega] at this

/-- A map is one run just when every chunk follows on the first. -/
theorem oneRun_iff {e : ChunkEntry} {per : ℕ} {es : List (Option ChunkEntry)} :
    oneRun per es = some e ↔ 0 < es.length ∧
      ∀ j < es.length, es[j]? = some (some ⟨e.device, e.block + j * per⟩) := by
  match es with
  | [] => simp [oneRun]
  | none :: es =>
    simp only [oneRun, reduceCtorEq, List.length_cons, false_iff, not_and]
    intro _ hall
    have := hall 0 (by omega)
    simp at this
  | some x :: es =>
    rw [oneRun]
    constructor
    · intro h
      split_ifs at h with hf
      cases h
      refine ⟨by simp, fun j hj => ?_⟩
      cases j with
      | zero => simp
      | succ j =>
        rw [List.getElem?_cons_succ, followOn_iff.1 hf j (by simpa using hj), Nat.add_comm 1 j]
    · rintro ⟨-, hall⟩
      obtain rfl : x = e := by
        have := hall 0 (by simp)
        simpa using this
      refine if_pos (followOn_iff.2 fun j hj => ?_)
      have := hall (j + 1) (by simpa using hj)
      rwa [List.getElem?_cons_succ, Nat.add_comm j 1] at this

/-- The chunks of a file are one run from `e` on. -/
def ChunkRun (img : Image) (b : Bytes) (ino : Inode) (e : ChunkEntry) : Prop :=
  ∀ i < img.chunkCount ino,
    img.decodeEntry ino (held b (img.entryPos ino i).toNat (chunkUnit ino)) =
      some ⟨e.device, e.block + i * 2 ^ (ino.chunkFormat &&& 0x1f)⟩

section ChunkRun

variable {b : Bytes} {e : ChunkEntry} (hrun : img.ChunkRun b ino e)

include hrun

theorem ChunkRun.fileAddr (hlay : ino.inodeLayout = .chunkBased) (hpos : pos < ino.size) :
    img.fileAddr b ino pos = .byte e.device ((e.block * img.blockSize : ℕ) + pos) := by
  have hle := Nat.div_mul_le_self pos (2 ^ img.chunkBits ino)
  rw [fileAddr_entry hlay, chunkEntry, hrun _ (img.chunk_lt hpos), Option.elim_some, Nat.add_mul,
    Nat.mul_assoc, ← chunk_blocks]
  simp only [Addr.byte.injEq, true_and]
  generalize pos / 2 ^ img.chunkBits ino * 2 ^ img.chunkBits ino = first at *
  omega

theorem ChunkRun.block_lt (hsize : 0 < ino.size) : e.block < 2 ^ 32 := by
  have hfirst := hrun 0 (lt_of_le_of_lt (Nat.zero_le _) (img.chunk_lt hsize))
  rw [Nat.zero_mul, Nat.add_zero] at hfirst
  exact decodeEntry_block_lt hfirst

/-- A run of chunks ends far from the end of the addresses. -/
theorem ChunkRun.end_lt (hbits : img.sb.blkSizeBits ≤ 16) (hlay : ino.inodeLayout = .chunkBased)
    (hsize : 0 < ino.size) :
    ((e.block * img.blockSize : ℕ) : Int) + ino.size ≤ 2 ^ 48 + 2 ^ 47 := by
  have hlast := (chunk_addr_le hbits hlay
    (hrun.fileAddr hlay (by omega : ino.size - 1 < ino.size))).2
  generalize e.block * img.blockSize = addr at *
  omega

end ChunkRun

theorem runSection_ok {e : ChunkEntry} (h : img.runSection ino e = some s) :
    ∃ addr, img.chunkAddr e.block = .ok addr ∧ s.len = ino.size ∧
      img.Sits e.device addr s.dev s.base ∧ img.Sound s.dev s.base ino.size := by
  unfold runSection at h
  cases haddr : img.chunkAddr e.block with
  | error err => rw [haddr] at h; cases h
  | ok addr =>
    rw [haddr] at h
    dsimp only at h
    cases hloc : img.locate e.device addr with
    | error err => rw [hloc] at h; cases h
    | ok q =>
      obtain ⟨dev, off⟩ := q
      rw [hloc] at h
      dsimp only at h
      cases hb : img.boundOnDevice dev off ino.size with
      | error err => rw [hb] at h; cases h
      | ok u =>
        rw [hb] at h
        cases h
        obtain ⟨hsits, hdev⟩ := locate_sits hloc
        exact ⟨addr, rfl, rfl, hsits, boundOnDevice_sound hdev hb⟩

/-- A run of chunks has a section just when there is room for it. -/
theorem runSection_iff {e : ChunkEntry}
    (hbits : img.sb.blkSizeBits ≤ 16) (hsize : 0 < ino.size) (hblock : e.block < 2 ^ 32)
    (htop : ((e.block * img.blockSize : ℕ) : Int) + ino.size ≤ maxInt64) :
    img.runSection ino e = some s ↔
      img.HasRoom (img.addrPlace e.device (e.block * img.blockSize : ℕ)).1
        (img.addrPlace e.device (e.block * img.blockSize : ℕ)).2 ino.size ∧
      s = ⟨(img.addrPlace e.device (e.block * img.blockSize : ℕ)).1,
        (img.addrPlace e.device (e.block * img.blockSize : ℕ)).2, ino.size⟩ := by
  have hspec := fun p' => @locate_bound_iff img ino.size (e.block * img.blockSize : ℕ) e.device
    (Int.natCast_nonneg _) hsize htop p'
  unfold runSection
  rw [chunkAddr_of_lt hbits hblock]
  dsimp only
  generalize ((e.block * img.blockSize : ℕ) : Int) = addr at *
  cases hl : img.locate e.device addr with
  | error err =>
    simp only [reduceCtorEq, false_iff, not_and]
    intro hroom
    have := ((hspec _).2 ⟨rfl, hroom⟩).1
    rw [hl] at this
    cases this
  | ok q =>
    rw [← locate_place hl]
    obtain ⟨dev, off⟩ := q
    dsimp only
    cases hb : img.boundOnDevice dev off ino.size with
    | error err =>
      simp only [reduceCtorEq, false_iff, not_and]
      intro hroom
      have := ((hspec _).2 ⟨locate_place hl, hroom⟩).2
      rw [hb] at this
      cases this
    | ok u =>
      have hroom := ((hspec _).1 ⟨hl, hb⟩).2
      simp only [Option.some.injEq, hroom, true_and, eq_comm]

/-- The chunk map of a file is inside the image, and can be read. -/
def MapRead (img : Image) (c : ℕ → Bytes) (ino : Inode) : Prop :=
  img.chunkIndexFits (img.chunkMapStart ino) (img.chunkCount ino * chunkUnit ino) = true ∧
    ((readerAt 0 (img.chunkMapStart ino) (img.chunkCount ino * chunkUnit ino)).run
      (holding c)).err = none

theorem openChunks_map (h : (img.openChunks ino).run (holding c) = some s) :
    img.MapRead c ino ∧ ino.chunkIndexed = true ∧ ino.chunkUnsupported = false := by
  unfold openChunks at h
  dsimp only at h
  split_ifs at h with hcond
  · cases h
  simp only [Bool.or_eq_true, Bool.not_eq_true', not_or, Bool.not_eq_false,
    Bool.not_eq_true] at hcond
  obtain ⟨⟨hindexed, hformat⟩, hfits⟩ := hcond
  have hunit : chunkUnit ino = Disk.sizeChunkIndex := by rw [chunkUnit, if_pos hindexed]; rfl
  rw [← hunit] at h hfits
  rw [Prog.run_bind, Prog.run_done] at h
  refine ⟨⟨hfits, ?_⟩, hindexed, hformat⟩
  cases herr : ((readerAt 0 (img.chunkMapStart ino) (img.chunkCount ino * chunkUnit ino)).run
      (holding c)).err with
  | none => rfl
  | some e =>
    rw [herr] at h
    cases h

/-- With a map that can be read, a section is that of a run of chunks. -/
theorem openChunks_iff (hmap : img.MapRead c ino) (hindexed : ino.chunkIndexed = true)
    (hformat : ino.chunkUnsupported = false) (hsize : 0 < ino.size) :
    (img.openChunks ino).run (holding c) = some s ↔
      ∃ e, img.ChunkRun (c 0) ino e ∧ img.runSection ino e = some s := by
  obtain ⟨hfits, herr⟩ := hmap
  have hunit : chunkUnit ino = Disk.sizeChunkIndex := by rw [chunkUnit, if_pos hindexed]; rfl
  have hcount : 0 < img.chunkCount ino := by
    rw [chunkCount, if_neg hsize.ne']
    exact Nat.succ_pos _
  have hlen : ∀ map, (img.chunkEntries ino (img.chunkCount ino) map).length =
      img.chunkCount ino := by simp [chunkEntries]
  unfold openChunks
  dsimp only
  rw [← hunit, hindexed, hformat, hfits]
  simp only [Bool.not_true, Bool.or_self, Bool.false_eq_true, if_false, Prog.run_bind,
    Prog.run_done, herr, Option.bind_eq_some_iff, oneRun_iff, hlen, hcount, true_and]
  refine exists_congr fun e => and_congr_left fun _ => forall_congr' fun i => ?_
  refine imp_congr_right fun hi => ?_
  rw [(map_entry hfits herr hi).2, Option.some.injEq]

theorem openChunks_run (hlay : ino.inodeLayout = .chunkBased) (hsize : 0 < ino.size)
    (h : (img.openChunks ino).run (holding c) = some s) :
    ∃ deviceID addr, img.RunOf (c 0) ino s deviceID addr := by
  obtain ⟨hmap, hindexed, hformat⟩ := openChunks_map h
  obtain ⟨e, hrun, hsec⟩ := (openChunks_iff hmap hindexed hformat hsize).1 h
  obtain ⟨addr, haddr, hlen, hsits, hsound⟩ := runSection_ok hsec
  refine ⟨e.device, addr, hlen, hsits, hsound, fun pos hpos => ?_⟩
  rw [hrun.fileAddr hlay hpos, chunkAddr_ok haddr]

/-- The section `openDirect` returns and the blocks of the file are one run. -/
theorem openDirect_run (h : (img.openDirect ino).run (holding c) = some s) :
    ∃ deviceID addr, img.RunOf (c 0) ino s deviceID addr := by
  unfold openDirect at h
  split_ifs at h with hsize
  · cases h
  · cases hlay : ino.inodeLayout with
    | flatPlain => rw [hlay] at h; exact ⟨0, _, openPlain_run hlay h⟩
    | flatInline => rw [hlay] at h; exact ⟨0, _, openInline_run hlay h⟩
    | chunkBased => rw [hlay] at h; exact openChunks_run hlay (Nat.pos_of_ne_zero hsize) h
    | compressedFull => rw [hlay] at h; cases h
    | compressedCompact => rw [hlay] at h; cases h
    | unknown n => rw [hlay] at h; cases h

/-- What `openDirect` guarantees of a section, in terms of the device table: it is looked up for the
first byte of the file and there is room for all of it there, and each block is looked up for
itself. -/
structure LookedUp (img : Image) (b : Bytes) (ino : Inode) (s : Section) : Prop where
  spot : ∀ pos : ℕ, Place.data s.dev (s.base + pos) = img.spot b ino 0 pos
  tail : ∀ pos < ino.size, img.InTail ino pos ↔ img.InTail ino 0
  accepts : img.Accepts b ino 0 ino.size
  top : ∀ pa, img.tableAddr b ino 0 = some pa → pa + ino.size ≤ maxInt64
  blocks : ∀ q < ino.size, q % img.blockSize = 0 → ∀ p, img.blockPlace b ino q = some p ↔
    img.Accepts b ino q (img.blockLen ino.size q) ∧ p = img.spot b ino q q

theorem openPlain_lookedUp {b : Bytes} (hlay : ino.inodeLayout = .flatPlain)
    (h : img.openPlain ino = some s) : img.LookedUp b ino s := by
  have htail : ∀ pos, ¬ img.InTail ino pos := fun pos => not_inTail (by simp [hlay])
  unfold openPlain at h
  split_ifs at h with hnull
  have haddr : ∀ pos : ℕ, img.fileAddr b ino pos =
      .byte 0 ((ino.startBlock * img.blockSize : ℕ) + pos) := by
    intro pos
    unfold fileAddr
    simp only [hlay, if_neg hnull]
  have htable : ∀ pos : ℕ, img.tableAddr b ino pos =
      some (((ino.startBlock * img.blockSize : ℕ) : Int) + pos) :=
    fun pos => tableAddr_byte (haddr pos) (htail pos)
  have hzero := htable 0
  rw [Nat.cast_zero, add_zero] at hzero
  cases hl : img.locateStart ino ino.size with
  | error e =>
    rw [hl] at h
    cases h
  | ok q =>
    rw [hl] at h
    cases h
    have hloc : img.locateRange (ino.startBlock * img.blockSize : ℕ) ino.size = .ok q := by
      unfold locateStart blockAddr at hl
      split_ifs at hl
      exact hl
    obtain ⟨haccepts, hspot⟩ := locateRange_accepts (by rw [hlay]; decide) hzero hloc
    have htop := (locateRange_iff.1 hloc).2.1
    refine ⟨fun pos => ?_, fun pos _ => iff_of_false (htail pos) (htail 0), haccepts,
      fun pa hpa => ?_, fun q hq hstart p => ?_⟩
    · rw [← Nat.zero_add pos, ← spot_add, hspot]
      simp [Place.add]
    · rw [hzero] at hpa
      cases hpa
      exact htop
    · have hle := img.blockLen_le hq
      have hend : ((ino.startBlock * img.blockSize : ℕ) : Int) + q + img.blockLen ino.size q ≤
          maxInt64 := by
        generalize ino.startBlock * img.blockSize = addr at htop ⊢
        omega
      simp only [blockPlace, hlay, if_neg hnull]
      rw [flatPlace_iff hstart (by rw [hlay]; decide) (htable q)]
      simp only [hend, true_and]

theorem openInline_lookedUp {b : Bytes} (hlay : ino.inodeLayout = .flatInline)
    (hsize : 0 < ino.size) (h : img.openInline ino = some s) : img.LookedUp b ino s := by
  unfold openInline at h
  dsimp only at h
  split_ifs at h with hbig
  push Not at hbig
  obtain ⟨hone, hcross⟩ := hbig
  have htail : ∀ pos < ino.size, img.InTail ino pos := by
    intro pos hpos
    refine ⟨hlay, ?_⟩
    rw [blockStart, Nat.div_eq_of_lt (by omega), Nat.zero_mul, Nat.zero_add]
    exact hone
  have haddr : img.fileAddr b ino 0 = .byte 0 (img.trailingAddr ino) := by
    unfold fileAddr
    simp only [hlay, Nat.zero_div, Nat.zero_mul, Nat.zero_add, if_pos hone, Nat.sub_self,
      Nat.cast_zero, add_zero]
  have htable : img.tableAddr b ino 0 = none := by
    unfold tableAddr
    rw [haddr]
    exact if_pos (htail 0 hsize)
  have hspot : ∀ pos : ℕ, img.spot b ino 0 pos = .data 0 (img.trailingAddr ino + pos) := by
    intro pos
    unfold spot
    rw [htable, haddr]
    rfl
  have haccepts : ∀ n, img.Accepts b ino 0 n := fun n pa hpa => by
    rw [htable] at hpa
    cases hpa
  cases hc : img.checkImageRange (img.trailingAddr ino) ino.size with
  | error e =>
    rw [hc] at h
    cases h
  | ok u =>
    rw [hc] at h
    cases h
    refine ⟨fun pos => ?_, fun pos hpos => iff_of_true (htail pos hpos) (htail 0 hsize),
      haccepts _, fun pa hpa => ?_, fun q hq hstart p => ?_⟩
    · rw [hspot]
    · rw [htable] at hpa
      cases hpa
    · -- the only block is the one behind the inode
      obtain rfl : q = 0 := by
        rw [Nat.mod_eq_of_lt (by omega)] at hstart
        exact hstart
      have hlen : img.blockLen ino.size 0 = ino.size := by
        rw [blockLen, Nat.zero_mod, Nat.sub_zero, Nat.sub_zero, min_eq_right hone]
      simp only [blockPlace, hlay, inlinePlace, Nat.zero_div, Nat.zero_mul, Nat.zero_add,
        if_pos hone, Nat.sub_self, Nat.sub_zero, Nat.cast_zero, add_zero, hlen,
        if_neg (not_lt.2 hcross), hc, Option.some.injEq, hspot, haccepts, true_and, eq_comm]

theorem openChunks_lookedUp (hlay : ino.inodeLayout = .chunkBased)
    (hbits : img.sb.blkSizeBits ≤ 16) (hsize : 0 < ino.size)
    (h : (img.openChunks ino).run (holding c) = some s) : img.LookedUp (c 0) ino s := by
  have htail : ∀ pos, ¬ img.InTail ino pos := fun pos => not_inTail (by simp [hlay])
  obtain ⟨hmap, hindexed, hformat⟩ := openChunks_map h
  obtain ⟨e, hrun, hsec⟩ := (openChunks_iff hmap hindexed hformat hsize).1 h
  have hblock := hrun.block_lt hsize
  have hend := hrun.end_lt hbits hlay hsize
  obtain ⟨hroom, rfl⟩ := (runSection_iff hbits hsize hblock (by rw [maxInt64]; omega)).1 hsec
  have hfirst := hrun.fileAddr hlay hsize
  have hspot := spot_chunk hlay hfirst
  rw [Nat.cast_zero, add_zero] at hfirst
  have haccepts := (accepts_chunk hlay hfirst).2 hroom
  refine ⟨fun pos => ?_, fun pos _ => iff_of_false (htail pos) (htail 0), haccepts.2,
    fun pa hpa => ?_, fun q hq hstart p => ?_⟩
  · have := hspot pos
    rw [Nat.zero_add, Nat.cast_zero, add_zero] at this
    exact this.symm
  · obtain ⟨hbyte, -⟩ := tableAddr_some hpa
    rw [hfirst] at hbyte
    obtain ⟨-, rfl⟩ := Addr.byte.inj hbyte
    rw [maxInt64]
    omega
  · have hentry := (map_entry hmap.1 hmap.2 (img.chunk_lt hq)).1
    have hnamed : img.NamedRoom (c 0) ino q (img.blockLen ino.size q) := by
      intro dev pa hbyte hdev
      rw [hrun.fileAddr hlay hq] at hbyte
      cases hbyte
      have hle := img.blockLen_le hq
      exact (haccepts.1 _ _ hfirst hdev).mono (by omega)
    simp only [blockPlace, hlay]
    rw [chunkPlace_iff hbits hlay hformat hentry hstart hq]
    simp only [hnamed, true_and]

theorem openDirect_lookedUp (hbits : img.sb.blkSizeBits ≤ 16)
    (h : (img.openDirect ino).run (holding c) = some s) : img.LookedUp (c 0) ino s := by
  unfold openDirect at h
  split_ifs at h with hzero
  · cases h
  · have hsize := Nat.pos_of_ne_zero hzero
    cases hlay : ino.inodeLayout with
    | flatPlain => rw [hlay] at h; exact openPlain_lookedUp hlay h
    | flatInline => rw [hlay] at h; exact openInline_lookedUp hlay hsize h
    | chunkBased => rw [hlay] at h; exact openChunks_lookedUp hlay hbits hsize h
    | compressedFull => rw [hlay] at h; cases h
    | compressedCompact => rw [hlay] at h; cases h
    | unknown n => rw [hlay] at h; cases h

/-! ## The same bytes -/

/-- Two reads with one home give the same. -/
theorem gives_of_home (h : img.Opened extra size₀) (hn : 0 < n) (hs : img.Sound dev off n)
    (hs' : img.Sound dev' off' n) (hh : img.home dev off = img.home dev' off') :
    img.Gives c dev off n buf ↔ img.Gives c dev' off' n buf := by
  rw [gives_iff h.windowsNat hn hs.nonneg, gives_iff h.windowsNat hn hs'.nonneg,
    room_iff h hn hs, room_iff h hn hs', hh]

/-- A part of what a read gives. -/
theorem Gives.sub (h : img.Opened extra size₀) {m k : ℕ} (hs : img.Sound dev off n)
    (hg : img.Gives c dev off n buf) (hm : 0 < m) (hk : k + m ≤ n) :
    img.Room dev (off + k) m ∧ ∃ part, img.Gives c dev (off + k) m part := by
  have hn : 0 < n := by omega
  have hsub := hs.sub hk
  obtain ⟨hroom, hlen, -⟩ := (gives_iff h.windowsNat hn hs.nonneg).1 hg
  have hroom' : img.Room dev (off + k) m := by
    rw [room_iff h hn hs] at hroom
    rw [room_iff h hm hsub, home_add]
    intro hx
    have := hroom hx
    dsimp only
    omega
  refine ⟨hroom', _, (gives_iff h.windowsNat hm hsub.nonneg).2 ⟨hroom', ?_, rfl⟩⟩
  rw [home_add]
  dsimp only
  omega

/-- A reader of equal bytes gives equal bytes. -/
theorem gives_replicate (h : img.Opened extra size₀) (hn : 0 < n) (hoff : 0 ≤ off)
    (hroom : img.Room dev off n) {v : Byte} {m : ℕ} (hm : (img.home dev off).2.toNat + n ≤ m)
    (hc : c (img.home dev off).1 = List.replicate m v) :
    img.Gives c dev off n (List.replicate n v) := by
  refine (gives_iff h.windowsNat hn hoff).2 ⟨hroom, ?_, ?_⟩
  · rwa [hc, List.length_replicate]
  · rw [hc, held, List.drop_replicate, List.take_replicate]
    congr 1
    omega

/-- A read whose home is not reader `x` does not depend on it. -/
theorem gives_update (h : img.Opened extra size₀) (hn : 0 < n) (hoff : 0 ≤ off) {x : ℕ} {b : Bytes}
    (hx : (img.home dev off).1 ≠ x) :
    img.Gives (Function.update c x b) dev off n buf ↔ img.Gives c dev off n buf := by
  rw [gives_iff h.windowsNat hn hoff, gives_iff h.windowsNat hn hoff, Function.update_of_ne hx]

theorem Gives.unique {buf' : Bytes} (h : img.Gives c dev off n buf)
    (h' : img.Gives c dev off n buf') : buf = buf' := h.1.symm.trans h'.1

/-- The contents with reader `x` replaced by bytes `v`, no fewer than `m` and than it held. -/
def refill (c : ℕ → Bytes) (x m : ℕ) (v : Byte) : ℕ → Bytes :=
  Function.update c x (List.replicate (max m (c x).length) v)

theorem length_le_refill (c : ℕ → Bytes) (x m : ℕ) (v : Byte) (r : ℕ) :
    (c r).length ≤ (refill c x m v r).length := by
  unfold refill
  by_cases hr : r = x
  · subst hr
    rw [Function.update_self, List.length_replicate]
    exact le_max_right _ _
  · rw [Function.update_of_ne hr]

/-- A device that has been refilled gives the new bytes. -/
theorem gives_refill (h : img.Opened extra size₀) (hn : 0 < n) (hoff : 0 ≤ off)
    (hroom : img.Room dev off n) (v : Byte) :
    img.Gives (refill c (img.home dev off).1 ((img.home dev off).2.toNat + n) v) dev off n
      (List.replicate n v) :=
  gives_replicate h hn hoff hroom (le_max_left _ _) (Function.update_self ..)

/-- Reads with homes on different readers cannot always give the same. -/
theorem gives_differ (h : img.Opened extra size₀) (hn : 0 < n) (hs : img.Sound dev off n)
    (hs' : img.Sound dev' off' n) (hr : (img.home dev off).1 ≠ (img.home dev' off').1)
    (hgive : ∃ buf, img.Gives c dev' off' n buf)
    (hsame : ∀ c' : ℕ → Bytes, c' 0 = c 0 → (∀ r, (c r).length ≤ (c' r).length) → ∀ buf,
      img.Gives c' dev' off' n buf → img.Gives c' dev off n buf) : False := by
  obtain ⟨buf, hg⟩ := hgive
  have hroom' := ((gives_iff h.windowsNat hn hs'.nonneg).1 hg).1
  have hne : List.replicate n nulByte ≠ List.replicate n slash := by
    intro heq
    have := congrArg List.head? heq
    rw [List.head?_replicate, List.head?_replicate, if_neg hn.ne', if_neg hn.ne'] at this
    exact absurd this (by decide)
  by_cases hz : (img.home dev' off').1 = 0
  · -- the second read is of the image, so the first one's device can hold anything
    have hz' : (0 : ℕ) ≠ (img.home dev off).1 := fun h0 => hr (h0.symm.trans hz.symm)
    have hall : ∀ v : Byte, buf = List.replicate n v := by
      intro v
      have hg' := hsame (refill c (img.home dev off).1 ((img.home dev off).2.toNat + n) v)
        (Function.update_of_ne hz' _ _) (length_le_refill _ _ _ _) buf
        ((gives_update h hn hs'.nonneg hr.symm).2 hg)
      have hroom := ((gives_iff h.windowsNat hn hs.nonneg).1 hg').1
      exact hg'.unique (gives_refill h hn hs.nonneg hroom v)
    exact hne ((hall nulByte).symm.trans (hall slash))
  · have hall : ∀ v : Byte, img.Gives c dev off n (List.replicate n v) := by
      intro v
      have hg' := hsame (refill c (img.home dev' off').1 ((img.home dev' off').2.toNat + n) v)
        (Function.update_of_ne (Ne.symm hz) _ _) (length_le_refill _ _ _ _) _
        (gives_refill h hn hs'.nonneg hroom' v)
      exact (gives_update h hn hs.nonneg hr).1 hg'
    exact hne ((hall nulByte).unique (hall slash))

/-- With the caller's devices, reads that give the same whatever the devices hold are of one
reader. -/
theorem gives_same_reader (h : img.Opened extra size₀) (hx : 0 < extra) (hn : 0 < n)
    (hs : img.Sound dev off n) (hs' : img.Sound dev' off' n)
    (hsame : ∀ c' : ℕ → Bytes, c' 0 = c 0 → ∀ buf,
      img.Gives c' dev off n buf ↔ img.Gives c' dev' off' n buf) :
    (img.home dev off).1 = (img.home dev' off').1 := by
  -- the reader that is not the image can be filled, and then gives something
  have hdiffer : ∀ {d₁ d₂ : ℕ} {o₁ o₂ : Int}, img.Sound d₁ o₁ n → img.Sound d₂ o₂ n →
      (img.home d₁ o₁).1 ≠ (img.home d₂ o₂).1 → (img.home d₂ o₂).1 ≠ 0 →
      (∀ c' : ℕ → Bytes, c' 0 = c 0 → ∀ buf, img.Gives c' d₂ o₂ n buf → img.Gives c' d₁ o₁ n buf) →
      False := by
    intro d₁ d₂ o₁ o₂ hs₁ hs₂ hr hz hall
    have hroom : img.Room d₂ o₂ n := (room_iff h hn hs₂).2 fun hx' => absurd hx' hx.ne'
    have hgive := gives_refill (c := c) h hn hs₂.nonneg hroom nulByte
    refine gives_differ h hn hs₁ hs₂ hr ⟨_, hgive⟩ fun c' hc' _ => hall c' (hc'.trans ?_)
    exact Function.update_of_ne (Ne.symm hz) _ _
  by_contra hr
  by_cases hz : (img.home dev' off').1 = 0
  · exact hdiffer hs' hs (Ne.symm hr) (fun hz' => hr (hz'.trans hz.symm))
      fun c' hc' buf => (hsame c' hc' buf).1
  · exact hdiffer hs hs' hr hz fun c' hc' buf => (hsame c' hc' buf).2

/-- Where the bytes of an image end: with its reader, or at the length the reader gives. -/
def imageEnd (size₀ : Int) (b : Bytes) : Int := if 0 < size₀ then min size₀ b.length else b.length

/-- A read whose home is the image is given just when the image goes that far. -/
theorem gives_image_iff (h : img.Opened extra size₀) (hn : 0 < n) (hs : img.Sound dev off n)
    (hhome : img.home dev off = (0, pa)) (htop : pa + n ≤ maxInt64) :
    (∃ buf, img.Gives c dev off n buf) ↔ pa + n ≤ imageEnd size₀ (c 0) := by
  have h0 : 0 ≤ pa := by
    have : 0 ≤ (img.home dev off).2 := home_nonneg h.windowsNat hs.nonneg
    rwa [hhome] at this
  have hlen : pa.toNat + n ≤ (c 0).length ↔ pa + n ≤ (c 0).length := by omega
  -- with the caller's devices the bounds have kept the read inside the image
  have hinside : 0 < extra → 0 < size₀ → pa + n ≤ size₀ := by
    intro hx hpos
    obtain ⟨-, hext⟩ | ⟨hx', -⟩ := h.devices
    · rw [home_external hext] at hhome
      obtain ⟨rfl, rfl⟩ := Prod.mk.inj hhome
      have hsize := h.size
      rw [if_pos hpos] at hsize
      have := hs.inside rfl (by omega)
      omega
    · omega
  simp only [gives_iff h.windowsNat hn hs.nonneg, room_iff h hn hs, hhome, exists_and_left,
    exists_eq, and_true, hlen]
  unfold imageEnd windowLimit
  generalize maxInt64 = top at htop ⊢
  obtain rfl | hx := Nat.eq_zero_or_pos extra
  · split_ifs <;> omega
  · split_ifs with hpos
    · have := hinside hx hpos
      omega
    · omega

/-- The block at `q` reads as the section does.  The device table says the same of it as of the
file's first byte; or the devices are windows of the image and there is room for the block; or there
is none, and the section has nothing to give either, since it goes on in the image and the image
ends before the block does. -/
def ReadsAlike (img : Image) (extra : ℕ) (size₀ : Int) (b : Bytes) (ino : Inode) (q : ℕ) : Prop :=
  img.tableDevice b ino q = img.tableDevice b ino 0 ∨
  extra = 0 ∧ img.Accepts b ino q (img.blockLen ino.size q) ∨
  (extra = 0 ∨ img.tableDevice b ino 0 = some none) ∧
    ¬ img.Accepts b ino q (img.blockLen ino.size q) ∧
    ∀ pa, img.tableAddr b ino q = some pa → imageEnd size₀ b < pa + img.blockLen ino.size q

section Agree

variable {b : Bytes} {q : ℕ} {addr : Int} (hrun : img.RunOf b ino s deviceID addr)
  (hlook : img.LookedUp b ino s)

include hrun

theorem RunOf.add (hpos : pos < ino.size) :
    img.fileAddr b ino pos = (img.fileAddr b ino 0).add (pos - 0) := by
  rw [hrun.addrs pos hpos, hrun.addrs 0 (by omega), Nat.sub_zero]
  simp [Addr.add]

include hlook

/-- The home of the section's byte where it goes on in the image. -/
theorem LookedUp.home_image (h : img.Opened extra size₀) (hpos : pos < ino.size)
    (hor : extra = 0 ∨ img.tableDevice b ino 0 = some none)
    (hbyte : img.fileAddr b ino pos = .byte 0 pa) : img.home s.dev (s.base + pos) = (0, pa) := by
  rw [hrun.addrs pos hpos] at hbyte
  obtain ⟨rfl, rfl⟩ := Addr.byte.inj hbyte
  obtain rfl | hnone := hor
  · obtain ⟨hx, -⟩ | ⟨-, hwin⟩ := h.devices
    · omega
    · exact home_window hwin (hrun.sits.add pos)
  · obtain ⟨pa₀, hpa₀, hfirst⟩ := Option.map_eq_some_iff.1 hnone
    have hspot := hlook.spot pos
    rw [spot_table hpa₀, mappedPlace, hfirst, Nat.sub_zero] at hspot
    obtain ⟨hdev, hoff⟩ := Place.data.inj hspot
    have haddr := (tableAddr_some hpa₀).1
    rw [hrun.addrs 0 (by omega), Nat.cast_zero, add_zero] at haddr
    obtain ⟨-, rfl⟩ := Addr.byte.inj haddr
    rw [hdev, hoff]
    rfl

/-- A block there is room for has its home where the section has it just when the devices are
windows or the table says the same of it as of the first byte. -/
theorem LookedUp.sameHome_iff (h : img.Opened extra size₀) (hpos : pos < ino.size)
    (hq : q = img.blockStart pos) :
    (img.spot b ino q pos).SameHome img (.data s.dev (s.base + pos)) ↔
      extra = 0 ∨ img.tableDevice b ino q = img.tableDevice b ino 0 := by
  have hqpos : q < ino.size := lt_of_le_of_lt (hq ▸ img.blockStart_le pos) hpos
  have hadd := img.blockStart_add pos
  rw [hlook.spot]
  refine spot_sameHome_iff h ?_ (hrun.add hpos) (hlook.tail q hqpos)
  rw [fileAddr_block, ← hq, show pos - q = pos % img.blockSize by omega]

end Agree

section Alike

variable {q : ℕ} {c' : ℕ → Bytes} (hd : (img.openDirect ino).run (holding c) = some s)

include hd

theorem section_gives_iff (hpos : pos < ino.size) :
    img.SectionGives c' s pos (img.blockLen ino.size pos) buf ↔
      img.Gives c' s.dev (s.base + pos) (img.blockLen ino.size pos) buf := by
  obtain ⟨deviceID, addr, hrun⟩ := openDirect_run hd
  exact sectionGives_iff (hrun.len ▸ hrun.sound) (img.blockLen_pos hpos)
    (hrun.len ▸ img.blockLen_le hpos)

theorem section_sound (hpos : pos < ino.size) :
    img.Sound s.dev (s.base + pos) (img.blockLen ino.size pos) := by
  obtain ⟨deviceID, addr, hrun⟩ := openDirect_run hd
  exact hrun.sound.sub (img.blockLen_le hpos)

/-- The block path has a position where the table puts its block, if there is room for that. -/
theorem blockPlace_spot_iff (hbits : img.sb.blkSizeBits ≤ 16) (hpos : pos < ino.size)
    (hq : q = img.blockStart pos) {p : Place} :
    img.blockPlace (c 0) ino pos = some p ↔
      img.Accepts (c 0) ino q (img.blockLen ino.size q) ∧ p = img.spot (c 0) ino q pos := by
  have hqlt : q < ino.size := lt_of_le_of_lt (hq ▸ img.blockStart_le pos) hpos
  have hblocks := (openDirect_lookedUp hbits hd).blocks q hqlt (hq ▸ img.blockStart_mod pos)
  have hspot : img.spot (c 0) ino q pos = (img.spot (c 0) ino q q).add (pos % img.blockSize) := by
    rw [spot_add, hq, blockStart_add]
  rw [blockPlace_start hpos, ← hq, hspot]
  constructor
  · rintro ⟨p', hp', rfl⟩
    obtain ⟨haccept, rfl⟩ := (hblocks p').1 hp'
    exact ⟨haccept, rfl⟩
  · rintro ⟨haccept, rfl⟩
    exact ⟨_, (hblocks _).2 ⟨haccept, rfl⟩, rfl⟩

theorem load_spot_iff (hbits : img.sb.blkSizeBits ≤ 16) (hc' : c' 0 = c 0) (hpos : pos < ino.size)
    (hq : q = img.blockStart pos) :
    (img.loadBlock ino pos).run (holding c') = .ok buf ↔
      img.Accepts (c 0) ino q (img.blockLen ino.size q) ∧
        (img.spot (c 0) ino q pos).Gives img c' (img.blockLen ino.size pos) buf := by
  rw [loadBlock_iff hpos, hc']
  simp only [blockPlace_spot_iff hd hbits hpos hq, and_assoc, exists_and_left, exists_eq_left]

variable (h : img.Opened extra size₀)

include h

/-- A block there is room for gives what the section gives where the devices are windows, or the
table says the same of it as of the first byte. -/
theorem sameHome_gives (hpos : pos < ino.size) (hq : q = img.blockStart pos)
    (haccept : img.Accepts (c 0) ino q (img.blockLen ino.size q))
    (hhome : extra = 0 ∨ img.tableDevice (c 0) ino q = img.tableDevice (c 0) ino 0) :
    (img.spot (c 0) ino q pos).Gives img c' (img.blockLen ino.size pos) buf ↔
      img.Gives c' s.dev (s.base + pos) (img.blockLen ino.size pos) buf := by
  obtain ⟨deviceID, addr, hrun⟩ := openDirect_run hd
  have hlook := openDirect_lookedUp h.bits.2 hd
  have hplace := (blockPlace_spot_iff hd h.bits.2 hpos hq).2 ⟨haccept, rfl⟩
  obtain ⟨dev, off, hdata, -, hsound⟩ := hrun.blocks hpos hplace
  have hsame := (hlook.sameHome_iff hrun h hpos hq).2 hhome
  rw [hdata] at hsame ⊢
  exact gives_of_home h (img.blockLen_pos hpos) hsound (section_sound hd hpos) hsame

/-- The table leads to one reader where the two ways give the same whatever the devices hold. -/
theorem tableDevice_of_same (hx : 0 < extra) (hpos : q < ino.size) (hq : q % img.blockSize = 0)
    (haccept : img.Accepts (c 0) ino q (img.blockLen ino.size q))
    (hsame : ∀ c' : ℕ → Bytes, c' 0 = c 0 → ∀ buf,
      (img.spot (c 0) ino q q).Gives img c' (img.blockLen ino.size q) buf ↔
        img.Gives c' s.dev (s.base + q) (img.blockLen ino.size q) buf) :
    img.tableDevice (c 0) ino q = img.tableDevice (c 0) ino 0 := by
  have hstart : q = img.blockStart q := by
    have := img.blockStart_add q
    omega
  obtain ⟨deviceID, addr, hrun⟩ := openDirect_run hd
  have hlook := openDirect_lookedUp h.bits.2 hd
  have hplace := (blockPlace_spot_iff hd h.bits.2 hpos hstart).2 ⟨haccept, rfl⟩
  obtain ⟨dev, off, hdata, hsits, hsound⟩ := hrun.blocks hpos hplace
  have hiff := hlook.sameHome_iff hrun h hpos hstart
  rw [hdata] at hsame hiff
  have hreader :=
    gives_same_reader h hx (img.blockLen_pos hpos) hsound (section_sound hd hpos) hsame
  have hhome := sits_reader h (hrun.sits.add q) (k := 0) (by rwa [add_zero]) hreader.symm
  rw [add_zero] at hhome
  exact (hiff.1 hhome).resolve_left hx.ne'

/-- Where the bounds refuse a block, the section gives nothing just when it goes on in the image and
the image ends before the block does. -/
theorem nothingGiven_iff (hpos : pos < ino.size) (hq : q = img.blockStart pos)
    (hrefuse : ¬ img.Accepts (c 0) ino q (img.blockLen ino.size q)) :
    (∀ c' : ℕ → Bytes, c' 0 = c 0 → ∀ buf,
      ¬ img.Gives c' s.dev (s.base + pos) (img.blockLen ino.size pos) buf) ↔
    (extra = 0 ∨ img.tableDevice (c 0) ino 0 = some none) ∧
      ∀ pa, img.tableAddr (c 0) ino q = some pa →
        imageEnd size₀ (c 0) < pa + img.blockLen ino.size q := by
  obtain ⟨deviceID, addr, hrun⟩ := openDirect_run hd
  have hlook := openDirect_lookedUp h.bits.2 hd
  have hlt : q < ino.size := lt_of_le_of_lt (hq ▸ img.blockStart_le pos) hpos
  have hlen := img.blockLen_pos hpos
  have hsound := section_sound hd hpos
  obtain ⟨pa, hpa⟩ : ∃ pa, img.tableAddr (c 0) ino q = some pa := by
    by_contra hnone
    exact hrefuse fun pa hpa => absurd ⟨pa, hpa⟩ hnone
  -- the first byte is looked up too, as far before the block as it is before it in the file
  obtain ⟨pa₀, hpa₀, hsum⟩ : ∃ pa₀, img.tableAddr (c 0) ino 0 = some pa₀ ∧
      pa + (q - q : ℕ) = pa₀ + (q - 0 : ℕ) := tableAddr_run
    (by rw [Nat.sub_self]; cases img.fileAddr (c 0) ino q <;> simp [Addr.add]) (hrun.add hlt)
    (hlook.tail q hlt) hpa
  rw [Nat.sub_self, Nat.sub_zero, Nat.cast_zero, add_zero] at hsum
  have hbyte : img.fileAddr (c 0) ino pos = .byte 0 (pa + (pos % img.blockSize : ℕ)) := by
    rw [fileAddr_block, ← hq, (tableAddr_some hpa).1]
    rfl
  have hend : pa + (pos % img.blockSize : ℕ) + img.blockLen ino.size pos =
      pa + img.blockLen ino.size q := by
    have hrest := img.blockLen_rest ino.size pos
    have hinside := img.blockLen_start hpos
    rw [← hq] at hrest hinside
    omega
  have htop : pa + (pos % img.blockSize : ℕ) + img.blockLen ino.size pos ≤ maxInt64 := by
    have hfile := hlook.top pa₀ hpa₀
    have hle := img.blockLen_le hlt
    omega
  have hgives : ∀ c' : ℕ → Bytes, extra = 0 ∨ img.tableDevice (c 0) ino 0 = some none →
      ((∃ buf, img.Gives c' s.dev (s.base + pos) (img.blockLen ino.size pos) buf) ↔
        pa + img.blockLen ino.size q ≤ imageEnd size₀ (c' 0)) := by
    intro c' himage
    rw [gives_image_iff h hlen hsound (hlook.home_image hrun h hpos himage hbyte) htop, hend]
  constructor
  · intro hnothing
    have himage : extra = 0 ∨ img.tableDevice (c 0) ino 0 = some none := by
      -- on a device of the caller the section gives whatever that is made to hold
      by_contra hdevice
      obtain ⟨hx, hsome⟩ := not_or.1 hdevice
      rw [tableDevice, hpa₀, Option.map_some] at hsome
      obtain ⟨⟨k, d⟩, hfirst⟩ := Option.ne_none_iff_exists'.1 fun hn => hsome (congrArg some hn)
      have hspot := hlook.spot pos
      rw [spot_table hpa₀, mappedPlace, hfirst] at hspot
      have hdev := (Place.data.inj hspot).1
      have hreader : (img.home s.dev (s.base + pos)).1 ≠ 0 := by
        obtain ⟨-, hext⟩ | ⟨hx', -⟩ := h.devices
        · rw [home_external hext, hdev]
          exact (firstMapped_some hfirst).1.ne'
        · exact absurd hx' hx
      have hroom := (room_iff h hlen hsound).2 fun hx' => absurd hx' hx
      exact hnothing _ (Function.update_of_ne (Ne.symm hreader) _ _) _
        (gives_refill (c := c) h hlen hsound.nonneg hroom nulByte)
    refine ⟨himage, fun pa' hpa' => ?_⟩
    rw [hpa] at hpa'
    cases hpa'
    by_contra hle
    obtain ⟨buf, hg⟩ := (hgives c himage).2 (not_lt.1 hle)
    exact hnothing c rfl buf hg
  · rintro ⟨himage, hshort⟩ c' hc' buf hg
    have hle := (hgives c' himage).1 ⟨buf, hg⟩
    rw [hc'] at hle
    exact absurd (hshort pa hpa) (not_lt.2 hle)

end Alike

/-- **The two ways to read.**  For a file of an opened image that `openDirect` offers a section for,
the block path and the section give the same bytes at every offset, whatever the devices hold,
exactly when every block reads alike. -/
theorem direct_agrees_iff (h : img.Opened extra size₀)
    (hd : (img.openDirect ino).run (holding c) = some s) :
    (∀ c' : ℕ → Bytes, c' 0 = c 0 → ∀ pos < ino.size, ∀ buf,
      (img.loadBlock ino pos).run (holding c') = .ok buf ↔
        img.SectionGives c' s pos (img.blockLen ino.size pos) buf) ↔
      ∀ q < ino.size, q % img.blockSize = 0 → img.ReadsAlike extra size₀ (c 0) ino q := by
  constructor
  · intro hsame q hq hmod
    have hstart : q = img.blockStart q := by
      have := img.blockStart_add q
      omega
    have hplaces : ∀ c' : ℕ → Bytes, c' 0 = c 0 → ∀ buf,
        (img.Accepts (c 0) ino q (img.blockLen ino.size q) ∧
          (img.spot (c 0) ino q q).Gives img c' (img.blockLen ino.size q) buf) ↔
        img.Gives c' s.dev (s.base + q) (img.blockLen ino.size q) buf := by
      intro c' hc' buf
      rw [← load_spot_iff hd h.bits.2 hc' hq hstart, hsame c' hc' q hq, section_gives_iff hd hq]
    by_cases haccept : img.Accepts (c 0) ino q (img.blockLen ino.size q)
    · obtain hx | hx := Nat.eq_zero_or_pos extra
      · exact .inr (.inl ⟨hx, haccept⟩)
      · simp only [haccept, true_and] at hplaces
        exact .inl (tableDevice_of_same hd h hx hq hmod haccept hplaces)
    · simp only [haccept, false_and, false_iff] at hplaces
      obtain ⟨himage, hend⟩ := (nothingGiven_iff hd h hq hstart haccept).1 hplaces
      exact .inr (.inr ⟨himage, haccept, hend⟩)
  · intro halike c' hc' pos hpos buf
    have hlook := openDirect_lookedUp h.bits.2 hd
    obtain ⟨deviceID, addr, hrun⟩ := openDirect_run hd
    have hq : img.blockStart pos < ino.size := lt_of_le_of_lt (img.blockStart_le pos) hpos
    rw [load_spot_iff hd h.bits.2 hc' hpos rfl, section_gives_iff hd hpos]
    obtain hdev | ⟨hx, haccept⟩ | ⟨himage, hrefuse, hend⟩ :=
      halike _ hq (img.blockStart_mod pos)
    · have haccept := hlook.accepts.of_tableDevice hdev (hrun.add hq)
        (by have := img.blockLen_le hq; omega)
      rw [sameHome_gives hd h hpos rfl haccept (.inr hdev)]
      simp only [haccept, true_and]
    · rw [sameHome_gives hd h hpos rfl haccept (.inl hx)]
      simp only [haccept, true_and]
    · have hnothing := (nothingGiven_iff hd h hpos rfl hrefuse).2 ⟨himage, hend⟩ c' hc' buf
      simp only [hrefuse, hnothing, false_and]

/-! ## A file split by a mapped range -/

/-- An image of six blocks of 512 bytes with one extra device of one block, mapped at block
`mapped`, and a root directory whose one entry is the flat-plain regular file `a` of 513 bytes at
block 4. -/
def splitImage (mapped : Byte) : Bytes :=
  List.replicate 1024 nulByte
    -- the superblock: block size bits 9, six blocks, metadata at block 3,
    -- a device table of one slot
    ++ [0xe2, 0xe1, 0xf5, 0xe0] ++ List.replicate 8 nulByte ++ [9] ++ List.replicate 23 nulByte
    ++ [6, 0, 0, 0, 3] ++ List.replicate 39 nulByte ++ [8, 0, 0, 0, 0, 0, 1, 0, 9]
    ++ List.replicate 39 nulByte
    -- the slot, number 9
    ++ List.replicate 64 nulByte ++ [1, 0, 0, 0] ++ [mapped] ++ List.replicate 315 nulByte
    -- inode 0: compact, flat-inline, a directory of 40 bytes with "." and ".." and "a"
    ++ [4, 0, 0, 0, 0xed, 0x41, 2, 0, 40] ++ List.replicate 23 nulByte
    ++ List.replicate 8 nulByte ++ [36, 0, 2, 0] ++ List.replicate 8 nulByte ++ [37, 0, 2, 0]
    ++ [4] ++ List.replicate 7 nulByte ++ [39, 0, 1, 0] ++ [46, 46, 46, 97]
    ++ List.replicate 56 nulByte
    -- inode 4: compact, flat-plain, a regular file of 513 bytes at block 4
    ++ [0, 0, 0, 0, 0xa4, 0x81, 1, 0, 1, 2, 0, 0, 0, 0, 0, 0, 4] ++ List.replicate 1391 nulByte

/-- The image and a device of one byte. -/
def splitReaders (mapped : Byte) : ℕ → Bytes
  | 0 => splitImage mapped
  | _ => [65]

/-- The lengths the two readers report. -/
def splitSizes : ℕ → Option Int
  | 0 => some 3072
  | _ => some 1

/-- What `Open` makes of them. -/
def splitFS (mapped : ℕ) : Image where
  sb := { blkSizeBits := 9, rootNid := 0, blocks := 6, metaBlkAddr := 3, featureIncompat := 8,
          extraDevices := 1, devtSlotOff := 9 }
  size := 3072
  devices := [{ size := 1, mappedBlkAddr := mapped, blocks := 1 }]
  deviceIDMask := 1

/-- The inode of the file. -/
def splitInode : Inode where
  name := [97]
  nid := 4
  icsize := 32
  inodeLayout := .flatPlain
  inodeData := 4
  size := 513
  mode := 0o644
  rawMode := 0o100644

/-- With the device mapped at block 5, the file's second block is the device's for the block path
and the image's for the section. -/
theorem split_differs :
    (openImage 1 splitSizes).run (holding (splitReaders 5)) = .ok (splitFS 5) ∧
      ((splitFS 5).readInfo [97] 4 0).run (holding (splitReaders 5)) = .ok splitInode ∧
      ((splitFS 5).openDirect splitInode).run (holding (splitReaders 5)) = some ⟨0, 2048, 513⟩ ∧
      ((splitFS 5).loadBlock splitInode 512).run (holding (splitReaders 5)) = .ok [65] ∧
      ((splitFS 5).readSection ⟨0, 2048, 513⟩ 512 1).run (holding (splitReaders 5)) =
        ⟨[nulByte], none⟩ := by
  decide +kernel

theorem split_alike : ∀ q < 513, q % 512 = 0 →
    (splitFS 7).tableDevice (splitImage 7) splitInode q =
      (splitFS 7).tableDevice (splitImage 7) splitInode 0 := by
  decide +kernel

/-- With the device mapped past the file, the two ways agree. -/
theorem split_agrees :
    (openImage 1 splitSizes).run (holding (splitReaders 7)) = .ok (splitFS 7) ∧
      ((splitFS 7).openDirect splitInode).run (holding (splitReaders 7)) =
        some ⟨0, 2048, 513⟩ ∧
      ∀ c : ℕ → Bytes, c 0 = splitImage 7 → ∀ pos < 513, ∀ buf,
        ((splitFS 7).loadBlock splitInode pos).run (holding c) = .ok buf ↔
          (splitFS 7).SectionGives c ⟨0, 2048, 513⟩ pos ((splitFS 7).blockLen 513 pos) buf := by
  have hopen : (openImage 1 splitSizes).run (holding (splitReaders 7)) = .ok (splitFS 7) := by
    decide +kernel
  have hdirect : ((splitFS 7).openDirect splitInode).run (holding (splitReaders 7)) =
      some ⟨0, 2048, 513⟩ := by
    decide +kernel
  refine ⟨hopen, hdirect, ?_⟩
  exact (direct_agrees_iff (openImage_opened hopen) hdirect).2 fun q hq hstart =>
    .inl (split_alike q hq hstart)

end Image

end Erofs
