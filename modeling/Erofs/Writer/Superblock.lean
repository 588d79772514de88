import Erofs.Writer.Regions

/-!
# Opening a written image

The superblock area of an image is put together in place: the superblock, a slot for every device
behind it, and last the checksum, which covers both.  `Open` reads it from the other side, one
`ReadAt` for each part, and checks what it finds.

The main results:

* `decodeSuperBlock_marshal` — the superblock is decoded as it was;
* `writeBlock0_at` — where the parts of the area are, and that the checksum is theirs;
* `openImage_written` — what `Open` makes of an image that was written.
-/

namespace Erofs

open GoPath LittleEndian Oracle

/-! ## The superblock -/

/-- A superblock with the values its fields have room for. -/
structure SuperBlock.Fits (sb : SuperBlock) : Prop where
  magicNumber : sb.magicNumber < 256 ^ 4
  checksum : sb.checksum < 256 ^ 4
  featureCompat : sb.featureCompat < 256 ^ 4
  blkSizeBits : sb.blkSizeBits < 256 ^ 1
  extSlots : sb.extSlots < 256 ^ 1
  rootNid : sb.rootNid < 256 ^ 2
  buildTime : sb.buildTime < 256 ^ 8
  buildTimeNs : sb.buildTimeNs < 256 ^ 4
  blocks : sb.blocks < 256 ^ 4
  metaBlkAddr : sb.metaBlkAddr < 256 ^ 4
  xattrBlkAddr : sb.xattrBlkAddr < 256 ^ 4
  featureIncompat : sb.featureIncompat < 256 ^ 4
  comprAlgs : sb.comprAlgs < 256 ^ 2
  extraDevices : sb.extraDevices < 256 ^ 2
  devtSlotOff : sb.devtSlotOff < 256 ^ 2
  dirBlkBits : sb.dirBlkBits < 256 ^ 1
  xattrPrefixCount : sb.xattrPrefixCount < 256 ^ 1
  xattrPrefixStart : sb.xattrPrefixStart < 256 ^ 4
  packedNid : sb.packedNid < 256 ^ 8
  ishareXattrPrefixID : sb.ishareXattrPrefixID < 256 ^ 1

theorem decodeSuperBlock_marshal {sb : SuperBlock} (h : sb.Fits) (inos : ℕ) :
    decodeSuperBlock (marshalSuperBlock sb inos) = sb := by
  have hfields := @hasFields_record (marshalSuperBlock sb inos) [] 0 _
    (by rw [List.append_nil]; exact List.prefix_rfl)
    (by rw [Nat.zero_add]; exact (length_record _).ge)
  simp only [HasFields, Nat.reduceAdd, and_true] at hfields
  obtain ⟨hmagic, hsum, hcompat, hbits, hext, hroot, -, htime, htimeNs, hblocks, hmeta, hxattr, -,
    -, hincompat, hcompr, hextra, hslot, hdir, hcount, hstart, hpacked, -, hishare, -⟩ := hfields
  unfold decodeSuperBlock
  rw [hmagic h.magicNumber, hsum h.checksum, hcompat h.featureCompat, hbits h.blkSizeBits,
    hext h.extSlots, hroot h.rootNid, htime h.buildTime, htimeNs h.buildTimeNs, hblocks h.blocks,
    hmeta h.metaBlkAddr, hxattr h.xattrBlkAddr, hincompat h.featureIncompat, hcompr h.comprAlgs,
    hextra h.extraDevices, hslot h.devtSlotOff, hdir h.dirBlkBits, hcount h.xattrPrefixCount,
    hstart h.xattrPrefixStart, hpacked h.packedNid, hishare h.ishareXattrPrefixID]

theorem blkBits_two_pow {bits : ℕ} (hlo : 9 ≤ bits) (hhi : bits ≤ 16) :
    blkBits (2 ^ bits) = bits := by
  interval_cases bits <;> decide

/-! ## The area -/

section Area

variable {w : ErofsWriter} {ds : List ℕ} {i : ℕ} {area area' : Bytes} {xs : List Planned}
  {bits : ℕ}

/-- Slots are written behind each other, and leave alone what is in front of them. -/
theorem writeDeviceSlots_at (h : ErofsWriter.writeDeviceSlots ds i area = .ok area')
    (hroom : 1152 + (i + ds.length) * 128 ≤ area.length) :
    (∀ k y, HasAt area k y → k + y.length ≤ 1152 + i * 128 → HasAt area' k y) ∧
      ∀ j d, ds[j]? = some d → HasAt area' (1152 + (i + j) * 128) (marshalDeviceSlot d) := by
  induction ds generalizing i area with
  | nil =>
    cases h
    exact ⟨fun k y hy _ => hy, fun j d hd => by simp at hd⟩
  | cons d ds ih =>
    rw [List.length_cons] at hroom
    rw [ErofsWriter.writeDeviceSlots] at h
    split_ifs at h
    have hslot : (marshalDeviceSlot d).length = 128 := length_marshalDeviceSlot d
    change ErofsWriter.writeDeviceSlots ds (i + 1)
      (putAt area (1152 + i * 128) (marshalDeviceSlot d)) = .ok area' at h
    have hput : (putAt area (1152 + i * 128) (marshalDeviceSlot d)).length = area.length :=
      length_putAt (by omega)
    obtain ⟨hkeep, hslots⟩ := ih h (by omega)
    refine ⟨fun k y hy hle => ?_, fun j e he => ?_⟩
    · exact hkeep k y (hy.putAt_of_le (by omega) (.inl hle)) (by omega)
    · cases j with
      | zero =>
        cases he
        exact hkeep _ _ (hasAt_putAt _ (by omega)) (by omega)
      | succ j =>
        have hj := hslots j e he
        rwa [show i + 1 + j = i + (j + 1) by omega] at hj

/-- The fields of a superblock behind its checksum. -/
def superBlockRest (sb : SuperBlock) (inos : ℕ) : Bytes :=
  record [(4, sb.featureCompat), (1, sb.blkSizeBits), (1, sb.extSlots), (2, sb.rootNid), (8, inos),
    (8, sb.buildTime), (4, sb.buildTimeNs), (4, sb.blocks), (4, sb.metaBlkAddr),
    (4, sb.xattrBlkAddr), (16, 0), (16, 0), (4, sb.featureIncompat), (2, sb.comprAlgs),
    (2, sb.extraDevices), (2, sb.devtSlotOff), (1, sb.dirBlkBits), (1, sb.xattrPrefixCount),
    (4, sb.xattrPrefixStart), (8, sb.packedNid), (1, 0), (1, sb.ishareXattrPrefixID), (22, 0)]

theorem marshalSuperBlock_eq (sb : SuperBlock) (inos : ℕ) : marshalSuperBlock sb inos =
    leBytes 4 sb.magicNumber ++ (leBytes 4 sb.checksum ++ superBlockRest sb inos) := rfl

/-- Writing the checksum over a superblock gives the superblock with that checksum. -/
theorem hasAt_withChecksum {sb : SuperBlock} {inos : ℕ}
    (h : HasAt area 1024 (marshalSuperBlock sb inos)) (hlen : 1152 ≤ area.length) (c : ℕ) :
    HasAt (putAt area 1028 (leBytes 4 c)) 1024
      (marshalSuperBlock { sb with checksum := c } inos) := by
  rw [marshalSuperBlock_eq] at h ⊢
  have hmagic : HasAt (putAt area 1028 (leBytes 4 c)) 1024 (leBytes 4 sb.magicNumber) :=
    h.left.putAt_of_le (by omega) (.inl (by rw [length_leBytes]))
  have hsum : HasAt (putAt area 1028 (leBytes 4 c)) 1028 (leBytes 4 c) :=
    hasAt_putAt _ (by omega)
  have hrest : HasAt (putAt area 1028 (leBytes 4 c)) 1032 (superBlockRest sb inos) := by
    have hat := h.right.right
    rw [length_leBytes, length_leBytes] at hat
    exact hat.putAt_of_le (by omega) (.inr (by rw [length_leBytes]))
  refine hmagic.append ?_
  rw [length_leBytes]
  refine hsum.append ?_
  rw [length_leBytes]
  exact hrest

/-- The checksum covers bytes of the area. -/
theorem checksumSpan_le (hw : w.Sized) (hbits : w.blockSize = 2 ^ bits) :
    1032 + checksumSpan bits ≤ w.sbAreaSize := by
  have hlo := hw.lo
  have hge := sbAreaSize_ge hw
  simp only [Disk.superBlockOffset, Disk.sizeSuperBlock, Disk.sizeDeviceSlot] at hge
  obtain ⟨m, hm⟩ : ∃ m, w.sbAreaSize = m * w.blockSize := ⟨_, sbAreaSize_eq hw⟩
  have hone : 1 ≤ m := by
    by_contra hzero
    rw [show m = 0 by omega, Nat.zero_mul] at hm
    omega
  unfold checksumSpan
  rw [← hbits]
  split_ifs with hlarge
  · have := Nat.le_mul_of_pos_left w.blockSize hone
    omega
  · -- blocks of at most 1024 bytes: the area has the block behind the first 1024 bytes
    have hsmall : w.blockSize = 512 ∨ w.blockSize = 1024 := by
      rw [hbits] at hlo hlarge ⊢
      have h9 : 9 ≤ bits := (Nat.pow_le_pow_iff_right (by decide : 1 < 2)).1 hlo
      have h10 : bits ≤ 10 := (Nat.pow_le_pow_iff_right (by decide : 1 < 2)).1 (not_lt.1 hlarge)
      interval_cases bits
      · exact .inl rfl
      · exact .inr rfl
    rcases hsmall with hbs | hbs <;> rw [hbs] at hm ⊢ <;> omega

/-- **The area.**  The superblock is at its offset with a checksum that is that of what follows it
in the area, and every device has its slot. -/
theorem writeBlock0_at (hw : w.Sized) (hbits : w.blockSize = 2 ^ bits) (hlo : 9 ≤ bits)
    (hhi : bits ≤ 16) (h : w.writeBlock0 xs = .ok area) :
    ∃ span, span.length = checksumSpan bits ∧ HasAt area 1032 span ∧
      HasAt area 1024 (marshalSuperBlock
        { w.superBlock xs with checksum := superblockChecksum span } xs.length) ∧
      ∀ i d, w.devices[i]? = some d → HasAt area (1152 + i * 128) (marshalDeviceSlot d) := by
  have hge := sbAreaSize_ge hw
  have hspan := checksumSpan_le hw hbits
  simp only [Disk.superBlockOffset, Disk.sizeSuperBlock, Disk.sizeDeviceSlot] at hge
  obtain ⟨slots, hslots, h⟩ := except_bind_ok h
  cases h
  set room : Bytes := List.replicate w.sbAreaSize nulByte with hroomdef
  set sb := marshalSuperBlock (w.superBlock xs) xs.length with hsbdef
  have hroom : room.length = w.sbAreaSize := List.length_replicate
  have hsb : sb.length = 128 := length_marshalSuperBlock _ _
  change ErofsWriter.writeDeviceSlots w.devices 0 (putAt room 1024 sb) = .ok slots at hslots
  have hput : (putAt room 1024 sb).length = w.sbAreaSize := by
    rw [length_putAt (by omega), hroom]
  obtain ⟨hkeep, hat⟩ := writeDeviceSlots_at hslots (by omega)
  have hlen : slots.length = w.sbAreaSize := by
    rw [length_writeDeviceSlots hslots, hput]
    simp only [Disk.superBlockOffset, Disk.sizeSuperBlock, Disk.sizeDeviceSlot]
    omega
  have hsuper := hkeep 1024 sb (hasAt_putAt sb (by omega)) (by omega)
  set span := (slots.drop 1032).take (checksumSpan bits) with hspandef
  have hspanlen : span.length = checksumSpan bits := by
    rw [List.length_take, List.length_drop]
    omega
  have hsum : w.withChecksum slots = putAt slots 1028 (leBytes 4 (superblockChecksum span)) := by
    rw [ErofsWriter.withChecksum, hbits, blkBits_two_pow hlo hhi]
    rfl
  rw [hsum]
  refine ⟨span, hspanlen, ?_, ?_, ?_⟩
  · have hinside : HasAt slots 1032 span := List.take_prefix _ _
    exact hinside.putAt_of_le (by omega) (.inr (by rw [length_leBytes]))
  · exact hasAt_withChecksum hsuper (by omega) _
  · intro i d hd
    have hslot := hat i d hd
    rw [Nat.zero_add] at hslot
    exact hslot.putAt_of_le (by omega) (.inr (by rw [length_leBytes]; omega))

end Area

/-! ## Its values -/

section Values

variable {w : ErofsWriter} {xs : List (Planned × ErofsDir)}

/-- The feature bits the writer sets are ones the reader knows. -/
theorem superBlock_incompat (w : ErofsWriter) (xs : List Planned) :
    (w.superBlock xs).featureIncompat < 256 ^ 4 ∧
      (w.superBlock xs).featureIncompat &&& 0xffffff92 = 0 ∧
      (w.superBlock xs).featureIncompat &&& 1 = 0 ∧
      ((w.superBlock xs).featureIncompat &&& 8 ≠ 0 ↔ w.devices ≠ []) := by
  unfold ErofsWriter.superBlock
  dsimp only
  by_cases hdev : w.devices ≠ []
  · rw [if_pos hdev]
    split_ifs
    · exact ⟨by decide, by decide, by decide, iff_of_true (by decide) hdev⟩
    · exact ⟨by decide, by decide, by decide, iff_of_true (by decide) hdev⟩
  · rw [if_neg hdev]
    split_ifs
    · exact ⟨by decide, by decide, by decide, iff_of_false (by decide) hdev⟩
    · exact ⟨by decide, by decide, by decide, iff_of_false (by decide) hdev⟩

/-- The root is the first inode of the metadata. -/
theorem rootNid_eq (h : w.Prepared xs) : (w.superBlock (xs.map Prod.fst)).rootNid = 0 := by
  obtain ⟨es, hes⟩ := h.planned
  change (((xs.map Prod.fst).head?.map (·.plan.nid)).getD 0) = 0
  rw [hes]
  cases hhead : (w.planned es).head? with
  | none => rfl
  | some x =>
    have hplan : (w.planLayout es).head? = some x.plan := by
      rw [← planned_plan, List.head?_map, hhead]
      rfl
    exact planLayout_head h.sized hplan

/-- The extra devices are counted also where there are none. -/
theorem extraDevices_eq (w : ErofsWriter) (xs : List Planned) :
    (w.superBlock xs).extraDevices = w.devices.length := by
  change (if w.devices ≠ [] then w.devices.length else 0) = _
  split_ifs with hdev
  · rfl
  · rw [not_not.1 hdev]
    rfl

theorem totalBlocks_bound (h : w.Prepared xs)
    (hlimits : w.checkLimits (xs.map Prod.fst) = .ok ()) :
    w.totalBlocks (xs.map Prod.fst) ≤ 2 ^ 32 - 1 := by
  refine totalBlocks_le h.sized.lo h.devices (fun x hx => ?_) hlimits
  obtain ⟨q, hq, rfl⟩ := List.mem_map.1 hx
  exact (h.ready q hq).size

/-- Within the limits every field of the superblock has room for its value. -/
theorem superBlock_fits (h : w.Prepared xs) (hlimits : w.checkLimits (xs.map Prod.fst) = .ok ())
    (htime : w.buildTime < 2 ^ 64) (htimeNs : w.buildTimeNs < 2 ^ 32) (span : Bytes) :
    SuperBlock.Fits
      { w.superBlock (xs.map Prod.fst) with checksum := superblockChecksum span } := by
  obtain ⟨bits, hlo, hhi, hbs⟩ := h.sized
  have htotal := totalBlocks_bound h hlimits
  have haddr := (assigned_eq h hlimits).2
  have hdev := h.devices
  have hmeta : (w.assignDataBlocks (xs.map Prod.fst)).2 < 2 ^ 32 := by
    rw [haddr]
    rw [ErofsWriter.totalBlocks] at htotal
    omega
  have hbits : (w.superBlock (xs.map Prod.fst)).blkSizeBits = bits := by
    change blkBits w.blockSize = bits
    rw [hbs, blkBits_two_pow hlo hhi]
  have hslot : (w.superBlock (xs.map Prod.fst)).devtSlotOff < 256 ^ 2 := by
    change (if w.devices ≠ [] then _ else 0) < 256 ^ 2
    split_ifs
    · decide
    · decide
  have hzero : ∀ k, 0 < 256 ^ k := fun k => Nat.pow_pos (by decide)
  exact {
    magicNumber := (by decide : 0xe0f5e1e2 < 256 ^ 4)
    checksum := (List.foldl crcByte 0x5045b54a#32 span).isLt
    featureCompat := (by decide : 1 < 256 ^ 4)
    blkSizeBits := by
      dsimp only
      rw [hbits]
      omega
    extSlots := hzero 1
    rootNid := by
      dsimp only
      rw [rootNid_eq h]
      decide
    buildTime := htime
    buildTimeNs := htimeNs
    blocks := Nat.lt_of_le_pred (by decide) htotal
    metaBlkAddr := hmeta
    xattrBlkAddr := hzero 4
    featureIncompat := (superBlock_incompat w _).1
    comprAlgs := hzero 2
    extraDevices := by
      dsimp only
      rw [extraDevices_eq]
      omega
    devtSlotOff := hslot
    dirBlkBits := hzero 1
    xattrPrefixCount := hzero 1
    xattrPrefixStart := hzero 4
    packedNid := hzero 8
    ishareXattrPrefixID := hzero 1 }

end Values

/-! ## Opening -/

/-- A device as `Open` finds it in its slot: one the caller gave, which is mapped nowhere. -/
def openedDevice (sizes : ℕ → Option Int) (idx blocks : ℕ) : DeviceInfo where
  device := .external
  size := (sizes (idx + 1)).getD 0
  mappedBlkAddr := 0
  blocks := blocks

/-- The image `Open` makes of what was written: the superblock it was given, the whole length, and
the devices that were declared. -/
structure ErofsWriter.Opens (w : ErofsWriter) (xs : List (Planned × ErofsDir)) (length : ℕ)
    (sizes : ℕ → Option Int) (img : Image) : Prop where
  sb : ∃ checksum, img.sb = { w.superBlock (xs.map Prod.fst) with checksum }
  size : img.size = length
  devices : img.devices = w.devices.mapIdx (openedDevice sizes)
  mask : img.deviceIDMask = deviceIDMask img.sb
  prefixes : img.longPrefixes = []

section Opening

variable {w : ErofsWriter} {xs : List (Planned × ErofsDir)} {c : ℕ → Bytes} {sizes : ℕ → Option Int}
  {sb : SuperBlock} {size : Int} {k idx off : ℕ} {x : Bytes} {ds : List ℕ} {img : Image}

/-- A region of the image is read whole. -/
theorem run_hasAt (h : HasAt (c 0) off x) :
    (readerAt 0 off x.length).run (holding c) = ⟨x, none⟩ := by
  rw [holding_held, held, h.take_drop, if_neg (lt_irrefl _)]

theorem deviceOf_marshal {blocks : ℕ} (h : blocks < 2 ^ 32) :
    deviceOf sb false sizes size idx (marshalDeviceSlot blocks) =
      openedDevice sizes idx blocks := by
  have hfields := @hasFields_record (marshalDeviceSlot blocks) [] 0 _
    (by rw [List.append_nil]; exact List.prefix_rfl)
    (by rw [Nat.zero_add]; exact (length_record _).ge)
  simp only [HasFields, Nat.reduceAdd, and_true] at hfields
  obtain ⟨-, hblocks, hmapped, -⟩ := hfields
  unfold deviceOf
  rw [hblocks h, hmapped (by decide)]
  rfl

/-- The loop over the table reads the slots that were written. -/
theorem readDevices_written (hoff : sb.devtSlotOff = 9)
    (hat : ∀ i d, ds[i]? = some d → HasAt (c 0) (1152 + (idx + i) * 128) (marshalDeviceSlot d))
    (hlt : ∀ d ∈ ds, d < 2 ^ 32) :
    (readDevices sb false sizes size ds.length idx).run (holding c) =
      .ok (ds.mapIdx fun i d => openedDevice sizes (idx + i) d) := by
  induction ds generalizing idx with
  | nil => rfl
  | cons d ds ih =>
    have hslot : HasAt (c 0) (sb.devtSlotOff * Disk.sizeDeviceSlot + idx * Disk.sizeDeviceSlot)
        (marshalDeviceSlot d) := by
      rw [hoff]
      exact hat 0 d rfl
    have hread := run_hasAt hslot
    rw [length_marshalDeviceSlot] at hread
    have hrest := @ih (idx + 1) (fun i e he => by
      have := hat (i + 1) e he
      rwa [show idx + (i + 1) = idx + 1 + i by omega] at this)
      fun e he => hlt e (List.mem_cons_of_mem _ he)
    have hbuffer : Image.buffer Disk.sizeDeviceSlot (marshalDeviceSlot d) =
        marshalDeviceSlot d := by
      rw [Image.buffer, length_marshalDeviceSlot, Nat.sub_self, List.replicate_zero,
        List.append_nil]
    rw [List.length_cons, readDevices, Prog.exec_bind, Prog.run_bind, hread]
    dsimp only [Prog.run_done]
    rw [hbuffer, deviceOf_marshal (hlt d List.mem_cons_self), Prog.exec_bind, hrest,
      List.mapIdx_cons]
    simp only [Prog.run_done, Nat.add_zero, Nat.add_assoc, Nat.add_comm 1]

theorem ondiskExtraDevices_eq (w : ErofsWriter) (xs : List Planned) (checksum : ℕ) :
    ondiskExtraDevices { w.superBlock xs with checksum } = w.devices.length := by
  have hbit := (superBlock_incompat w xs).2.2.2
  unfold ondiskExtraDevices
  dsimp only
  split_ifs with htable
  · exact extraDevices_eq w xs
  · rw [not_not.1 fun h => htable (hbit.2 h)]
    rfl

/-- A caller who gives the devices that were declared has them taken from the table. -/
theorem openDevices_written (w : ErofsWriter) (xs : List Planned) (checksum : ℕ)
    (hat : ∀ i d, w.devices[i]? = some d → HasAt (c 0) (1152 + i * 128) (marshalDeviceSlot d))
    (hlt : ∀ d ∈ w.devices, d < 2 ^ 32) :
    (openDevices { w.superBlock xs with checksum } w.devices.length sizes size).run (holding c) =
      .ok (w.devices.mapIdx (openedDevice sizes)) := by
  have hslots := ondiskExtraDevices_eq w xs checksum
  have hflat : decide (w.devices.length = 0 ∧ 0 < w.devices.length) = false := by
    rw [decide_eq_false_iff_not]
    omega
  unfold openDevices
  dsimp only
  rw [hslots, if_neg (fun h => h.2 rfl), hflat]
  by_cases hdev : w.devices = []
  · rw [hdev]
    rfl
  · have hoff : ({ w.superBlock xs with checksum } : SuperBlock).devtSlotOff = 9 := if_pos hdev
    have hread :=
      @readDevices_written c sizes { w.superBlock xs with checksum } size 0 w.devices hoff
      (fun i d hd => by rw [Nat.zero_add]; exact hat i d hd) hlt
    simp only [Nat.zero_add] at hread
    exact hread

theorem blockSize_opened (hw : w.Sized) (xs : List Planned) {img : Image}
    (h : ∃ checksum, img.sb = { w.superBlock xs with checksum }) : img.blockSize = w.blockSize := by
  obtain ⟨bits, hlo, hhi, hbs⟩ := hw
  obtain ⟨checksum, hsb⟩ := h
  have hbits : img.sb.blkSizeBits = bits := by
    rw [hsb]
    change blkBits w.blockSize = bits
    rw [hbs, blkBits_two_pow hlo hhi]
  rw [Image.blockSize, hbits, hbs]

/-- An image with an entry has its first inode inside. -/
theorem metaStart_lt (h : w.Prepared xs) (hlimits : w.checkLimits (xs.map Prod.fst) = .ok ())
    (hne : xs ≠ []) (hlaid : w.LaidOut xs (c 0)) :
    (w.assignDataBlocks (xs.map Prod.fst)).2 * w.blockSize + 32 ≤ (c 0).length := by
  obtain ⟨hready, -⟩ := assigned_ready h hlimits
  have hpairs := @assignedFrom_pairs w xs w.sbAreaBlocks
  rw [← (assigned_eq h hlimits).1] at hpairs
  have hsome : w.assigned xs ≠ [] := by
    intro hnil
    rw [hnil] at hpairs
    exact hne hpairs.symm
  obtain ⟨a, ha⟩ := List.exists_mem_of_ne_nil _ hsome
  obtain ⟨hr, hm⟩ := hready a ha
  have hhead := length_inodeHeader hr hm
  have hcore := inodeCoreSize_cases a.plan.compact
  rw [Plan.headerSize] at hhead
  have hlen : 32 ≤ (w.inodeHeader a ++ w.trailing a).length := by
    rw [List.length_append]
    omega
  have hend := (hlaid.inodes a ha).end_le (List.ne_nil_of_length_pos (by omega))
  omega

/-- The checks of the geometry pass, and the whole image is what can be read, whether its reader
tells its length or not. -/
theorem openGeometry_written (h : w.Prepared xs)
    (hlimits : w.checkLimits (xs.map Prod.fst) = .ok ()) (hne : xs ≠ [])
    (hlaid : w.LaidOut xs (c 0)) (hsb : ∃ checksum, img.sb = { w.superBlock (xs.map Prod.fst) with
      checksum }) (hsize : img.size = 0 ∨ img.size = (c 0).length) :
    openGeometry img = .ok { img with size := (c 0).length } := by
  have hbs := blockSize_opened h.sized _ hsb
  have hroot := rootNid_eq h
  have hmeta := metaStart_lt h hlimits hne hlaid
  have htotal := totalBlocks_bound h hlimits
  have hhi := h.sized.hi
  have hlen := hlaid.length
  have hbound : (c 0).length ≤ 2 ^ 32 * 65536 := by
    rw [hlen]
    exact Nat.mul_le_mul (by omega) hhi
  obtain ⟨checksum, hsb⟩ := hsb
  have hblocks : img.sb.blocks = w.totalBlocks (xs.map Prod.fst) := by rw [hsb]; rfl
  have hcompr : checkCompression img.sb = .ok () := by
    have hbit := (superBlock_incompat w (xs.map Prod.fst)).2.2.1
    rw [hsb]
    unfold checkCompression
    dsimp only
    rw [hbit]
    rfl
  have hdeclared : img.withDeclaredSize = .ok { img with size := (c 0).length } := by
    unfold Image.withDeclaredSize
    dsimp only
    rw [hblocks, hbs, ← hlen]
    rcases hsize with hzero | hknown
    · rw [hzero, if_neg (lt_irrefl 0)]
    · rw [if_pos (by omega), if_neg (by omega), ← hknown]
  have hstart : ({ img with size := ((c 0).length : Int) } : Image).metaStartPos =
      (w.assignDataBlocks (xs.map Prod.fst)).2 * w.blockSize := by
    change img.sb.metaBlkAddr * img.blockSize = _
    rw [hbs, hsb]
    rfl
  generalize (w.assignDataBlocks (xs.map Prod.fst)).2 * w.blockSize = start at hmeta hstart
  have hnid : ({ img with size := ((c 0).length : Int) } : Image).checkNid img.sb.rootNid =
      .ok () := by
    have hzero : img.sb.rootNid = 0 := by
      rw [hsb]
      exact hroot
    unfold Image.checkNid Image.inodeStart
    rw [hzero, hstart, Nat.zero_mul, Nat.add_zero, if_neg, if_neg]
    · simp only [Disk.sizeInodeCompact]
      omega
    · simp only [Disk.sizeInodeExtended, Disk.sizeInodeCompact, maxInt64]
      omega
  have hgeo : ({ img with size := ((c 0).length : Int) } : Image).checkGeometry = .ok () := by
    have hxattr : img.sb.xattrBlkAddr = 0 := by
      rw [hsb]
      rfl
    have hdir : img.sb.dirBlkBits = 0 := by
      rw [hsb]
      rfl
    unfold Image.checkGeometry
    rw [hstart]
    dsimp only
    rw [hnid, hxattr, Nat.zero_mul, if_neg (by omega), if_neg (by omega), hdir]
    rfl
  unfold openGeometry
  rw [hcompr, ok_bind, hdeclared, ok_bind, hgeo]
  rfl

/-- The checksum is verified over the bytes it was made from. -/
theorem verifySuperblockChecksum_written {span : Bytes} (hat : HasAt (c 0) 1032 span)
    (hspan : span.length = checksumSpan sb.blkSizeBits)
    (hsum : sb.checksum = superblockChecksum span) :
    (verifySuperblockChecksum sb).run (holding c) = .ok () := by
  have hread := run_hasAt hat
  rw [hspan] at hread
  unfold verifySuperblockChecksum
  split_ifs
  · rfl
  · rw [Prog.run_bind]
    change checkChecksum sb
      ((readerAt 0 (1032 : ℕ) (checksumSpan sb.blkSizeBits)).run (holding c)) = _
    rw [hread]
    unfold checkChecksum
    dsimp only [Answer.hardError, Option.filter]
    rw [if_neg (not_not.2 hspan), if_neg (not_not.2 hsum.symm)]

/-- **Opening.**  `Open` of an image that was written, given its devices, returns it with the
superblock it was written with; whether the reader tells its length does not matter. -/
theorem openImage_written (h : w.Prepared xs) (hlimits : w.checkLimits (xs.map Prod.fst) = .ok ())
    (hne : xs ≠ []) (htime : w.buildTime < 2 ^ 64) (htimeNs : w.buildTimeNs < 2 ^ 32)
    (hlaid : w.LaidOut xs (c 0)) (hsizes : sizes 0 = none ∨ sizes 0 = some ((c 0).length : Int)) :
    ∃ img, (openImage w.devices.length sizes).run (holding c) = .ok img ∧
      w.Opens xs (c 0).length sizes img := by
  obtain ⟨area, harea, -, hfront⟩ := hlaid.area
  obtain ⟨bits, hlo, hhi, hbs⟩ := h.sized
  obtain ⟨span, hspan, hspanat, hsbat, hslots⟩ := writeBlock0_at h.sized hbs hlo hhi harea
  have hlt : ∀ d ∈ w.devices, d < 2 ^ 32 := writeBlock0_iff.1 ⟨area, harea⟩
  have hin : ∀ {k : ℕ} {y : Bytes}, HasAt area k y → HasAt (c 0) k y := fun hy => by
    have := hfront.within hy
    rwa [Nat.zero_add] at this
  have hfits := superBlock_fits h hlimits htime htimeNs span
  have hdecode := decodeSuperBlock_marshal hfits (xs.map Prod.fst).length
  have hsbread := run_hasAt (hin hsbat)
  rw [length_marshalSuperBlock] at hsbread
  have hbits : (w.superBlock (xs.map Prod.fst)).blkSizeBits = bits := by
    change blkBits w.blockSize = bits
    rw [hbs, blkBits_two_pow hlo hhi]
  have hincompat := (superBlock_incompat w (xs.map Prod.fst)).2.1
  have hverify := @verifySuperblockChecksum_written c
    { w.superBlock (xs.map Prod.fst) with checksum := superblockChecksum span } span (hin hspanat)
    (by rw [hspan]; exact congrArg checksumSpan hbits.symm) rfl
  have hdevices := @openDevices_written c sizes ((sizes 0).getD 0) w (xs.map Prod.fst)
    (superblockChecksum span) (fun i d hd => hin (hslots i d hd)) hlt
  set sb : SuperBlock :=
    { w.superBlock (xs.map Prod.fst) with checksum := superblockChecksum span } with hsb
  have hidentity : checkIdentity sb = .ok () := by
    have hmagic : sb.magicNumber = 0xe0f5e1e2 := rfl
    have hsbbits : sb.blkSizeBits = bits := hbits
    unfold checkIdentity
    rw [if_neg (not_not.2 hmagic), hsbbits, if_neg (by omega)]
  have hfeatures : checkFeatures sb = .ok () := by
    have hroom : ¬ max (2 ^ sb.blkSizeBits) 4096 - Disk.superBlockOffset <
        Disk.sizeSuperBlock + sb.extSlots * 16 := by
      have := le_max_right (2 ^ sb.blkSizeBits) 4096
      change ¬ _ - 1024 < 128 + 0 * 16
      omega
    have hmask : sb.featureIncompat &&& 0xffffff92 = 0 := hincompat
    have hishare : sb.featureCompat &&& 0x20 = 0 := (by decide : 1 &&& 0x20 = 0)
    unfold checkFeatures
    rw [if_neg (not_not.2 hmask), if_neg hroom, if_neg (fun h => h.1 hishare)]
  have hgeometry := @openGeometry_written w xs c
    { sb, size := (sizes 0).getD 0, devices := w.devices.mapIdx (openedDevice sizes),
      deviceIDMask := deviceIDMask sb } h hlimits hne hlaid ⟨_, hsb⟩ (by
        rcases hsizes with hnone | hsome
        · exact .inl (by rw [hnone]; rfl)
        · exact .inr (by rw [hsome]; rfl))
  refine ⟨⟨sb, (c 0).length, w.devices.mapIdx (openedDevice sizes), deviceIDMask sb, []⟩, ?_,
    ⟨⟨superblockChecksum span, rfl⟩, rfl, rfl, rfl, rfl⟩⟩
  have hsuper : superBlockOf ⟨marshalSuperBlock sb (xs.map Prod.fst).length, none⟩ = .ok sb := by
    unfold superBlockOf
    dsimp only
    rw [if_neg (not_not.2 (length_marshalSuperBlock _ _)), hdecode]
  have hread : (readerAt 0 Disk.superBlockOffset Disk.sizeSuperBlock).run (holding c) =
      ⟨marshalSuperBlock sb (xs.map Prod.fst).length, none⟩ := hsbread
  unfold openImage
  rw [Prog.exec_bind, Prog.run_bind, hread]
  dsimp only [Prog.run_done]
  rw [hsuper]
  dsimp only
  unfold openSuperBlock
  rw [hidentity]
  dsimp only
  rw [Prog.exec_bind, hverify]
  dsimp only
  rw [hfeatures]
  dsimp only
  rw [Prog.exec_bind, hdevices]
  dsimp only
  rw [hgeometry]
  rfl

theorem ErofsWriter.Opens.readsFrom {length : ℕ} (h : w.Opens xs length sizes img)
    (hp : w.Prepared xs) : img.ReadsFrom w := by
  have hbs := blockSize_opened hp.sized _ h.sb
  have hmask := h.mask
  obtain ⟨checksum, hsb⟩ := h.sb
  refine ⟨hbs, ?_, ?_, ?_, ?_, hmask, hp.devices⟩
  · rw [hsb]
    rfl
  · rw [hsb]
    rfl
  · rw [hsb]
    exact extraDevices_eq w (xs.map Prod.fst)
  · rw [hsb]
    exact (superBlock_incompat w (xs.map Prod.fst)).2.2.2

/-- **Writing and opening.**  What `write` leaves of prepared entries is opened, by a caller who
gives the devices that were declared: the checksum holds, the extent is the whole image, and the
superblock and the device table are the writer's. -/
theorem write_opens {out out' : Out} (h : w.Prepared xs) (hne : xs ≠ [])
    (htime : w.buildTime < 2 ^ 64) (htimeNs : w.buildTimeNs < 2 ^ 32)
    (hok : w.write xs out = .ok out') (hnew : out.bytes = []) (hpos : out.pos = 0)
    (hc : c 0 = out'.bytes) (hsizes : sizes 0 = none ∨ sizes 0 = some ((c 0).length : Int)) :
    ∃ img, (openImage w.devices.length sizes).run (holding c) = .ok img ∧
      w.Opens xs (c 0).length sizes img ∧ img.ReadsFrom w := by
  have hlaid := write_laid h hok hnew hpos
  rw [← hc] at hlaid
  obtain ⟨_, hlimits, -⟩ := except_bind_ok hok
  obtain ⟨img, hopen, hopens⟩ := openImage_written h hlimits hne htime htimeNs hlaid hsizes
  exact ⟨img, hopen, hopens, hopens.readsFrom h⟩

/-- The image of a directory and a file is opened from a reader that does not tell its length. -/
theorem tailTree_opens :
    ∃ out' img, tailWriter.write tailTree {} = .ok out' ∧
      (openImage 0 fun _ => none).run (holding fun _ => out'.bytes) = .ok img ∧
      tailWriter.Opens tailTree out'.bytes.length (fun _ => none) img ∧ img.size = 5 * 512 := by
  obtain ⟨out', hok⟩ :=
    @write_never tailWriter tailTree {} tailTree_prepared (by decide) (by decide) fun _ => rfl
  obtain ⟨img, hopen, hopens, -⟩ := @write_opens tailWriter tailTree (fun _ => out'.bytes)
    (fun _ => none) {} out' tailTree_prepared (by decide) (by decide) (by decide) hok rfl rfl rfl
    (.inl rfl)
  have hlen := (write_laid tailTree_prepared hok rfl rfl).length
  refine ⟨out', img, hok, hopen, hopens, ?_⟩
  rw [hopens.size, hlen]
  decide

end Opening

end Erofs
