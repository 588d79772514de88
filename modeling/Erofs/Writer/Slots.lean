import Erofs.Laid
import Erofs.Writer.Limits

/-!
# The slots of the metadata area

`planLayout` hands out nids as byte offsets: the slot of an inode starts at 32 times its nid and
holds the inode, its attributes, its chunk map or inline data, and padding.  The reader finds
nothing there but by that arithmetic, so the slots have to follow each other without overlap, and
what the reader takes from one block has to be in one block.

The main results:

* `planEntry_slot` — what one turn of the loop decides of a slot;
* `planLayout_slots` — the slots of a whole plan, one after the other;
* `slots_sound` — no two slots overlap, and what has to be in one block is.
-/

namespace Erofs

open GoPath

namespace Plan

variable (p : Plan)

/-- Where the slot of an inode starts in the metadata area. -/
def off : ℕ := p.nid * 32

/-- The inode and its attributes. -/
def headerSize : ℕ := inodeCoreSize p.compact + p.xattrSize

/-- What `writeMetadataInodes` counts for an inode before the padding of its slot. -/
def used : ℕ := p.headerSize + p.chunkPad + p.trailingSize

/-- The end of the slot. -/
def slotEnd : ℕ := p.off + inodeSlotAlign p.used

end Plan

/-- The slot of a plan made at the offset `cur`: it starts there or less than a block later, and
what the reader takes from one block is in one block. -/
structure ErofsWriter.Slot (w : ErofsWriter) (cur : ℕ) (p : Plan) : Prop where
  start : cur ≤ p.off
  gap : p.off < cur + w.blockSize
  core : p.off % w.blockSize + inodeCoreSize p.compact ≤ w.blockSize
  inline : p.layout = .flatInline →
    p.off % w.blockSize + (p.headerSize + p.trailingSize) ≤ w.blockSize
  /-- A chunk map starts at a multiple of eight. -/
  aligned : p.layout = .chunkBased → p.trailingSize ≠ 0 → (p.headerSize + p.chunkPad) % 8 = 0
  unpadded : p.layout ≠ .chunkBased → p.chunkPad = 0
  padLt : p.chunkPad < 8

/-- The slots of plans from `cur` on, the last one ending at the second offset. -/
inductive ErofsWriter.Slots (w : ErofsWriter) : ℕ → List Plan → ℕ → Prop
  | nil (cur : ℕ) : Slots w cur [] cur
  | cons {cur stop : ℕ} {p : Plan} {ps : List Plan} (h : w.Slot cur p)
      (hps : Slots w p.slotEnd ps stop) : Slots w cur (p :: ps) stop

/-- The block sizes `setBlockSize` lets through. -/
def ErofsWriter.Sized (w : ErofsWriter) : Prop :=
  ∃ bits, 9 ≤ bits ∧ bits ≤ 16 ∧ w.blockSize = 2 ^ bits

section Slots

variable {w : ErofsWriter} {e : ErofsEntry} {es : List (ErofsEntry × ℕ)} {direntSize cur stop : ℕ}
  {ps : List Plan}

namespace ErofsWriter.Sized

theorem lo (h : w.Sized) : 512 ≤ w.blockSize := by
  obtain ⟨bits, hlo, -, heq⟩ := h
  rw [heq]
  exact Nat.pow_le_pow_right Nat.two_pos hlo

theorem hi (h : w.Sized) : w.blockSize ≤ 65536 := by
  obtain ⟨bits, -, hhi, heq⟩ := h
  rw [heq]
  exact Nat.pow_le_pow_right Nat.two_pos hhi

/-- A block is a whole number of slot units. -/
theorem mod (h : w.Sized) : w.blockSize % 32 = 0 := by
  obtain ⟨bits, hlo, -, heq⟩ := h
  rw [heq]
  exact Nat.mod_eq_zero_of_dvd (pow_dvd_pow 2 (by omega : 5 ≤ bits))

end ErofsWriter.Sized

theorem inodeCoreSize_cases (compact : Bool) :
    inodeCoreSize compact = 32 ∨ inodeCoreSize compact = 64 := by
  cases compact
  · exact .inr rfl
  · exact .inl rfl

/-- Where an inode core may start: at the next slot unit or at the next block. -/
theorem inodeOff_spec (hw : w.Sized) {size : ℕ} (hsize : size = 32 ∨ size = 64)
    (hcur : cur % 32 = 0) :
    cur ≤ w.inodeOff cur size ∧ w.inodeOff cur size < cur + w.blockSize ∧
      w.inodeOff cur size % 32 = 0 ∧ w.inodeOff cur size % w.blockSize + size ≤ w.blockSize := by
  have hlo := hw.lo
  have hmod := hw.mod
  obtain ⟨hle, hlt⟩ := @ceil_mul cur w.blockSize (by omega)
  unfold ErofsWriter.inodeOff
  split_ifs with hcross
  · refine ⟨hle, hlt, ?_, ?_⟩
    · rw [Nat.mul_mod, hmod, Nat.mul_zero, Nat.zero_mod]
    · rw [Nat.mul_mod_left]
      omega
  · exact ⟨le_rfl, by omega, hcur, by omega⟩

theorem inodeSlotAlign_spec (n : ℕ) :
    n ≤ inodeSlotAlign n ∧ inodeSlotAlign n < n + 32 ∧ inodeSlotAlign n % 32 = 0 := by
  unfold inodeSlotAlign
  omega

theorem chunkIndexPad_spec (compact : Bool) (xattrSize : ℕ) (layout : Layout) (trailing : ℕ) :
    (layout = .chunkBased → trailing ≠ 0 → (inodeCoreSize compact + xattrSize +
      chunkIndexPad compact xattrSize layout trailing) % 8 = 0) ∧
    (layout ≠ .chunkBased → chunkIndexPad compact xattrSize layout trailing = 0) ∧
    chunkIndexPad compact xattrSize layout trailing < 8 := by
  unfold chunkIndexPad
  dsimp only
  split_ifs with hnone hrem
  · refine ⟨fun hl ht => ?_, fun _ => rfl, by omega⟩
    rcases hnone with h | h
    · exact absurd hl h
    · exact absurd h ht
  · push Not at hnone
    exact ⟨fun _ _ => by omega, fun hl => absurd hnone.1 hl, by omega⟩
  · push Not at hnone
    exact ⟨fun _ _ => by omega, fun _ => rfl, by omega⟩

/-- **One turn.**  The slot of an entry placed at `cur`, and the offset the next one is placed
at. -/
theorem planEntry_slot (hw : w.Sized) (hcur : cur % 32 = 0) (e : ErofsEntry) (direntSize : ℕ) :
    w.Slot cur (w.planEntry e direntSize cur).1 ∧
      (w.planEntry e direntSize cur).2 = (w.planEntry e direntSize cur).1.slotEnd ∧
      (w.planEntry e direntSize cur).2 % 32 = 0 := by
  obtain ⟨hle, hlt, hunit, hcore⟩ :=
    inodeOff_spec hw (inodeCoreSize_cases (w.isCompact e direntSize)) hcur
  set p := (w.planEntry e direntSize cur).1 with hp
  set off := w.inodeOff cur (inodeCoreSize (w.isCompact e direntSize)) with hoffdef
  have hoff : p.off = off := by
    change off / 32 * 32 = off
    omega
  obtain ⟨haligned, hunpadded, hpad⟩ :=
    chunkIndexPad_spec p.compact p.xattrSize p.layout p.trailingSize
  have hnext : (w.planEntry e direntSize cur).2 = p.slotEnd := by
    rw [Plan.slotEnd, hoff]
    rfl
  refine ⟨⟨?_, ?_, ?_, ?_, haligned, hunpadded, hpad⟩, hnext, ?_⟩
  · omega
  · omega
  · rw [hoff]
    exact hcore
  · intro hinline
    rw [hoff]
    -- the test after the inode was moved is the one that decides
    by_contra hcross
    have hsame : p.trailingSize =
        w.calcTrailingSize e direntSize p.layout p.chunkBits := rfl
    have hchosen : w.chooseLayout e direntSize cur
        (inodeCoreSize (w.isCompact e direntSize) + calcXattrSize e.xattrs) = .flatInline := by
      by_contra hne
      have : p.layout = w.chooseLayout e direntSize cur
          (inodeCoreSize (w.isCompact e direntSize) + calcXattrSize e.xattrs) := by
        rw [hp]
        unfold ErofsWriter.planEntry
        dsimp only
        rw [if_neg (fun h => hne h.1)]
      exact hne (this ▸ hinline)
    have hmoved : p.layout = .flatPlain := by
      rw [hp] at hcross hsame hinline ⊢
      unfold ErofsWriter.planEntry at hcross hsame hinline ⊢
      dsimp only [Plan.headerSize] at hcross hsame hinline ⊢
      rw [hchosen] at hcross hinline ⊢
      split_ifs at hinline with hcond
      rw [if_neg hcond] at hcross
      rw [if_pos ⟨rfl, by rw [← hoffdef]; omega⟩]
    rw [hmoved] at hinline
    cases hinline
  · have hslot := (inodeSlotAlign_spec p.used).2.2
    rw [hnext, Plan.slotEnd, hoff]
    omega

/-- **A whole plan.**  The slots of the entries from `cur` on, and `metadataBytes` comes to the end
of the last one. -/
theorem planEntries_slots (hw : w.Sized) (hcur : cur % 32 = 0) :
    w.Slots cur (w.planEntries es cur) (((es.zip (w.planEntries es cur)).map fun x =>
      (⟨x.1.1, x.1.2, x.2⟩ : Planned)).foldl ErofsWriter.metadataEnd cur) := by
  induction es generalizing cur with
  | nil => exact .nil cur
  | cons x es ih =>
    obtain ⟨e, direntSize⟩ := x
    obtain ⟨hslot, hnext, hunit⟩ := planEntry_slot hw hcur e direntSize
    have hend : ErofsWriter.metadataEnd cur ⟨e, direntSize, (w.planEntry e direntSize cur).1⟩ =
        (w.planEntry e direntSize cur).1.slotEnd := by
      have hmax := max_eq_right hslot.start
      rw [Plan.off] at hmax
      rw [ErofsWriter.metadataEnd]
      dsimp only
      rw [hmax]
      rfl
    have ih := ih hunit
    rw [ErofsWriter.planEntries, List.zip_cons_cons, List.map_cons, List.foldl_cons, hend]
    rw [hnext] at ih ⊢
    exact .cons hslot ih

theorem planLayout_slots (hw : w.Sized) (es : List (ErofsEntry × ℕ)) :
    w.Slots 0 (w.planLayout es) (ErofsWriter.metadataBytes (w.planned es)) :=
  planEntries_slots hw rfl

namespace ErofsWriter.Slots

theorem le (h : w.Slots cur ps stop) : cur ≤ stop := by
  induction h with
  | nil cur => exact le_rfl
  | @cons cur stop p ps h _ ih =>
    have := h.start
    have := (inodeSlotAlign_spec p.used).1
    unfold Plan.slotEnd at ih
    omega

/-- Every slot lies between the two offsets. -/
theorem mem (h : w.Slots cur ps stop) {p : Plan} (hp : p ∈ ps) :
    cur ≤ p.off ∧ p.slotEnd ≤ stop ∧ ∃ c, w.Slot c p := by
  induction h with
  | nil cur => cases hp
  | @cons cur stop q ps h hps ih =>
    rcases List.mem_cons.1 hp with rfl | hp
    · exact ⟨h.start, hps.le, cur, h⟩
    · obtain ⟨hle, hstop, hslot⟩ := ih hp
      have := h.start
      have hq : q.off ≤ q.slotEnd := Nat.le_add_right _ _
      exact ⟨by omega, hstop, hslot⟩

theorem pairwise (h : w.Slots cur ps stop) : ps.Pairwise fun p q => p.slotEnd ≤ q.off := by
  induction h with
  | nil cur => exact .nil
  | cons h hps ih => exact .cons (fun q hq => (hps.mem hq).1) ih

end ErofsWriter.Slots

/-- What the reader relies on in a plan: slots in order without overlap, all of them before the end
of the metadata, an inode in one block with the data kept behind it, and a chunk map where the
reader rounds up to. -/
structure ErofsWriter.SlotsSound (w : ErofsWriter) (es : List (ErofsEntry × ℕ)) : Prop where
  root : ∀ p, (w.planLayout es).head? = some p → p.nid = 0
  disjoint : (w.planLayout es).Pairwise fun p q => p.slotEnd ≤ q.off
  inside : ∀ p ∈ w.planLayout es, p.slotEnd ≤ ErofsWriter.metadataBytes (w.planned es)
  core : ∀ p ∈ w.planLayout es, p.off % w.blockSize + inodeCoreSize p.compact ≤ w.blockSize
  inline : ∀ p ∈ w.planLayout es, p.layout = .flatInline →
    p.off % w.blockSize + (p.headerSize + p.trailingSize) ≤ w.blockSize
  aligned : ∀ p ∈ w.planLayout es, p.layout = .chunkBased → p.trailingSize ≠ 0 →
    (p.off + p.headerSize + p.chunkPad) % 8 = 0

/-- The first slot of a plan is at the start of the metadata. -/
theorem planLayout_head (hw : w.Sized) {p : Plan} (h : (w.planLayout es).head? = some p) :
    p.nid = 0 := by
  have hlo := hw.lo
  cases es with
  | nil => cases h
  | cons x es =>
    cases h
    have hcore := inodeCoreSize_cases (w.isCompact x.1 x.2)
    change w.inodeOff 0 (inodeCoreSize (w.isCompact x.1 x.2)) / 32 = 0
    rw [ErofsWriter.inodeOff, Nat.zero_mod, if_neg (by omega)]

/-- **Slots.**  For every block size and every list of entries the plan is sound. -/
theorem slots_sound (hw : w.Sized) (es : List (ErofsEntry × ℕ)) : w.SlotsSound es where
  root _ h := planLayout_head hw h
  disjoint := (planLayout_slots hw es).pairwise
  inside _ hp := ((planLayout_slots hw es).mem hp).2.1
  core _ hp := by
    obtain ⟨c, hslot⟩ := ((planLayout_slots hw es).mem hp).2.2
    exact hslot.core
  inline _ hp hlay := by
    obtain ⟨c, hslot⟩ := ((planLayout_slots hw es).mem hp).2.2
    exact hslot.inline hlay
  aligned p hp hlay htrail := by
    obtain ⟨c, hslot⟩ := ((planLayout_slots hw es).mem hp).2.2
    have := hslot.aligned hlay htrail
    have : p.off = p.nid * 32 := rfl
    omega

/-- The directory takes three slot units, and the file is behind it. -/
theorem tailSet_slots :
    tailWriter.Sized ∧ (tailWriter.planLayout tailSet).map Plan.off = [0, 96] ∧
      tailWriter.SlotsSound tailSet :=
  ⟨⟨9, by decide, by decide, rfl⟩, by decide, slots_sound ⟨9, by decide, by decide, rfl⟩ tailSet⟩

end Slots

end Erofs
