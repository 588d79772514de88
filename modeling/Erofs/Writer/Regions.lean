import Erofs.Writer.Serialize

/-!
# Where the regions of an image stand

`write` puts out bytes one after the other and never looks at the addresses it has handed out: that
the data of a file ends up at its block, and an inode at 32 times its nid, rests on `planLayout`,
`assignDataBlocks` and the loops of `write` counting alike.

The main results:

* `entryBytes_eq`, `writeMetadataInode_eq` — what is written for one entry, and how much;
* `writeInodes_eq`, `regions_at` — the loops over all of them;
* `write_laid` — an image that was written has every region where the reader looks for it;
* `write_succeeds_iff` — `write` fails for no other reason than its limits and its output.
-/

namespace Erofs

open GoPath LittleEndian

/-! ## What an entry is made of -/

namespace ErofsWriter

variable (w : ErofsWriter)

/-- The bytes of an entry: of a file, as many as its size says. -/
def content (x : Planned) (dir : ErofsDir) : Bytes :=
  if x.entry.mode.typ = Mode.reg then (x.entry.data.map fun r => r.bytes.take x.entry.size).getD []
  else if x.entry.mode.typ = Mode.dir then writeDirents w.blockSize dir
  else if x.entry.mode.typ = Mode.symlink then x.entry.symTarget
  else []

/-- Bytes with the padding that fills up their last block. -/
def filled (b : Bytes) : Bytes :=
  b ++ List.replicate ((w.blockSize - b.length % w.blockSize) % w.blockSize) nulByte

/-- The blocks of an entry: its data, where it has blocks of its own, and its tail. -/
def region (a : Assigned) : Bytes :=
  (if flatPlainDataSize a.planned = 0 then [] else w.filled (w.content a.planned a.dir)) ++
    w.filled a.planned.entry.tail

/-- What follows an inode and its attributes. -/
def trailing (a : Assigned) : Bytes :=
  if a.plan.layout = .chunkBased then
    List.replicate a.plan.chunkPad nulByte ++ w.writeChunkIndexes a.plan.chunkBits a.entry
  else if a.plan.layout = .flatInline then w.content a.planned a.dir
  else []

/-- An entry that can be written: its reader has as much as its size says, its tail is at most a
block, and its dirents are those it was planned with. -/
structure Ready (x : Planned) (dir : ErofsDir) : Prop where
  size : x.entry.size < 2 ^ 63
  names : (x.entry.xattrs.map (·.1)).Nodup
  data : x.entry.mode.typ = Mode.reg → x.plan.layout ≠ .chunkBased → 0 < x.entry.size →
    ∃ r, x.entry.data = some r ∧ x.entry.size ≤ r.bytes.length
  tail : x.entry.tail.length ≤ w.blockSize
  direntSize : x.entry.mode.typ = Mode.dir → x.direntSize = calcDirentDataSize w.blockSize dir
  dirents : x.entry.mode.typ = Mode.dir → dir.Ok

/-- What the sizes of a plan are made from. -/
structure Made (x : Planned) : Prop where
  xattrSize : x.plan.xattrSize = calcXattrSize x.entry.xattrs
  trailingSize : x.plan.trailingSize =
    w.calcTrailingSize x.entry x.direntSize x.plan.layout x.plan.chunkBits
  chunkPad : x.plan.chunkPad =
    chunkIndexPad x.plan.compact x.plan.xattrSize x.plan.layout x.plan.trailingSize
  layout : x.plan.layout = .flatPlain ∨ x.plan.layout = .flatInline ∨
    x.plan.layout = .chunkBased ∧ x.entry.mode.typ = Mode.reg

end ErofsWriter

section Entry

variable {w : ErofsWriter} {x : Planned} {dir : ErofsDir} {a : Assigned}
  {es : List (ErofsEntry × ℕ)}

theorem planned_made (hx : x ∈ w.planned es) : w.Made x := by
  obtain ⟨-, off, hplan⟩ := planned_mem hx
  refine ⟨?_, ?_, ?_, ?_⟩
  · rw [hplan]
    rfl
  · rw [hplan]
    rfl
  · rw [hplan]
    rfl
  · rw [hplan]
    exact ErofsWriter.planEntry_layout _ _ _

/-- The tail adds to the chunks of an entry and changes nothing else. -/
theorem Assigned.entry_eq (a : Assigned) :
    a.entry = { a.planned.entry with chunks := a.entry.chunks } := by
  unfold Assigned.entry ErofsEntry.withTail
  split_ifs <;> rfl

theorem length_writeDirents {bs : ℕ} (hbs : 512 ≤ bs) (h : dir.Ok) :
    (writeDirents bs dir).length = calcDirentDataSize bs dir := by
  have hshort : ∀ de ∈ allEnts dir, de.name.length ≤ 255 := fun de hde =>
    (h.dirents_fits de (allEnts_perm.mem_iff.1 hde)).2
  rw [calcDirentDataSize_eq hbs, ← namesOf_allEnts, calcBlocks_eq hbs hshort, namesOf,
    List.length_map]
  rfl

/-! ## Its bytes -/

theorem copyLimited_ok {what : String} {p : Path} {r : Reader} {n : ℕ} (h : n ≤ r.bytes.length) :
    copyLimited what p r n = .ok (r.bytes.take n) := by
  have hlen : (r.bytes.take n).length = n := by rw [List.length_take, min_eq_left h]
  have hshort : ¬ (r.bytes.length : Int) < n := by omega
  unfold copyLimited
  dsimp only
  rw [if_neg hshort, Int.toNat_natCast, hlen]
  dsimp only
  rw [if_neg (not_not.2 rfl)]

/-- A file that is not chunk-based has all of its bytes. -/
theorem content_reg (h : w.Ready x dir) (hreg : x.entry.mode.typ = Mode.reg)
    (hlay : x.plan.layout ≠ .chunkBased) : (w.content x dir).length = x.entry.size := by
  rw [ErofsWriter.content, if_pos hreg]
  rcases Nat.eq_zero_or_pos x.entry.size with hzero | hpos
  · cases x.entry.data <;> simp [hzero]
  · obtain ⟨r, hr, hle⟩ := h.data hreg hlay hpos
    simp [hr, hle]

theorem content_dir (hw : w.Sized) (h : w.Ready x dir) (hdir : x.entry.mode.typ = Mode.dir) :
    w.content x dir = writeDirents w.blockSize dir ∧
      (writeDirents w.blockSize dir).length = x.direntSize := by
  refine ⟨?_, ?_⟩
  · rw [ErofsWriter.content, if_neg (by rw [hdir]; decide), if_pos hdir]
  · rw [length_writeDirents hw.lo (h.dirents hdir), h.direntSize hdir]

theorem content_symlink (hlink : x.entry.mode.typ = Mode.symlink) :
    w.content x dir = x.entry.symTarget := by
  rw [ErofsWriter.content, if_neg (by rw [hlink]; decide), if_neg (by rw [hlink]; decide),
    if_pos hlink]

/-- Data with blocks of its own is all of the entry's bytes. -/
theorem flatPlainDataSize_eq (hw : w.Sized) (h : w.Ready x dir)
    (hlay : x.plan.layout = .flatPlain) :
    ErofsWriter.flatPlainDataSize x = (w.content x dir).length := by
  have hsize : int64 x.entry.size = x.entry.size :=
    int64_of (by omega) (by have := h.size; rw [maxInt64]; omega)
  have hnot : x.plan.layout ≠ .chunkBased := by
    rw [hlay]
    decide
  rw [ErofsWriter.flatPlainDataSize, if_neg (not_not.2 hlay)]
  split_ifs with hreg hdata hdir hlink
  · rw [content_reg h hreg hnot, hsize]
  · -- a file of some size has data
    rw [content_reg h hreg hnot]
    rcases Nat.eq_zero_or_pos x.entry.size with hzero | hpos
    · rw [hzero]
      rfl
    · obtain ⟨r, hr, -⟩ := h.data hreg hnot hpos
      exact absurd ⟨hpos, by rw [hr]; exact Option.some_ne_none r⟩ hdata
  · obtain ⟨hcontent, hlen⟩ := content_dir hw h hdir
    rw [hcontent, hlen]
  · rw [content_symlink hlink]
  · rw [ErofsWriter.content, if_neg hreg, if_neg hdir, if_neg hlink]
    rfl

/-- Inline data is all of the entry's bytes. -/
theorem trailingSize_inline (hw : w.Sized) (h : w.Ready x dir) (hm : w.Made x)
    (hlay : x.plan.layout = .flatInline) :
    x.plan.trailingSize = (w.content x dir).length := by
  have hnot : x.plan.layout ≠ .chunkBased := by
    rw [hlay]
    decide
  have hother : Mode.dir ≠ Mode.reg ∧ Mode.symlink ≠ Mode.reg ∧ Mode.symlink ≠ Mode.dir := by decide
  rw [hm.trailingSize, ErofsWriter.calcTrailingSize, if_neg hnot, if_pos hlay]
  split_ifs with hreg hkind
  · exact (content_reg h hreg hnot).symm
  · rcases hkind.2 with hdir | hlink
    · obtain ⟨hcontent, hlen⟩ := content_dir hw h hdir
      rw [inodeFileSize, if_pos hdir, hcontent, hlen]
    · rw [inodeFileSize, hlink, if_neg hother.2.2, if_pos rfl, content_symlink hlink]
  · push Not at hkind
    obtain ⟨hdir, hlink⟩ := hkind hlay
    rw [ErofsWriter.content, if_neg hreg, if_neg hdir, if_neg hlink]
    rfl

/-! ## Its blocks -/

theorem zeroBuf_ok {n : ℕ} (h : n ≤ w.blockSize) :
    w.zeroBuf n = .ok (List.replicate n nulByte) := if_pos h

theorem blockPad_ok (hbs : 0 < w.blockSize) (n : ℕ) : w.blockPad n =
    .ok (List.replicate ((w.blockSize - n % w.blockSize) % w.blockSize) nulByte) :=
  zeroBuf_ok (Nat.mod_lt _ hbs).le

theorem length_filled (hbs : 0 < w.blockSize) (b : Bytes) :
    (w.filled b).length = (b.length + w.blockSize - 1) / w.blockSize * w.blockSize := by
  rw [ErofsWriter.filled, List.length_append, List.length_replicate, add_pad hbs]

theorem flatPlain_of_size (h : ErofsWriter.flatPlainDataSize x ≠ 0) :
    x.plan.layout = .flatPlain := by
  by_contra hlay
  exact h (if_pos hlay)

theorem flatData_eq (hw : w.Sized) (h : w.Ready a.planned a.dir)
    (hne : ErofsWriter.flatPlainDataSize a.planned ≠ 0) :
    w.flatData a = .ok (w.content a.planned a.dir) := by
  have hlay := flatPlain_of_size hne
  have hds := flatPlainDataSize_eq hw h hlay
  have hnot : a.planned.plan.layout ≠ .chunkBased := by
    rw [hlay]
    decide
  unfold ErofsWriter.flatData
  rw [a.entry_eq]
  dsimp only
  split_ifs with hreg hdir hlink
  · have hlen := content_reg h hreg hnot
    obtain ⟨r, hr, hle⟩ := h.data hreg hnot (by omega)
    rw [hr, hds, hlen]
    dsimp only
    rw [copyLimited_ok hle, ErofsWriter.content, if_pos hreg, hr]
    rfl
  · rw [(content_dir hw h hdir).1]
  · rw [content_symlink hlink]
  · rw [ErofsWriter.content, if_neg hreg, if_neg hdir, if_neg hlink]

theorem tailBytes_eq (hbs : 0 < w.blockSize) (a : Assigned) :
    w.tailBytes a = .ok (w.filled a.planned.entry.tail) := by
  unfold ErofsWriter.tailBytes
  rw [a.entry_eq]
  dsimp only
  split_ifs with hnil
  · rw [hnil, ErofsWriter.filled]
    simp
  · rw [blockPad_ok hbs]
    rfl

/-- **The blocks of an entry**, which are as many as `assignDataBlocks` counts. -/
theorem entryBytes_eq (hw : w.Sized) (h : w.Ready a.planned a.dir) :
    w.entryBytes a = .ok (w.region a) ∧
      (w.region a).length = w.dataBlocks a.planned * w.blockSize := by
  have hbs : 0 < w.blockSize := by
    have := hw.lo
    omega
  have htail : (w.filled a.planned.entry.tail).length =
      (if a.planned.entry.tail ≠ [] then 1 else 0) * w.blockSize := by
    rw [length_filled hbs]
    split_ifs with hne
    · have hpos := List.length_pos_iff.2 hne
      have hle := h.tail
      rw [Nat.div_eq_of_lt_le (k := 1) (by omega) (by omega)]
    · rw [not_not.1 hne, List.length_nil, Nat.div_eq_of_lt (by omega)]
  unfold ErofsWriter.entryBytes ErofsWriter.region ErofsWriter.dataBlocks
  dsimp only
  by_cases hds : ErofsWriter.flatPlainDataSize a.planned = 0
  · rw [if_pos hds, if_pos hds, hds, tailBytes_eq hbs]
    refine ⟨rfl, ?_⟩
    rw [List.nil_append, htail]
    simp
  · have hlen := flatPlainDataSize_eq hw h (flatPlain_of_size hds)
    rw [if_neg hds, if_neg hds, flatData_eq hw h hds, tailBytes_eq hbs, hlen,
      Int.toNat_natCast, if_pos (by omega)]
    refine ⟨?_, ?_⟩
    · change (w.blockPad _ >>= _) = _
      rw [blockPad_ok hbs]
      rfl
    · rw [List.length_append, length_filled hbs, htail, ← Nat.add_mul]

/-! ## Its slot -/

theorem trailingSize_chunkBased (hm : w.Made x) (hlay : x.plan.layout = .chunkBased) :
    x.plan.trailingSize = w.chunkCount x.plan.chunkBits x.entry.size * 8 := by
  have hreg : x.entry.mode.typ = Mode.reg := by
    rcases hm.layout with h | h | ⟨-, h⟩
    · rw [hlay] at h
      cases h
    · rw [hlay] at h
      cases h
    · exact h
  rw [hm.trailingSize, ErofsWriter.calcTrailingSize, if_pos hreg, if_pos hlay]
  split_ifs with hempty
  · rw [hempty.1, ErofsWriter.chunkCount]
    simp
  · rfl

theorem chunkPad_spec (hm : w.Made x) :
    (x.plan.layout ≠ .chunkBased → x.plan.chunkPad = 0) ∧
      (x.plan.trailingSize = 0 → x.plan.chunkPad = 0) ∧ x.plan.chunkPad < 8 := by
  obtain ⟨-, hunpadded, hlt⟩ :=
    chunkIndexPad_spec x.plan.compact x.plan.xattrSize x.plan.layout x.plan.trailingSize
  rw [hm.chunkPad]
  exact ⟨hunpadded, fun hzero => if_pos (.inr hzero), hlt⟩

theorem size_entry (a : Assigned) : a.entry.size = a.planned.entry.size :=
  size_withTail _ _

theorem writeTrailing_chunkBased (hw : w.Sized) (hm : w.Made a.planned)
    (hlay : a.planned.plan.layout = .chunkBased) (hreg : a.planned.entry.mode.typ = Mode.reg) :
    w.writeTrailing a = .ok (w.trailing a, a.plan.chunkPad + a.plan.trailingSize) ∧
      (w.trailing a).length = a.plan.chunkPad + a.plan.trailingSize := by
  have hlo := hw.lo
  have hsize := trailingSize_chunkBased hm hlay
  obtain ⟨-, hzero, hlt⟩ := chunkPad_spec hm
  have hindexes : (w.writeChunkIndexes a.plan.chunkBits a.entry).length = a.plan.trailingSize := by
    rw [ErofsWriter.writeChunkIndexes, length_writeIndexes, size_entry]
    exact hsize.symm
  have htrailing : w.trailing a = List.replicate a.plan.chunkPad nulByte ++
      w.writeChunkIndexes a.plan.chunkBits a.entry := if_pos hlay
  have hmode : a.entry.mode.typ = Mode.reg := by
    rw [a.entry_eq]
    exact hreg
  refine ⟨?_, ?_⟩
  · unfold ErofsWriter.writeTrailing
    dsimp only
    rw [if_pos hmode]
    by_cases hmap : 0 < a.entry.size ∨ a.entry.chunks ≠ []
    · rw [if_pos ⟨hlay, hmap⟩, zeroBuf_ok (by change a.planned.plan.chunkPad ≤ _; omega), htrailing]
      rfl
    · -- an empty file without chunks has no map, and none is written
      push Not at hmap
      have hnone : a.planned.plan.trailingSize = 0 := by
        rw [hsize, ← size_entry, Nat.eq_zero_of_le_zero hmap.1, ErofsWriter.chunkCount]
        simp
      have hpad : a.plan.chunkPad = 0 := hzero hnone
      have hplain : a.plan.layout ≠ .flatInline := by
        change a.planned.plan.layout ≠ _
        rw [hlay]
        decide
      have hnil : w.writeChunkIndexes a.plan.chunkBits a.entry = [] :=
        List.eq_nil_of_length_eq_zero (hindexes.trans hnone)
      rw [if_neg (by rintro ⟨-, h | h⟩; exacts [absurd h (by omega), h hmap.2]),
        if_neg (fun h => hplain h.1), htrailing, hnil, hpad]
      change _ = Except.ok ([], 0 + a.planned.plan.trailingSize)
      rw [hnone]
  · rw [htrailing, List.length_append, List.length_replicate, hindexes]

theorem writeTrailing_inline (hw : w.Sized) (h : w.Ready a.planned a.dir) (hm : w.Made a.planned)
    (hlay : a.planned.plan.layout = .flatInline) :
    w.writeTrailing a = .ok (w.trailing a, a.plan.chunkPad + a.plan.trailingSize) ∧
      (w.trailing a).length = a.plan.chunkPad + a.plan.trailingSize := by
  have hnot : a.planned.plan.layout ≠ .chunkBased := by
    rw [hlay]
    decide
  have hlen := trailingSize_inline hw h hm hlay
  have hlay' : a.plan.layout = .flatInline := hlay
  have htrailing : w.trailing a = w.content a.planned a.dir := by
    rw [ErofsWriter.trailing, hlay']
    rfl
  have hcount : a.plan.chunkPad + a.plan.trailingSize = (w.content a.planned a.dir).length := by
    change a.planned.plan.chunkPad + a.planned.plan.trailingSize = _
    rw [(chunkPad_spec hm).1 hnot, Nat.zero_add, hlen]
  rw [hcount, htrailing]
  refine ⟨?_, rfl⟩
  unfold ErofsWriter.writeTrailing
  rw [a.entry_eq]
  dsimp only
  rw [hlay']
  split_ifs with hreg hmap hpos hdir hlink
  · exact absurd hmap.1 (by decide)
  · obtain ⟨r, hr, hle⟩ := h.data hreg hnot hpos.2
    have hcontent : w.content a.planned a.dir = r.bytes.take a.planned.entry.size := by
      rw [ErofsWriter.content, if_pos hreg, hr]
      rfl
    rw [hr, hcontent]
    dsimp only
    rw [copyLimited_ok hle]
    rfl
  · have hzero : (w.content a.planned a.dir).length = 0 := by
      rw [content_reg h hreg hnot]
      by_contra hne
      exact hpos ⟨rfl, Nat.pos_of_ne_zero hne⟩
    rw [List.eq_nil_of_length_eq_zero hzero]
    rfl
  · rw [(content_dir hw h hdir.1).1]
  · rw [content_symlink hlink.1]
  · have hnil : w.content a.planned a.dir = [] := by
      rw [ErofsWriter.content, if_neg hreg, if_neg (fun h => hdir ⟨h, rfl⟩),
        if_neg (fun h => hlink ⟨h, rfl⟩)]
    rw [hnil]
    rfl

theorem writeTrailing_plain (hm : w.Made a.planned)
    (hlay : a.planned.plan.layout = .flatPlain) :
    w.writeTrailing a = .ok (w.trailing a, a.plan.chunkPad + a.plan.trailingSize) ∧
      (w.trailing a).length = a.plan.chunkPad + a.plan.trailingSize := by
  have hlay' : a.plan.layout = .flatPlain := hlay
  have hcount : a.plan.chunkPad + a.plan.trailingSize = 0 := by
    change a.planned.plan.chunkPad + a.planned.plan.trailingSize = 0
    rw [(chunkPad_spec hm).1 (by rw [hlay]; decide), hm.trailingSize, hlay,
      ErofsWriter.calcTrailingSize]
    simp
  have htrailing : w.trailing a = [] := by
    rw [ErofsWriter.trailing, hlay']
    rfl
  rw [hcount, htrailing]
  refine ⟨?_, rfl⟩
  unfold ErofsWriter.writeTrailing
  rw [hlay']
  simp

/-- What is written behind an inode is what its plan has room for. -/
theorem writeTrailing_eq (hw : w.Sized) (h : w.Ready a.planned a.dir) (hm : w.Made a.planned) :
    w.writeTrailing a = .ok (w.trailing a, a.plan.chunkPad + a.plan.trailingSize) ∧
      (w.trailing a).length = a.plan.chunkPad + a.plan.trailingSize := by
  rcases hm.layout with hlay | hlay | ⟨hlay, hreg⟩
  · exact writeTrailing_plain hm hlay
  · exact writeTrailing_inline hw h hm hlay
  · exact writeTrailing_chunkBased hw hm hlay hreg

theorem length_inodeHeader (h : w.Ready a.planned a.dir) (hm : w.Made a.planned) :
    (w.inodeHeader a).length = a.plan.headerSize := by
  have hxattrs : (xattrBytes a.entry.xattrs).length = a.plan.xattrSize := by
    rw [a.entry_eq]
    exact (length_xattrBytes h.names).trans hm.xattrSize.symm
  rw [ErofsWriter.inodeHeader, List.length_append, hxattrs, ErofsWriter.writeInode, length_record,
    Plan.headerSize]
  cases a.plan.compact <;> rfl

end Entry

/-! ## The metadata -/

section Metadata

variable {w : ErofsWriter} {a : Assigned} {as : List Assigned} {cur stop : ℕ} {buf : Bytes}

/-- **One turn.**  The count of bytes and the buffer move on together to the end of the slot. -/
theorem writeMetadataInode_eq (hw : w.Sized) (h : w.Ready a.planned a.dir) (hm : w.Made a.planned)
    (hslot : w.Slot buf.length a.plan) :
    ∃ buf', w.writeMetadataInode buf.length buf a = .ok (a.plan.slotEnd, buf') ∧
      buf'.length = a.plan.slotEnd ∧ buf <+: buf' ∧
      HasAt buf' a.plan.off (w.inodeHeader a ++ w.trailing a) := by
  have hlo := hw.lo
  have hstart := hslot.start
  have hgap := hslot.gap
  obtain ⟨htrailing, hlen⟩ := writeTrailing_eq hw h hm
  have hheader := length_inodeHeader h hm
  have hend : a.plan.slotEnd = a.plan.off + a.plan.headerSize +
      (a.plan.chunkPad + a.plan.trailingSize) + (32 - a.plan.used % 32) % 32 := by
    rw [Plan.slotEnd, inodeSlotAlign, Plan.used]
    omega
  have hoff : a.plan.nid * 32 = a.plan.off := rfl
  set gap := List.replicate (a.plan.off - buf.length) nulByte with hgapdef
  set pad := List.replicate ((32 - a.plan.used % 32) % 32) nulByte with hpaddef
  have hpad : pad.length = (32 - a.plan.used % 32) % 32 := List.length_replicate
  have hfront : (buf ++ gap).length = a.plan.off := by
    rw [List.length_append, List.length_replicate]
    omega
  refine ⟨buf ++ (gap ++ (w.inodeHeader a ++ w.trailing a) ++ pad), ?_, ?_, ?_, ?_⟩
  · unfold ErofsWriter.writeMetadataInode
    dsimp only
    rw [hoff, if_neg (not_lt.2 hstart), zeroBuf_ok (by omega), htrailing, zeroBuf_ok (by omega),
      ← hgapdef, ← hpaddef, hend, ← hpad]
    rfl
  · rw [← List.append_assoc, ← List.append_assoc, List.length_append, List.length_append, hfront,
      List.length_append, hheader, hlen, hend, hpad]
    omega
  · exact List.prefix_append _ _
  · have hat := hasAt_append (buf ++ gap) (w.inodeHeader a ++ w.trailing a) pad
    rw [hfront] at hat
    simpa only [List.append_assoc] using hat

/-- **The loop.**  Over slots that follow each other no count is overrun and no padding is longer
than a block. -/
theorem writeInodes_eq (hw : w.Sized)
    (hready : ∀ a ∈ as, w.Ready a.planned a.dir ∧ w.Made a.planned)
    (hslots : w.Slots buf.length (as.map Assigned.plan) stop) :
    ∃ buf', w.writeInodes as buf.length buf = .ok (stop, buf') ∧ buf'.length = stop ∧
      buf <+: buf' ∧ ∀ a ∈ as, HasAt buf' a.plan.off (w.inodeHeader a ++ w.trailing a) := by
  induction as generalizing buf with
  | nil =>
    cases hslots
    exact ⟨buf, rfl, rfl, List.prefix_rfl, fun a ha => absurd ha List.not_mem_nil⟩
  | cons a as ih =>
    rw [List.map_cons] at hslots
    cases hslots with
    | cons hslot hslots =>
      obtain ⟨h, hm⟩ := hready a List.mem_cons_self
      obtain ⟨buf₁, hturn, hlen, hpre, hat⟩ := writeMetadataInode_eq hw h hm hslot
      rw [← hlen] at hslots
      obtain ⟨buf', hrest, hlen', hpre', hats⟩ :=
        ih (fun b hb => hready b (List.mem_cons_of_mem _ hb)) hslots
      refine ⟨buf', ?_, hlen', hpre.trans hpre', ?_⟩
      · rw [ErofsWriter.writeInodes, hturn, ← hlen]
        exact hrest
      · intro b hb
        rcases List.mem_cons.1 hb with rfl | hb
        · obtain ⟨more, rfl⟩ := hpre'
          exact hat.behind more
        · exact hats b hb

/-- The metadata fills whole blocks and has every inode at its nid. -/
theorem writeMetadataInodes_eq (hw : w.Sized)
    (hready : ∀ a ∈ as, w.Ready a.planned a.dir ∧ w.Made a.planned)
    (hslots : w.Slots 0 (as.map Assigned.plan) stop) :
    ∃ metadata, w.writeMetadataInodes as = .ok metadata ∧
      metadata.length = (stop + w.blockSize - 1) / w.blockSize * w.blockSize ∧
      ∀ a ∈ as, HasAt metadata a.plan.off (w.inodeHeader a ++ w.trailing a) := by
  have hbs : 0 < w.blockSize := by
    have := hw.lo
    omega
  obtain ⟨buf, hloop, hlen, -, hats⟩ := @writeInodes_eq w as stop [] hw hready hslots
  refine ⟨w.filled buf, ?_, ?_, fun a ha => (hats a ha).behind _⟩
  · rw [ErofsWriter.writeMetadataInodes]
    change (w.writeInodes as ([] : Bytes).length [] >>= _) = _
    rw [hloop]
    change (w.blockPad stop >>= _) = _
    rw [blockPad_ok hbs, ErofsWriter.filled, hlen]
    rfl
  · rw [length_filled hbs, hlen]

end Metadata

/-! ## The data -/

/-- The data of an entry and its tail are at its addresses. -/
structure ErofsWriter.Stands (w : ErofsWriter) (image : Bytes) (a : Assigned) : Prop where
  data : ErofsWriter.flatPlainDataSize a.planned ≠ 0 →
    HasAt image (a.dataBlkAddr * w.blockSize) (w.content a.planned a.dir)
  tail : a.planned.entry.tail ≠ [] →
    HasAt image (a.tailBlkAddr * w.blockSize) a.planned.entry.tail

/-- The entries with addresses from `addr` on, none of them narrowed. -/
def ErofsWriter.assignedFrom (w : ErofsWriter) (xs : List (Planned × ErofsDir)) (addr : ℕ) :
    List Assigned :=
  (xs.zip (w.assignWith id (xs.map Prod.fst) addr).1).map fun q =>
    ⟨q.1.1, q.1.2, q.2.data.getD 0, q.2.tail.getD 0⟩

section Data

variable {w : ErofsWriter} {a : Assigned} {x : Planned × ErofsDir} {xs : List (Planned × ErofsDir)}
  {addr : ℕ} {pre image : Bytes}

theorem ErofsWriter.Stands.behind (h : w.Stands image a) (more : Bytes) :
    w.Stands (image ++ more) a :=
  ⟨fun hds => (h.data hds).behind more, fun ht => (h.tail ht).behind more⟩

theorem assignedFrom_cons (x : Planned × ErofsDir) (xs : List (Planned × ErofsDir)) (addr : ℕ) :
    w.assignedFrom (x :: xs) addr =
      ⟨x.1, x.2, (if 0 < ErofsWriter.flatPlainDataSize x.1 then some addr else none).getD 0,
        (if x.1.entry.tail ≠ [] then some (w.dataEnd id addr x.1) else none).getD 0⟩ ::
      w.assignedFrom xs (addr + w.dataBlocks x.1) := by
  rw [← tailEnd_eq]
  rfl

/-- Blocks that are written where the next ones are counted to be. -/
theorem region_stands (hw : w.Sized) (h : w.Ready a.planned a.dir)
    (hpre : pre.length = addr * w.blockSize)
    (hdata : ErofsWriter.flatPlainDataSize a.planned ≠ 0 → a.dataBlkAddr = addr)
    (htail : a.planned.entry.tail ≠ [] → a.tailBlkAddr = w.dataEnd id addr a.planned) :
    w.Stands (pre ++ w.region a) a := by
  have hbs : 0 < w.blockSize := by
    have := hw.lo
    omega
  refine ⟨fun hds => ?_, fun hne => ?_⟩
  · rw [hdata hds, ← hpre, ErofsWriter.region, if_neg hds, ErofsWriter.filled]
    simpa only [List.append_assoc] using hasAt_append pre (w.content a.planned a.dir) _
  · rw [htail hne, ErofsWriter.dataEnd]
    dsimp only [id]
    by_cases hds : ErofsWriter.flatPlainDataSize a.planned = 0
    · rw [hds, Int.toNat_zero, if_neg (lt_irrefl 0), ← hpre, ErofsWriter.region, if_pos hds,
        ErofsWriter.filled, List.nil_append, ← List.append_assoc]
      exact hasAt_append pre _ _
    · have hlen := flatPlainDataSize_eq hw h (flatPlain_of_size hds)
      have hfront : (pre ++ w.filled (w.content a.planned a.dir)).length =
          (addr + ((w.content a.planned a.dir).length + w.blockSize - 1) / w.blockSize) *
            w.blockSize := by
        rw [List.length_append, length_filled hbs, hpre, Nat.add_mul]
      rw [hlen, Int.toNat_natCast, if_pos (by omega), ← hfront, ErofsWriter.region, if_neg hds]
      have hat := hasAt_append (pre ++ w.filled (w.content a.planned a.dir)) a.planned.entry.tail
        (List.replicate
          ((w.blockSize - a.planned.entry.tail.length % w.blockSize) % w.blockSize) nulByte)
      simpa only [List.append_assoc, ErofsWriter.filled] using hat

/-- **The data.**  Behind what fills the blocks before `addr`, the regions stand at the addresses
that are counted from it. -/
theorem regions_at (hw : w.Sized) (hready : ∀ q ∈ xs, w.Ready q.1 q.2)
    (hpre : pre.length = addr * w.blockSize) :
    (pre ++ ((w.assignedFrom xs addr).map w.region).flatten).length =
        (addr + ((xs.map Prod.fst).map w.dataBlocks).sum) * w.blockSize ∧
      ∀ a ∈ w.assignedFrom xs addr,
        w.Stands (pre ++ ((w.assignedFrom xs addr).map w.region).flatten) a := by
  induction xs generalizing pre addr with
  | nil =>
    refine ⟨?_, fun a ha => absurd ha List.not_mem_nil⟩
    change (pre ++ []).length = (addr + 0) * w.blockSize
    rw [List.append_nil, hpre, Nat.add_zero]
  | cons x xs ih =>
    have h := hready x List.mem_cons_self
    have hnonneg := flatPlainDataSize_nonneg h.size
    rw [assignedFrom_cons]
    set a : Assigned := ⟨x.1, x.2, _, _⟩ with ha
    have hlen := (@entryBytes_eq w a hw h).2
    have hnext : (pre ++ w.region a).length = (addr + w.dataBlocks x.1) * w.blockSize := by
      rw [List.length_append, hlen, hpre, Nat.add_mul]
    obtain ⟨hlast, hstands⟩ := ih (fun q hq => hready q (List.mem_cons_of_mem _ hq)) hnext
    rw [List.map_cons, List.flatten_cons, ← List.append_assoc]
    refine ⟨?_, ?_⟩
    · rw [hlast, List.map_cons, List.map_cons, List.sum_cons, Nat.add_assoc]
    · intro b hb
      rcases List.mem_cons.1 hb with rfl | hb
      · refine (@region_stands w a addr pre hw h hpre (fun hds => ?_) fun hne => ?_).behind _
        · have hpos : 0 < ErofsWriter.flatPlainDataSize x.1 := lt_of_le_of_ne hnonneg (Ne.symm hds)
          rw [ha]
          dsimp only
          rw [if_pos hpos]
          rfl
        · rw [ha]
          dsimp only
          rw [if_pos hne]
          rfl
      · exact hstands b hb

end Data

/-! ## The superblock area -/

section Area

variable {w : ErofsWriter} {ds : List ℕ} {i : ℕ} {area area' : Bytes} {xs : List Planned}

theorem length_marshalDeviceSlot (blocks : ℕ) :
    (marshalDeviceSlot blocks).length = Disk.sizeDeviceSlot := by
  rw [marshalDeviceSlot, length_record]
  rfl

theorem length_marshalSuperBlock (sb : SuperBlock) (inos : ℕ) :
    (marshalSuperBlock sb inos).length = Disk.sizeSuperBlock := by
  rw [marshalSuperBlock, length_record]
  simp only [List.map_cons, List.map_nil, List.sum_cons, List.sum_nil, Nat.reduceAdd,
    Disk.sizeSuperBlock]

/-- The slots are written unless a device is too large for its count. -/
theorem writeDeviceSlots_iff :
    (∃ area', ErofsWriter.writeDeviceSlots ds i area = .ok area') ↔ ∀ d ∈ ds, d < 2 ^ 32 := by
  induction ds generalizing i area with
  | nil => exact ⟨fun _ d hd => absurd hd List.not_mem_nil, fun _ => ⟨area, rfl⟩⟩
  | cons d ds ih =>
    rw [ErofsWriter.writeDeviceSlots, List.forall_mem_cons]
    split_ifs with hlarge
    · refine ⟨fun h => ?_, fun h => absurd h.1 (by omega)⟩
      obtain ⟨area', h⟩ := h
      cases h
    · rw [ih]
      exact ⟨fun h => ⟨by omega, h⟩, fun h => h.2⟩

theorem length_writeDeviceSlots (h : ErofsWriter.writeDeviceSlots ds i area = .ok area')
    (hroom : Disk.superBlockOffset + Disk.sizeSuperBlock + (i + ds.length) * Disk.sizeDeviceSlot ≤
      area.length) : area'.length = area.length := by
  induction ds generalizing i area with
  | nil =>
    cases h
    rfl
  | cons d ds ih =>
    rw [ErofsWriter.writeDeviceSlots] at h
    split_ifs at h
    simp only [Disk.superBlockOffset, Disk.sizeSuperBlock, Disk.sizeDeviceSlot,
      List.length_cons] at hroom ih ⊢
    have hput : (putAt area (Disk.superBlockOffset + Disk.sizeSuperBlock + i * Disk.sizeDeviceSlot)
        (marshalDeviceSlot d)).length = area.length := by
      refine length_putAt ?_
      rw [length_marshalDeviceSlot]
      simp only [Disk.superBlockOffset, Disk.sizeSuperBlock, Disk.sizeDeviceSlot]
      omega
    rw [ih h (by rw [hput]; omega), hput]

/-- There is room in the area for the superblock and every slot. -/
theorem sbAreaSize_ge (hw : w.Sized) : Disk.superBlockOffset + Disk.sizeSuperBlock +
    w.devices.length * Disk.sizeDeviceSlot ≤ w.sbAreaSize :=
  (ceil_mul (by have := hw.lo; omega)).1

theorem sbAreaSize_eq (hw : w.Sized) : w.sbAreaSize = w.sbAreaBlocks * w.blockSize := by
  have hbs : 0 < w.blockSize := by
    have := hw.lo
    omega
  rw [ErofsWriter.sbAreaBlocks, ErofsWriter.sbAreaSize, Nat.mul_div_cancel _ hbs]

theorem length_withChecksum (h : Disk.superBlockOffset + Disk.sizeSuperBlock ≤ area.length) :
    (w.withChecksum area).length = area.length := by
  refine length_putAt ?_
  rw [length_leBytes]
  simp only [Disk.superBlockOffset, Disk.sizeSuperBlock] at h ⊢
  omega

theorem writeBlock0_iff :
    (∃ area, w.writeBlock0 xs = .ok area) ↔ ∀ d ∈ w.devices, d < 2 ^ 32 := by
  rw [← @writeDeviceSlots_iff w.devices 0 (putAt (List.replicate w.sbAreaSize nulByte)
    Disk.superBlockOffset (marshalSuperBlock (w.superBlock xs) xs.length))]
  refine ⟨fun h => ?_, fun h => ?_⟩
  · obtain ⟨area, h⟩ := h
    obtain ⟨slots, hslots, -⟩ := except_bind_ok h
    exact ⟨slots, hslots⟩
  · obtain ⟨slots, hslots⟩ := h
    refine ⟨w.withChecksum slots, ?_⟩
    rw [ErofsWriter.writeBlock0, hslots]
    rfl

theorem length_writeBlock0 (hw : w.Sized) (h : w.writeBlock0 xs = .ok area) :
    area.length = w.sbAreaSize := by
  have hroom := sbAreaSize_ge hw
  obtain ⟨slots, hslots, h⟩ := except_bind_ok h
  cases h
  have hput : (putAt (List.replicate w.sbAreaSize nulByte) Disk.superBlockOffset
      (marshalSuperBlock (w.superBlock xs) xs.length)).length = w.sbAreaSize := by
    rw [length_putAt, List.length_replicate]
    rw [length_marshalSuperBlock, List.length_replicate]
    omega
  have hlen := length_writeDeviceSlots hslots (by rw [hput, Nat.zero_add]; exact hroom)
  rw [length_withChecksum (by rw [hlen, hput]; omega), hlen, hput]

end Area

/-! ## The image -/

/-- What `write` is given: planned entries that can be written, at most as many devices as a
superblock can count. -/
structure ErofsWriter.Prepared (w : ErofsWriter) (xs : List (Planned × ErofsDir)) : Prop where
  sized : w.Sized
  devices : w.devices.length ≤ 65535
  planned : ∃ es, xs.map Prod.fst = w.planned es
  ready : ∀ q ∈ xs, w.Ready q.1 q.2

/-- Every region is where the reader looks for it: the superblock area in front, an inode at its nid
in the metadata with what belongs to it, and data and tails at their blocks. -/
structure ErofsWriter.LaidOut (w : ErofsWriter) (xs : List (Planned × ErofsDir)) (image : Bytes) :
    Prop where
  length : image.length = w.totalBlocks (xs.map Prod.fst) * w.blockSize
  area : ∃ area, w.writeBlock0 (xs.map Prod.fst) = .ok area ∧ area.length = w.sbAreaSize ∧
    HasAt image 0 area
  inodes : ∀ a ∈ w.assigned xs,
    HasAt image ((w.assignDataBlocks (xs.map Prod.fst)).2 * w.blockSize + a.plan.off)
      (w.inodeHeader a ++ w.trailing a)
  data : ∀ a ∈ w.assigned xs, w.Stands image a

section Image

variable {w : ErofsWriter} {xs : List (Planned × ErofsDir)} {es : List (ErofsEntry × ℕ)} {addr : ℕ}
  {as : List Assigned} {regions : List Bytes} {out out' : Out}

theorem length_planEntries (es : List (ErofsEntry × ℕ)) (off : ℕ) :
    (w.planEntries es off).length = es.length := by
  induction es generalizing off with
  | nil => rfl
  | cons x es ih => exact congrArg (· + 1) (ih _)

theorem planned_plan (es : List (ErofsEntry × ℕ)) :
    (w.planned es).map Planned.plan = w.planLayout es := by
  rw [ErofsWriter.planned, List.map_map]
  exact List.map_snd_zip (length_planEntries es 0).le

theorem assignedFrom_pairs (xs : List (Planned × ErofsDir)) (addr : ℕ) :
    (w.assignedFrom xs addr).map (fun a => (a.planned, a.dir)) = xs := by
  induction xs generalizing addr with
  | nil => rfl
  | cons x xs ih => rw [assignedFrom_cons, List.map_cons, ih]

/-- In an image within the limits no address is narrowed. -/
theorem assigned_eq (h : w.Prepared xs) (hlimits : w.checkLimits (xs.map Prod.fst) = .ok ()) :
    w.assigned xs = w.assignedFrom xs w.sbAreaBlocks ∧
      (w.assignDataBlocks (xs.map Prod.fst)).2 =
        w.sbAreaBlocks + ((xs.map Prod.fst).map w.dataBlocks).sum := by
  have hlo := h.sized.lo
  have hsize : ∀ x ∈ xs.map Prod.fst, x.entry.size < 2 ^ 63 := by
    intro x hx
    obtain ⟨q, hq, rfl⟩ := List.mem_map.1 hx
    exact (h.ready q hq).size
  have htotal := totalBlocks_le hlo h.devices hsize hlimits
  rw [ErofsWriter.totalBlocks] at htotal
  obtain ⟨heq, hlast, -⟩ :=
    @assignWith_exact w (xs.map Prod.fst) w.sbAreaBlocks (by omega) (by omega)
  have hassign : w.assignDataBlocks (xs.map Prod.fst) =
      w.assignWith id (xs.map Prod.fst) w.sbAreaBlocks := by
    rw [ErofsWriter.assignDataBlocks, uint32_of (by omega), heq]
  refine ⟨?_, ?_⟩
  · rw [ErofsWriter.assigned, hassign]
    rfl
  · rw [hassign, hlast]

/-- The entries with their addresses are the ones that were prepared. -/
theorem assigned_ready (h : w.Prepared xs) (hlimits : w.checkLimits (xs.map Prod.fst) = .ok ()) :
    (∀ a ∈ w.assigned xs, w.Ready a.planned a.dir ∧ w.Made a.planned) ∧
      w.Slots 0 ((w.assigned xs).map Assigned.plan)
        (ErofsWriter.metadataBytes (xs.map Prod.fst)) := by
  obtain ⟨es, hes⟩ := h.planned
  have hpairs := @assignedFrom_pairs w xs w.sbAreaBlocks
  rw [← (assigned_eq h hlimits).1] at hpairs
  refine ⟨fun a ha => ?_, ?_⟩
  · have hmem : (a.planned, a.dir) ∈ xs := by
      rw [← hpairs]
      exact List.mem_map.2 ⟨a, ha, rfl⟩
    refine ⟨h.ready _ hmem, ?_⟩
    have hplanned : a.planned ∈ w.planned es := by
      rw [← hes]
      exact List.mem_map.2 ⟨_, hmem, rfl⟩
    exact planned_made hplanned
  · have hplans : (w.assigned xs).map Assigned.plan = w.planLayout es := by
      rw [← planned_plan es, ← hes, ← hpairs, List.map_map, List.map_map, hpairs]
      rfl
    rw [hplans, hes]
    exact planLayout_slots h.sized es

theorem regions_eq (hw : w.Sized) (hready : ∀ a ∈ as, w.Ready a.planned a.dir)
    (h : w.Regions as regions) : regions = as.map w.region := by
  induction h with
  | nil => rfl
  | @cons a r as rs hr _ ih =>
    rw [(entryBytes_eq hw (hready a List.mem_cons_self)).1] at hr
    cases hr
    rw [List.map_cons, ih fun b hb => hready b (List.mem_cons_of_mem _ hb)]

/-- **Geometry.**  An image that was written to a new file has every region in its place. -/
theorem write_laid (h : w.Prepared xs) (hok : w.write xs out = .ok out') (hnew : out.bytes = [])
    (hpos : out.pos = 0) : w.LaidOut xs out'.bytes := by
  obtain ⟨_, hlimits, hwrite⟩ := except_bind_ok hok
  obtain ⟨area, regions, metadata, hparts, hbytes, -⟩ := writeSeekable_ok hwrite hnew hpos
  obtain ⟨hassigned, haddr⟩ := assigned_eq h hlimits
  obtain ⟨hready, hslots⟩ := assigned_ready h hlimits
  have harea := length_writeBlock0 h.sized hparts.area
  have hregions := regions_eq h.sized (fun a ha => (hready a ha).1) hparts.data
  obtain ⟨metadata', hmeta, hmetalen, hats⟩ := writeMetadataInodes_eq h.sized hready hslots
  rw [hparts.metadata] at hmeta
  cases hmeta
  -- the area goes exactly over the room that was left for it
  have himage : out'.bytes = area ++ regions.flatten ++ metadata := by
    rw [hbytes, harea, List.append_assoc, List.drop_left' List.length_replicate,
      List.append_assoc]
  rw [hassigned] at hregions
  obtain ⟨hlen, hstands⟩ := @regions_at w xs w.sbAreaBlocks area h.sized h.ready
    (harea.trans (sbAreaSize_eq h.sized))
  rw [← hregions] at hlen hstands
  rw [himage]
  refine ⟨?_, ⟨area, hparts.area, harea, ?_⟩, ?_, ?_⟩
  · rw [List.length_append, hlen, hmetalen, ← Nat.add_mul, ErofsWriter.totalBlocks,
      ErofsWriter.metaBlocks]
    congr 1
    omega
  · exact ((hasAt_self area).behind _).behind _
  · intro a ha
    rw [haddr, ← hlen]
    exact (hats a ha).front _
  · intro a ha
    rw [hassigned] at ha
    exact (hstands a ha).behind _

/-! ## When `write` succeeds -/

/-- An output none of whose calls fails. -/
def Out.Never (out : Out) : Prop := ∀ k, out.fails k = none

theorem Out.Never.write (h : out.Never) (b : Bytes) :
    ∃ out', out.write b = .ok out' ∧ out'.Never := by
  rw [Out.write, h out.calls]
  exact ⟨_, rfl, h⟩

theorem Out.Never.seekStart (h : out.Never) : ∃ out', out.seekStart = .ok out' ∧ out'.Never := by
  rw [Out.seekStart, h out.calls]
  exact ⟨_, rfl, h⟩

theorem ok_bind {ε α β : Type} (x : α) (f : α → Except ε β) : (Except.ok x >>= f) = f x := rfl

theorem Out.Never.writeEach (h : out.Never) (what : String) (p : Path) (bs : List Bytes) :
    ∃ out', Out.writeEach what p bs out = .ok out' ∧ out'.Never := by
  induction bs generalizing out with
  | nil => exact ⟨out, rfl, h⟩
  | cons b bs ih =>
    obtain ⟨out₁, hwrite, h₁⟩ := h.write b
    obtain ⟨out', hrest, h'⟩ := ih h₁
    refine ⟨out', ?_, h'⟩
    rw [Out.writeEach, hwrite]
    exact hrest

theorem writePad_never (hbs : 0 < w.blockSize) (p : Path) (n : ℕ) (h : out.Never) :
    ∃ out', w.writePad p n out = .ok out' ∧ out'.Never := by
  rw [ErofsWriter.writePad, blockPad_ok hbs, ok_bind]
  exact h.writeEach ..

theorem writeTailBlock_never (hbs : 0 < w.blockSize) (a : Assigned) (h : out.Never) :
    ∃ out', w.writeTailBlock a out = .ok out' ∧ out'.Never := by
  unfold ErofsWriter.writeTailBlock
  by_cases hnil : a.entry.tail = []
  · rw [if_pos hnil]
    exact ⟨out, rfl, h⟩
  · obtain ⟨out₁, htail, h₁⟩ := h.writeEach "write tail for %s" a.entry.path [a.entry.tail]
    rw [if_neg hnil, htail, ok_bind]
    exact writePad_never hbs _ _ h₁

theorem writeEntryData_never (hw : w.Sized) (hready : w.Ready a.planned a.dir) (h : out.Never) :
    ∃ out', w.writeEntryData a out = .ok out' ∧ out'.Never := by
  have hbs : 0 < w.blockSize := by
    have := hw.lo
    omega
  unfold ErofsWriter.writeEntryData
  by_cases hds : ErofsWriter.flatPlainDataSize a.planned = 0
  · rw [if_pos hds]
    exact writeTailBlock_never hbs a h
  · obtain ⟨out₁, hcalls, h₁⟩ := h.writeEach (ErofsWriter.flatText a) a.entry.path (w.flatCalls a)
    obtain ⟨out₂, hpad, h₂⟩ :=
      writePad_never hbs a.entry.path (w.content a.planned a.dir).length h₁
    rw [if_neg hds, hcalls, ok_bind, flatData_eq hw hready hds, ok_bind, hpad, ok_bind]
    exact writeTailBlock_never hbs a h₂

theorem writeDataBlocks_never (hw : w.Sized) (hready : ∀ a ∈ as, w.Ready a.planned a.dir)
    (h : out.Never) : ∃ out', w.writeDataBlocks as out = .ok out' ∧ out'.Never := by
  induction as generalizing out with
  | nil => exact ⟨out, rfl, h⟩
  | cons a as ih =>
    obtain ⟨out₁, hentry, h₁⟩ := writeEntryData_never hw (hready a List.mem_cons_self) h
    obtain ⟨out', hrest, h'⟩ := ih (fun b hb => hready b (List.mem_cons_of_mem _ hb)) h₁
    refine ⟨out', ?_, h'⟩
    rw [ErofsWriter.writeDataBlocks, hentry]
    exact hrest

theorem write_never (h : w.Prepared xs) (hlimits : w.checkLimits (xs.map Prod.fst) = .ok ())
    (hdev : ∀ d ∈ w.devices, d < 2 ^ 32) (hout : out.Never) :
    ∃ out', w.write xs out = .ok out' := by
  obtain ⟨hready, hslots⟩ := assigned_ready h hlimits
  obtain ⟨metadata, hmeta, -⟩ := writeMetadataInodes_eq h.sized hready hslots
  obtain ⟨area, harea⟩ := (@writeBlock0_iff w (xs.map Prod.fst)).2 hdev
  obtain ⟨out₁, h₁, hout⟩ := hout.write (List.replicate w.sbAreaSize nulByte)
  obtain ⟨out₂, h₂, hout⟩ := writeDataBlocks_never h.sized (fun a ha => (hready a ha).1) hout
  obtain ⟨out₃, h₃, hout⟩ := hout.write metadata
  obtain ⟨out₄, h₄, hout⟩ := hout.seekStart
  obtain ⟨out₅, h₅, -⟩ := hout.write area
  refine ⟨out₅, ?_⟩
  simp only [ErofsWriter.write, ErofsWriter.writeSeekable, hlimits, h₁, h₂, hmeta, h₃, h₄, harea,
    h₅, ok_bind]

/-- **Writing.**  On an output that never fails, `write` of prepared entries succeeds exactly when
they are within the limits and no device has 2³² blocks; then every region is in its place.  No nid
is overrun, no padding is longer than a block, and no reader comes up short. -/
theorem write_lays_out (h : w.Prepared xs) (hout : out.Never) (hnew : out.bytes = [])
    (hpos : out.pos = 0) :
    ((∃ out', w.write xs out = .ok out') ↔
        w.checkLimits (xs.map Prod.fst) = .ok () ∧ ∀ d ∈ w.devices, d < 2 ^ 32) ∧
      ∀ out', w.write xs out = .ok out' → w.LaidOut xs out'.bytes := by
  refine ⟨⟨?_, ?_⟩, fun out' hok => write_laid h hok hnew hpos⟩
  · rintro ⟨out', hok⟩
    obtain ⟨_, hlimits, hwrite⟩ := except_bind_ok hok
    obtain ⟨area, regions, metadata, hparts, -⟩ := writeSeekable_ok hwrite hnew hpos
    exact ⟨hlimits, writeBlock0_iff.1 ⟨area, hparts.area⟩⟩
  · rintro ⟨hlimits, hdev⟩
    exact write_never h hlimits hdev hout

/-- A directory of one file, and the file with a block of the image and a tail. -/
def tailTree : List (Planned × ErofsDir) :=
  (tailWriter.planned tailSet).zip [⟨0, 0, [⟨[102], 3, 1⟩]⟩, ⟨0, 0, []⟩]

theorem tailTree_prepared : tailWriter.Prepared tailTree := by
  refine ⟨⟨9, by decide, by decide, rfl⟩, by decide, ⟨tailSet, by decide⟩, ?_⟩
  have hdir : ErofsDir.Ok ⟨0, 0, [⟨[102], 3, 1⟩]⟩ := by
    refine ⟨by decide, ?_, by decide, by decide, by decide, by decide⟩
    intro de hde
    obtain rfl := List.mem_singleton.1 hde
    exact ⟨by decide, by decide, by decide⟩
  intro q hq
  obtain rfl | rfl : q = (⟨_, _, _⟩, ⟨0, 0, [⟨[102], 3, 1⟩]⟩) ∨ q = (⟨_, _, _⟩, ⟨0, 0, []⟩) := by
    simpa [tailTree, ErofsWriter.planned, tailSet, ErofsWriter.planLayout,
      ErofsWriter.planEntries] using hq
  · refine ⟨by decide, by decide, ?_, by decide, fun _ => by decide, fun _ => hdir⟩
    exact fun h => absurd h (by decide)
  · refine ⟨by decide, by decide, ?_, by decide, fun h => absurd h (by decide),
      fun h => absurd h (by decide)⟩
    exact fun _ h => absurd (by decide) h

/-- The set is within the limits, and its image has five blocks. -/
theorem tailTree_laid :
    ∃ out', tailWriter.write tailTree {} = .ok out' ∧ tailWriter.LaidOut tailTree out'.bytes ∧
      tailWriter.totalBlocks (tailTree.map Prod.fst) = 5 := by
  obtain ⟨hiff, hlaid⟩ := @write_lays_out tailWriter tailTree {} tailTree_prepared (fun _ => rfl)
    rfl rfl
  obtain ⟨out', hok⟩ := hiff.2 ⟨by decide, by decide⟩
  exact ⟨out', hok, hlaid out' hok, by decide⟩

end Image

end Erofs
