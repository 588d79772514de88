import Erofs.Writer.Chunked

/-!
# The reader's bound on chunk maps

`checkLimits` allows a file 2²⁷ chunks.  Before the reader allocates anything for a chunk map it
asks `chunkIndexFits`, which bounds the map to 64 MiB, the size of 2²³ entries.  What is between
the two bounds is written and then refused.

The main results:

* `chunkMap_fits_iff` — the reader takes the chunk map of a file that passes `checkLimits` exactly
  when it has no more than 2²³ entries;
* `statRanges_written_iff` — so it is for every file of an image that was written.
-/

namespace Erofs

open GoPath LittleEndian Oracle

namespace Image

variable {img : Image} {w : ErofsWriter} {es : List (ErofsEntry × ℕ)} {x : Planned} {ino : Inode}
  {dataBlkAddr : ℕ}

variable (img ino) in
/-- The chunk map of a file is inside the image. -/
structure HoldsMap : Prop where
  start : 0 ≤ img.chunkMapStart ino
  int : img.chunkMapStart ino + (img.chunkCount ino * chunkUnit ino : ℕ) ≤ maxInt64
  inside : img.size ≤ 0 ∨
    img.chunkMapStart ino + (img.chunkCount ino * chunkUnit ino : ℕ) ≤ img.size

/-- An indexed map inside the image passes the bound if it has at most 2²³ entries. -/
theorem HoldsMap.chunkIndexFits_iff (hin : img.HoldsMap ino) (hindexed : ino.chunkIndexed = true) :
    img.chunkIndexFits (img.chunkMapStart ino) (img.chunkCount ino * chunkUnit ino) = true ↔
      img.chunkCount ino ≤ 2 ^ 23 := by
  have hunit : chunkUnit ino = 8 := if_pos hindexed
  have hstart := hin.start
  have hint := hin.int
  have hinside := hin.inside
  rw [hunit] at hint hinside ⊢
  rw [maxInt64] at hint
  rw [chunkIndexFits, maxChunkIndexBytes, maxInt64]
  simp only [Bool.and_eq_true, Bool.or_eq_true, decide_eq_true_eq]
  omega

/-- `Stat` refuses a map that does not pass the bound before it reads any of it. -/
theorem statRanges_refused (h48 : ino.chunk48Bit = false)
    (hino : ino.inodeLayout = .chunkBased ∧ ino.mode.isRegular = true) (hsize : ino.size ≠ 0)
    (hfits : img.chunkIndexFits (img.chunkMapStart ino) (img.chunkCount ino * chunkUnit ino) =
      false) :
    img.statRanges ino = .done (.error (errorf
      "chunk index of nid %d lies past the end of the image: %w" [.int ino.nid] .corrupt)) := by
  rw [statRanges, hino.2, if_pos hino.1, if_neg (by simp [hsize]), buildChunkDataRanges, h48,
    hfits]
  rfl

/-- `Stat` refuses a map inside the image only for the bound. -/
theorem HoldsMap.statRanges_iff (hin : img.HoldsMap ino) (hindexed : ino.chunkIndexed = true)
    (h48 : ino.chunk48Bit = false)
    (hino : ino.inodeLayout = .chunkBased ∧ ino.mode.isRegular = true) :
    (∀ e, img.statRanges ino ≠ .done (.error e)) ↔ img.chunkCount ino ≤ 2 ^ 23 := by
  by_cases hzero : ino.size = 0
  · rw [statRanges, if_pos (by simp [hzero]), chunkCount, if_pos hzero]
    simp
  rw [← hin.chunkIndexFits_iff hindexed]
  cases hfits : img.chunkIndexFits (img.chunkMapStart ino)
      (img.chunkCount ino * chunkUnit ino) with
  | false =>
    rw [statRanges_refused h48 hino hzero hfits]
    simp
  | true =>
    rw [statRanges, hino.2, if_pos hino.1, if_neg (by simp [hzero]), buildChunkDataRanges, h48,
      hfits]
    simp [readerAt, Oracle.Prog.bind]

/-- Writer and reader count the chunks of an accepted file alike. -/
theorem chunkCount_accepted (h : img.ReadsFrom w) (hx : w.Accepted x)
    (hlayout : x.plan.layout = .chunkBased) (hsize : ino.size = x.entry.size)
    (hper : blocksPerChunk ino = 2 ^ w.entryChunkBits x.plan.chunkBits) :
    w.chunkCount x.plan.chunkBits x.entry.size = img.chunkCount ino := by
  have hle := hx.chunkCount hlayout
  rw [← hsize, chunkCount_written h.blockSize hper] at hle ⊢
  omega

/-- **Chunk maps the reader refuses.**  The map of a chunk-based file that `checkLimits` has
accepted passes the reader's bound exactly when it has at most 2²³ entries, and `Stat` reads the map
exactly then. -/
theorem chunkMap_fits_iff (h : img.ReadsFrom w) (hw : w.chunkBits = 0)
    (hacc : w.checkLimits (w.planned es) = .ok ()) (hx : x ∈ w.planned es)
    (hlayout : x.plan.layout = .chunkBased) (hsize : ino.size = x.entry.size)
    (hdata : ino.inodeData = w.inodeData x.entry x.plan dataBlkAddr)
    (hino : ino.inodeLayout = .chunkBased ∧ ino.mode.isRegular = true) (hin : img.HoldsMap ino) :
    (img.chunkIndexFits (img.chunkMapStart ino) (img.chunkCount ino * chunkUnit ino) = true ↔
        w.chunkCount x.plan.chunkBits x.entry.size ≤ 2 ^ 23) ∧
      ((∀ e, img.statRanges ino ≠ .done (.error e)) ↔
        w.chunkCount x.plan.chunkBits x.entry.size ≤ 2 ^ 23) := by
  obtain ⟨-, off, hplan⟩ := planned_mem hx
  obtain ⟨hindexed, h48, hper⟩ := chunkFormat_written hw hplan hlayout hdata
  rw [chunkCount_accepted h ((checkLimits_ok hacc).1 x hx) hlayout hsize hper]
  exact ⟨hin.chunkIndexFits_iff hindexed, hin.statRanges_iff hindexed h48 hino⟩

end Image

/-! ## The image that was written -/

section Written

variable {w : ErofsWriter} {xs : List (Planned × ErofsDir)} {c : ℕ → Bytes} {img : Image}
  {a : Assigned} {ino : Inode} {name : Bytes}

/-- A chunk-based file of a written image is one for the reader. -/
theorem regular_written (h : w.WrittenAs xs c img) (ha : a ∈ w.assigned xs)
    (hlay : a.plan.layout = .chunkBased) (hf : w.Finds img c a name ino) :
    ino.size = a.planned.entry.size ∧ ino.inodeLayout = .chunkBased ∧
      ino.mode.isRegular = true := by
  obtain ⟨-, -, -, off, hplan⟩ := h.entry ha
  have hreg : a.planned.entry.mode.typ = Mode.reg := ErofsWriter.reg_of_chunkBased (hplan ▸ hlay)
  refine ⟨?_, hf.back.layout.trans hlay, ?_⟩
  · rw [hf.back.size, inodeFileSize, hreg, if_neg (by decide), if_neg (by decide)]
  · rw [hf.back.mode, FileMode.isRegular, typ_goFileMode (.inl hreg), modeToFileType, hreg]
    rfl

/-- The map of a file that is not empty is inside the image. -/
theorem holdsMap_written (h : w.WrittenAs xs c img) (ha : a ∈ w.assigned xs)
    (hlay : a.plan.layout = .chunkBased) (hf : w.Finds img c a name ino) (hpos : 0 < ino.size) :
    img.HoldsMap ino := by
  obtain ⟨-, -, -, off, hplan⟩ := h.entry ha
  obtain ⟨sizes, hopens⟩ := h.opens
  obtain ⟨hindexed, -, hper⟩ := Image.chunkFormat_written h.chunkBits hplan hlay hf.data
  have hcount := Image.chunkCount_accepted (hopens.readsFrom h.prepared) (h.accepted ha) hlay
    (regular_written h ha hlay hf).1 hper
  have hsome : 0 < w.chunkCount a.plan.chunkBits a.planned.entry.size := by
    change w.chunkCount a.plan.chunkBits a.planned.entry.size = _ at hcount
    rw [hcount, Image.chunkCount, if_neg hpos.ne']
    exact Nat.succ_pos _
  obtain ⟨start, hstart, hat⟩ := hasAt_map h ha hlay hf hindexed hsome
  have hend := hat.end_le (List.ne_nil_of_length_pos (by rw [length_map]; omega))
  have hunit : Image.chunkUnit ino = 8 := if_pos hindexed
  have himage := h.length_le
  rw [length_map] at hend
  change w.chunkCount a.plan.chunkBits a.planned.entry.size = _ at hcount
  rw [hcount] at hend
  constructor
  · rw [hstart]
    exact Int.natCast_nonneg _
  · rw [hstart, hunit, maxInt64]
    omega
  · right
    rw [hstart, hunit, h.size]
    omega

/-- **Chunk maps of a written image.**  `Stat` of a chunk-based file refuses its map exactly when it
has more than 2²³ chunks. -/
theorem statRanges_written_iff (h : w.WrittenAs xs c img) (ha : a ∈ w.assigned xs)
    (hlay : a.plan.layout = .chunkBased) (hf : w.Finds img c a name ino) (hpos : 0 < ino.size) :
    (∀ e, img.statRanges ino ≠ .done (.error e)) ↔
      w.chunkCount a.plan.chunkBits a.planned.entry.size ≤ 2 ^ 23 := by
  obtain ⟨-, -, -, off, hplan⟩ := h.entry ha
  obtain ⟨sizes, hopens⟩ := h.opens
  obtain ⟨hindexed, h48, hper⟩ := Image.chunkFormat_written h.chunkBits hplan hlay hf.data
  obtain ⟨hsize, hino⟩ := regular_written h ha hlay hf
  have hcount := Image.chunkCount_accepted (hopens.readsFrom h.prepared) (h.accepted ha) hlay
    hsize hper
  change w.chunkCount a.plan.chunkBits a.planned.entry.size = _ at hcount
  rw [hcount]
  exact (holdsMap_written h ha hlay hf hpos).statRanges_iff hindexed h48 hino

/-- A metadata-only file of `size` bytes. -/
def sparseEntry (size : ℕ) : ErofsEntry :=
  { mode := Mode.reg, nlink := 1, size, name := [102], path := [], metadataOnly := true }

/-- A directory, and the file in it. -/
def sparseSet (size : ℕ) : List (ErofsEntry × ℕ) :=
  [({ mode := Mode.dir, nlink := 2, name := [], path := [] }, 40), (sparseEntry size, 0)]

/-- The set as it is written, in an image of 512-byte blocks. -/
def sparseTree (size : ℕ) : List (Planned × ErofsDir) :=
  (tailWriter.planned (sparseSet size)).zip [⟨0, 0, [⟨[102], 3, 1⟩]⟩, ⟨0, 0, []⟩]

theorem sparseTree_prepared {size : ℕ} (hsize : size = 2 ^ 32 ∨ size = 2 ^ 32 + 1) :
    tailWriter.Prepared (sparseTree size) := by
  have hdir : ErofsDir.Ok ⟨0, 0, [⟨[102], 3, 1⟩]⟩ := by
    refine ⟨by decide, ?_, by decide, by decide, by decide, by decide⟩
    intro de hde
    obtain rfl := List.mem_singleton.1 hde
    exact ⟨by decide, by decide, by decide⟩
  refine ⟨⟨9, by decide, by decide, rfl⟩, by decide, ⟨sparseSet size, rfl⟩, ?_⟩
  intro q hq
  obtain rfl | rfl : q = (⟨_, _, _⟩, ⟨0, 0, [⟨[102], 3, 1⟩]⟩) ∨ q = (⟨_, _, _⟩, ⟨0, 0, []⟩) := by
    simpa [sparseTree, ErofsWriter.planned, sparseSet, ErofsWriter.planLayout,
      ErofsWriter.planEntries] using hq
  · refine ⟨by decide, by decide, ?_, by decide, fun _ => by decide, fun _ => hdir⟩
    exact fun h => absurd h (by decide)
  · obtain rfl | rfl := hsize
    all_goals
      refine ⟨by decide, by decide, ?_, by decide, fun h => absurd h (by decide),
        fun h => absurd h (by decide)⟩
      exact fun _ h => absurd (by decide) h

theorem sparseTree_encodable {size : ℕ} (hsize : size = 2 ^ 32 ∨ size = 2 ^ 32 + 1) :
    ∀ q ∈ sparseTree size, q.1.entry.Encodable q.1.direntSize := by
  intro q hq
  obtain rfl | rfl : q = (⟨_, _, _⟩, ⟨0, 0, [⟨[102], 3, 1⟩]⟩) ∨ q = (⟨_, _, _⟩, ⟨0, 0, []⟩) := by
    simpa [sparseTree, ErofsWriter.planned, sparseSet, ErofsWriter.planLayout,
      ErofsWriter.planEntries] using hq
  · exact ⟨.inr (.inl rfl), by decide, by decide, by decide, by decide, by decide, by decide,
      by decide, fun hl => absurd hl (by decide), by decide, by decide⟩
  · obtain rfl | rfl := hsize
    all_goals
      exact ⟨.inl rfl, by decide, by decide, by decide, by decide, by decide, by decide,
        by decide, fun hl => absurd hl (by decide), by decide, by decide⟩

/-- The image of the set is written and opened, and the file is found in it. -/
theorem sparseTree_written {size : ℕ} (hsize : size = 2 ^ 32 ∨ size = 2 ^ 32 + 1) :
    ∃ out' img a ino, tailWriter.write (sparseTree size) {} = .ok out' ∧
      (openImage 0 fun _ => none).run (holding fun _ => out'.bytes) = .ok img ∧
      tailWriter.WrittenAs (sparseTree size) (fun _ => out'.bytes) img ∧
      a ∈ tailWriter.assigned (sparseTree size) ∧
      a.planned ∈ tailWriter.planned (sparseSet size) ∧ a.planned.entry = sparseEntry size ∧
      a.plan.layout = .chunkBased ∧ a.plan.nid = 3 ∧ a.plan.chunkBits = 0 ∧ a.ftype = 0 ∧
      ino.icsize = 64 ∧ tailWriter.Finds img (fun _ => out'.bytes) a [102] ino := by
  have hprep := sparseTree_prepared hsize
  have hlimits : tailWriter.checkLimits ((sparseTree size).map Prod.fst) = .ok () := by
    obtain rfl | rfl := hsize <;> decide
  have hne : sparseTree size ≠ [] := by
    obtain rfl | rfl := hsize <;> decide
  obtain ⟨out', hok⟩ := @write_never tailWriter (sparseTree size) {} hprep hlimits (by decide)
    fun _ => rfl
  obtain ⟨img, hopen, hwritten⟩ := @writtenAs_open tailWriter (sparseTree size)
    (fun _ => out'.bytes) (fun _ => none) {} out' hprep hne (by decide) (by decide) rfl
    (sparseTree_encodable hsize) hok rfl rfl rfl (.inl rfl)
  obtain ⟨a, ha, hmem, hentry, hlay, hnid, hbits, hcore, hxattrs⟩ :
      ∃ a ∈ tailWriter.assigned (sparseTree size),
      a.planned ∈ tailWriter.planned (sparseSet size) ∧ a.planned.entry = sparseEntry size ∧
        a.plan.layout = .chunkBased ∧ a.plan.nid = 3 ∧ a.plan.chunkBits = 0 ∧
        inodeCoreSize a.plan.compact = 64 ∧ a.plan.xattrSize = 0 := by
    obtain rfl | rfl := hsize
    all_goals
      exact ⟨(tailWriter.assigned (sparseTree _))[1], List.getElem_mem (by decide), by decide,
        by decide, by decide, by decide, by decide, by decide, by decide⟩
  have hftype : a.ftype = 0 := by
    rw [Assigned.ftype, hentry]
    change (eroFSModeToGoFileMode Mode.reg).typ = 0
    decide
  obtain ⟨ino, hf⟩ := finds_written hwritten ha [102]
  -- the file has more than 32 bits of size, so its inode is an extended one
  have hicsize : ino.icsize = 64 := by
    have htrailing := hf.back.trailing
    rw [Inode.flatDataOffset, hf.back.xsize, hcore, hxattrs] at htrailing
    exact htrailing
  exact ⟨out', img, a, ino, hok, hopen, hwritten, ha, hmem, hentry, hlay, hnid, hbits, hftype,
    hicsize, hf⟩

namespace Image

/-- `write` takes a file of 4 GiB and a byte and `Open` takes the image, and `Stat` of the file
refuses its map of 2²³ + 1 entries, which is in the image as a whole. -/
theorem sparseEntry_refused :
    ∃ out' img ino, tailWriter.checkLimits (tailWriter.planned (sparseSet (2 ^ 32 + 1))) = .ok () ∧
      tailWriter.write (sparseTree (2 ^ 32 + 1)) {} = .ok out' ∧
      (openImage 0 fun _ => none).run (holding fun _ => out'.bytes) = .ok img ∧
      (img.readInfo [102] 3 0).run (holding fun _ => out'.bytes) = .ok ino ∧
      img.ReadsFrom tailWriter ∧ img.HoldsMap ino ∧ ino.icsize = 64 ∧
      (∃ x ∈ tailWriter.planned (sparseSet (2 ^ 32 + 1)), ∃ dataBlkAddr,
        x.entry = sparseEntry (2 ^ 32 + 1) ∧ x.plan.layout = .chunkBased ∧ x.plan.nid = ino.nid ∧
        ino.size = x.entry.size ∧ ino.inodeData = tailWriter.inodeData x.entry x.plan dataBlkAddr) ∧
      img.chunkIndexFits (img.chunkMapStart ino) (img.chunkCount ino * chunkUnit ino) = false ∧
      img.statRanges ino =
        .done (.error (errorf "chunk index of nid %d lies past the end of the image: %w" [.int 3]
          .corrupt)) := by
  obtain ⟨out', img, a, ino, hok, hopen, hwritten, ha, hmem, hentry, hlay, hnid, hbits, hftype,
    hicsize, hf⟩ := sparseTree_written (.inr rfl)
  obtain ⟨hsize, hino⟩ := regular_written hwritten ha hlay hf
  obtain ⟨sizes, hopens⟩ := hwritten.opens
  obtain ⟨-, -, -, off, hplan⟩ := hwritten.entry ha
  obtain ⟨hindexed, h48, hper⟩ := chunkFormat_written rfl hplan hlay hf.data
  have hreads := hopens.readsFrom hwritten.prepared
  have hbytes : ino.size = 2 ^ 32 + 1 := by rw [hsize, hentry, sparseEntry]
  have hholds := holdsMap_written hwritten ha hlay hf (by omega)
  have hcount : img.chunkCount ino = 2 ^ 23 + 1 := by
    have hbits : a.planned.plan.chunkBits = 0 := hbits
    rw [← chunkCount_accepted hreads (hwritten.accepted ha) hlay hsize hper, hentry, hbits]
    decide
  have hfits : img.chunkIndexFits (img.chunkMapStart ino) (img.chunkCount ino * chunkUnit ino) =
      false := by
    rw [← Bool.not_eq_true, hholds.chunkIndexFits_iff hindexed, hcount]
    decide
  have hread := hf.read
  rw [hnid, hftype] at hread
  refine ⟨out', img, ino, by decide, hok, hopen, hread, hreads, hholds, hicsize,
    ⟨a.planned, hmem, a.dataBlkAddr, hentry, hlay, hf.nid.symm, hsize, hf.data⟩, hfits, ?_⟩
  rw [statRanges_refused h48 hino (by omega) hfits, hf.nid, hnid]
  rfl

/-- With a byte less the map has 2²³ entries, and is read. -/
theorem fullMapEntry_fits :
    ∃ out' img ino, tailWriter.write (sparseTree (2 ^ 32)) {} = .ok out' ∧
      (openImage 0 fun _ => none).run (holding fun _ => out'.bytes) = .ok img ∧
      (img.readInfo [102] 3 0).run (holding fun _ => out'.bytes) = .ok ino ∧
      (img.chunkIndexFits (img.chunkMapStart ino) (img.chunkCount ino * chunkUnit ino) = true ↔
        tailWriter.chunkCount 0 (2 ^ 32) ≤ 2 ^ 23) ∧
      ((∀ e, img.statRanges ino ≠ .done (.error e)) ↔
        tailWriter.chunkCount 0 (2 ^ 32) ≤ 2 ^ 23) ∧ tailWriter.chunkCount 0 (2 ^ 32) = 2 ^ 23 := by
  obtain ⟨out', img, a, ino, hok, hopen, hwritten, ha, hmem, hentry, hlay, hnid, hbits, hftype, -,
    hf⟩ := sparseTree_written (.inl rfl)
  obtain ⟨hsize, hino⟩ := regular_written hwritten ha hlay hf
  obtain ⟨sizes, hopens⟩ := hwritten.opens
  have hbytes : ino.size = 2 ^ 32 := by rw [hsize, hentry, sparseEntry]
  have hread := hf.read
  rw [hnid, hftype] at hread
  obtain ⟨h₁, h₂⟩ := chunkMap_fits_iff (hopens.readsFrom hwritten.prepared) rfl (by decide) hmem
    hlay hsize hf.data hino (holdsMap_written hwritten ha hlay hf (by omega))
  have hbits : a.planned.plan.chunkBits = 0 := hbits
  rw [hentry, hbits] at h₁ h₂
  exact ⟨out', img, ino, hok, hopen, hread, h₁, h₂, by decide⟩

end Image

end Written

end Erofs
