import Erofs.Writer.ChunkMap
import Erofs.Writer.Dirents

/-!
# The writer's limits

`checkLimits` (`writer.go`) runs before anything is serialized, and has to rule out every value the
format has no room for.  Block addresses are handed out later, by `assignDataBlocks`, in 32-bit
arithmetic; the running count of `checkLimits` bounds the sum of all of them.

The main result is `limits_exact`: what passes `checkLimits` is written without a value being cut
off.
-/

namespace Erofs

open GoPath LittleEndian

/-- An entry with what `planLayout` assigned to it; `direntSize` are the bytes of a directory's
dirents. -/
structure Planned where
  entry : ErofsEntry
  direntSize : ℕ
  plan : Plan
  deriving DecidableEq

namespace ErofsWriter

variable (w : ErofsWriter)

/-- The writer's entries once `planLayout` has placed them. -/
def planned (es : List (ErofsEntry × ℕ)) : List Planned :=
  (es.zip (w.planLayout es)).map fun x => ⟨x.1.1, x.1.2, x.2⟩

/-! ## Sizes -/

/-- `sbAreaSize`. -/
def sbAreaSize : ℕ :=
  let n := Disk.superBlockOffset + Disk.sizeSuperBlock + w.devices.length * Disk.sizeDeviceSlot
  (n + w.blockSize - 1) / w.blockSize * w.blockSize

/-- `sbAreaBlocks`. -/
def sbAreaBlocks : ℕ := w.sbAreaSize / w.blockSize

/-- `flatPlainDataSize`, with `int(e.size)`. -/
def flatPlainDataSize (x : Planned) : Int :=
  if x.plan.layout ≠ .flatPlain then 0
  else if x.entry.mode.typ = Mode.reg then
    if 0 < x.entry.size ∧ x.entry.data ≠ none then int64 x.entry.size else 0
  else if x.entry.mode.typ = Mode.dir then x.direntSize
  else if x.entry.mode.typ = Mode.symlink then x.entry.symTarget.length
  else 0

/-- One turn of `metadataBytes`: the slot of an entry starts at its nid. -/
def metadataEnd (curOff : ℕ) (x : Planned) : ℕ :=
  max curOff (x.plan.nid * 32) + inodeSlotAlign
    (inodeCoreSize x.plan.compact + x.plan.xattrSize + x.plan.chunkPad + x.plan.trailingSize)

/-- `metadataBytes`. -/
def metadataBytes (xs : List Planned) : ℕ := xs.foldl metadataEnd 0

/-- `metaBlocks`: the metadata in blocks. -/
def metaBlocks (xs : List Planned) : ℕ := (metadataBytes xs + w.blockSize - 1) / w.blockSize

/-! ## `checkLimits` -/

/-- The loop of `checkLimits` over the chunks of the entry at `p`; `end` is a `uint64`. -/
def checkChunks (p : Path) : List Chunk → Except GoError Unit
  | [] => .ok ()
  | c :: cs =>
    let last : ℕ := (c.physicalBlock + c.count) % 2 ^ 64
    if c.physicalBlock ≠ nullPhysicalBlock ∧ 2 ^ 32 - 1 < last then
      .error (errorf "mkfs: %s: chunk covering blocks %d..%d needs 48-bit addressing: %w"
        [.path p, .int c.physicalBlock, .int last] .notImplemented)
    else checkChunks p cs

/-- The first loop of `checkLimits`, for one entry. -/
def checkEntry (x : Planned) : Except GoError Unit :=
  if x.entry.mode.typ = Mode.symlink ∧ x.entry.symTarget = [] then
    .error (errorf "mkfs: %s: empty symlink target: %w" [.path x.entry.path] .invalid)
  else if x.plan.layout = .chunkBased ∧
      maxChunkIndexEntries < w.chunkCount x.plan.chunkBits x.entry.size then
    .error (errorf "mkfs: %s: chunk index for a %d byte file exceeds the %d entry limit: %w"
      [.path x.entry.path, .int x.entry.size, .int maxChunkIndexEntries] .invalid)
  else do
    checkChunks x.entry.path x.entry.chunks
    validateXattrs x.entry.path x.entry.xattrs
    if 0 < x.plan.xattrSize ∧ maxXattrICount < xattrICount x.plan.xattrSize then
      .error (errorf
        ("mkfs: %s: xattr area of %d bytes needs more than the %d entries " ++
          "i_xattr_icount can hold: %w")
        [.path x.entry.path, .int x.plan.xattrSize, .int maxXattrICount] .invalid)
    else .ok ()

/-- The blocks `checkLimits` counts for an entry: its data, and one for its tail. -/
def entryBlocks (x : Planned) : Int :=
  let ds := flatPlainDataSize x
  ds.tdiv w.blockSize + (if ds.tmod w.blockSize ≠ 0 then 1 else 0) +
    if x.entry.tail ≠ [] then 1 else 0

/-- The second loop of `checkLimits`, from `blocks` on. -/
def countBlocks : List Planned → Int → Except GoError Unit
  | [], _ => .ok ()
  | x :: xs, blocks =>
    let blocks := blocks + w.entryBlocks x
    if 2 ^ 32 - 1 < blocks then
      .error (errorf
        "mkfs: %s: image needs more than the %d blocks a 32-bit block address can name: %w"
        [.path x.entry.path, .int (2 ^ 32 - 1)] .invalid)
    else countBlocks xs blocks

/-- `checkLimits`. -/
def checkLimits (xs : List Planned) : Except GoError Unit := do
  forM xs w.checkEntry
  w.countBlocks xs (w.sbAreaBlocks + w.metaBlocks xs : ℕ)

/-! ## Addresses -/

/-- The addresses an entry gets: `dataBlkAddr` and `tailBlkAddr`, where they are assigned. -/
structure Addrs where
  data : Option ℕ
  tail : Option ℕ
  deriving DecidableEq

/-- The block after the data of an entry at `addr`, `narrow` being what becomes of a number that is
stored. -/
def dataEnd (narrow : ℕ → ℕ) (addr : ℕ) (x : Planned) : ℕ :=
  let ds := (flatPlainDataSize x).toNat
  if 0 < ds then narrow (addr + narrow ((ds + w.blockSize - 1) / w.blockSize)) else addr

/-- The block after the tail of an entry at `addr`. -/
def tailEnd (narrow : ℕ → ℕ) (addr : ℕ) (x : Planned) : ℕ :=
  if x.entry.tail ≠ [] then narrow (w.dataEnd narrow addr x + 1) else w.dataEnd narrow addr x

/-- The loop of `assignFlatPlainAddrs`; the second component is the first block after the data. -/
def assignWith (narrow : ℕ → ℕ) : List Planned → ℕ → List Addrs × ℕ
  | [], addr => ([], addr)
  | x :: xs, addr =>
    let r := assignWith narrow xs (w.tailEnd narrow addr x)
    (⟨if 0 < flatPlainDataSize x then some addr else none,
      if x.entry.tail ≠ [] then some (w.dataEnd narrow addr x) else none⟩ :: r.1, r.2)

/-- A value stored in a `uint32`. -/
def uint32 (n : ℕ) : ℕ := n % 2 ^ 32

/-- `assignDataBlocks`, which puts the metadata after the data: the addresses of the entries, and
`metaBlkAddr`. -/
def assignDataBlocks (xs : List Planned) : List Addrs × ℕ :=
  w.assignWith uint32 xs (uint32 w.sbAreaBlocks)

/-- The blocks `writeBlock0` counts for an entry. -/
def dataBlocks (x : Planned) : ℕ :=
  let ds := (flatPlainDataSize x).toNat
  (if 0 < ds then (ds + w.blockSize - 1) / w.blockSize else 0) + if x.entry.tail ≠ [] then 1 else 0

/-- `totalBlocks` of `writeBlock0`. -/
def totalBlocks (xs : List Planned) : ℕ :=
  w.sbAreaBlocks + w.metaBlocks xs + (xs.map w.dataBlocks).sum

end ErofsWriter

/-- The addresses `writeChunkIndexes` puts into indexes, before they are narrowed. -/
def indexAddrs (per : ℕ) : ℕ → List Chunk → ℕ → List ℕ
  | 0, _, _ => []
  | n + 1, [], coff => indexAddrs per n [] coff
  | n + 1, c :: cs, coff =>
    (if c.physicalBlock = nullPhysicalBlock then [] else [c.physicalBlock + coff]) ++
      indexAddrs per n (skipRuns (c :: cs) (coff + per)).1 (skipRuns (c :: cs) (coff + per)).2

/-! ## What an accepted entry is -/

section Accepted

variable {w : ErofsWriter} {x : Planned} {xs : List Planned} {p : Path}

theorem checkChunks_ok {cs : List Chunk} (h : ErofsWriter.checkChunks p cs = .ok ()) {c : Chunk}
    (hc : c ∈ cs) : c.physicalBlock = nullPhysicalBlock ∨
      (c.physicalBlock + c.count) % 2 ^ 64 ≤ 2 ^ 32 - 1 := by
  induction cs with
  | nil => cases hc
  | cons c' cs ih =>
    rw [ErofsWriter.checkChunks] at h
    split_ifs at h with hlast
    rcases List.mem_cons.1 hc with rfl | hc
    · by_cases hnull : c.physicalBlock = nullPhysicalBlock
      · exact .inl hnull
      · exact .inr (not_lt.1 fun hlt => hlast ⟨hnull, hlt⟩)
    · exact ih h hc

theorem validateXattrs_ok {xattrs : List (Bytes × Bytes)} (h : validateXattrs p xattrs = .ok ())
    {nv : Bytes × Bytes} (hnv : nv ∈ xattrs) : validateXattr nv.1 nv.2 = .ok () := by
  induction xattrs with
  | nil => cases hnv
  | cons nv' xattrs ih =>
    rw [validateXattrs] at h
    cases hv : validateXattr nv'.1 nv'.2 with
    | error e =>
      rw [hv] at h
      cases h
    | ok u =>
      rw [hv] at h
      rcases List.mem_cons.1 hnv with rfl | hnv
      · exact hv
      · exact ih h hnv

/-- What `checkEntry` accepts. -/
structure ErofsWriter.Accepted (w : ErofsWriter) (x : Planned) : Prop where
  chunkCount : x.plan.layout = .chunkBased →
    w.chunkCount x.plan.chunkBits x.entry.size ≤ maxChunkIndexEntries
  chunks : ∀ c ∈ x.entry.chunks, c.physicalBlock = nullPhysicalBlock ∨
    (c.physicalBlock + c.count) % 2 ^ 64 ≤ 2 ^ 32 - 1
  xattrs : ∀ nv ∈ x.entry.xattrs, validateXattr nv.1 nv.2 = .ok ()
  icount : xattrICount x.plan.xattrSize ≤ maxXattrICount

theorem checkEntry_ok (h : w.checkEntry x = .ok ()) : w.Accepted x := by
  unfold ErofsWriter.checkEntry at h
  split at h
  · cases h
  split at h
  · cases h
  rename_i h₂
  obtain ⟨_, hchunks, h⟩ := except_bind_ok h
  obtain ⟨_, hxattrs, h⟩ := except_bind_ok h
  split_ifs at h with h₃
  refine ⟨fun hlay => not_lt.1 fun hlt => h₂ ⟨hlay, hlt⟩, fun c hc => checkChunks_ok hchunks hc,
    fun nv hnv => validateXattrs_ok hxattrs hnv, ?_⟩
  by_contra hlt
  refine h₃ ⟨?_, not_le.1 hlt⟩
  by_contra hzero
  rw [Nat.eq_zero_of_not_pos hzero] at hlt
  exact hlt (by decide)

theorem checkEntry_of_forM (h : forM xs w.checkEntry = .ok ()) (hx : x ∈ xs) : w.Accepted x := by
  induction xs with
  | nil => cases hx
  | cons y xs ih =>
    rw [List.forM_cons] at h
    obtain ⟨_, hy, hrest⟩ := except_bind_ok h
    rcases List.mem_cons.1 hx with rfl | hx
    · exact checkEntry_ok hy
    · exact ih hrest hx

theorem checkLimits_ok (h : w.checkLimits xs = .ok ()) :
    (∀ x ∈ xs, w.Accepted x) ∧
      w.countBlocks xs (w.sbAreaBlocks + w.metaBlocks xs : ℕ) = .ok () := by
  obtain ⟨_, hentries, hblocks⟩ := except_bind_ok h
  exact ⟨fun x hx => checkEntry_of_forM hentries hx, hblocks⟩

end Accepted

/-! ## The count of blocks -/

section Blocks

variable {w : ErofsWriter} {x : Planned} {xs : List Planned} {addr : ℕ}

theorem flatPlainDataSize_nonneg (h : x.entry.size < 2 ^ 63) :
    0 ≤ ErofsWriter.flatPlainDataSize x := by
  have hsize : int64 x.entry.size = x.entry.size := int64_of (by omega) (by rw [maxInt64]; omega)
  unfold ErofsWriter.flatPlainDataSize
  split_ifs <;> omega

/-- Both ways of counting an entry's blocks agree. -/
theorem entryBlocks_eq (hbs : 0 < w.blockSize) (h : x.entry.size < 2 ^ 63) :
    w.entryBlocks x = w.dataBlocks x := by
  obtain ⟨ds, hds⟩ := Int.eq_ofNat_of_zero_le (flatPlainDataSize_nonneg h)
  have hceil : (ds / w.blockSize + if ds % w.blockSize ≠ 0 then 1 else 0) =
      if 0 < ds then (ds + w.blockSize - 1) / w.blockSize else 0 := by
    rw [Image.ceil_div_eq hbs]
    by_cases h0 : ds = 0
    · rw [if_pos h0, if_neg (by omega)]
    · have hsub : ds + w.blockSize - 1 = ds - 1 + w.blockSize := by omega
      rw [if_neg h0, if_pos (by omega), hsub, Nat.add_div_right _ hbs]
  have hquot : (ds : Int).tdiv w.blockSize + (if (ds : Int).tmod w.blockSize ≠ 0 then 1 else 0) =
      (ds / w.blockSize + if ds % w.blockSize ≠ 0 then 1 else 0 : ℕ) := by
    have hmod : ((ds % w.blockSize : ℕ) : Int) ≠ 0 ↔ ds % w.blockSize ≠ 0 := Nat.cast_ne_zero
    rw [← Int.ofNat_tdiv, ← Int.ofNat_tmod, Nat.cast_add, if_congr hmod rfl rfl]
    split_ifs <;> rfl
  unfold ErofsWriter.entryBlocks ErofsWriter.dataBlocks
  dsimp only
  rw [hds, Int.toNat_natCast, ← hceil, hquot]
  push_cast
  rfl

theorem countBlocks_ok (hbs : 0 < w.blockSize) (hsize : ∀ x ∈ xs, x.entry.size < 2 ^ 63)
    (hne : xs ≠ []) {blocks : ℕ} (h : w.countBlocks xs blocks = .ok ()) :
    blocks + (xs.map w.dataBlocks).sum ≤ 2 ^ 32 - 1 := by
  induction xs generalizing blocks with
  | nil => exact absurd rfl hne
  | cons x xs ih =>
    rw [ErofsWriter.countBlocks, entryBlocks_eq hbs (hsize x List.mem_cons_self)] at h
    split_ifs at h with hlt
    rw [← Nat.cast_add] at h
    rw [List.map_cons, List.sum_cons]
    by_cases hnil : xs = []
    · subst hnil
      simp
      omega
    · have := ih (fun y hy => hsize y (List.mem_cons_of_mem _ hy)) hnil h
      omega

/-- The count of an accepted set; without entries there is only the superblock area. -/
theorem totalBlocks_le (hbs : 512 ≤ w.blockSize) (hdev : w.devices.length ≤ 65535)
    (hsize : ∀ x ∈ xs, x.entry.size < 2 ^ 63) (h : w.checkLimits xs = .ok ()) :
    w.totalBlocks xs ≤ 2 ^ 32 - 1 := by
  by_cases hne : xs = []
  · subst hne
    have hn : 1024 + 128 + w.devices.length * 128 + w.blockSize - 1 <
        w.blockSize * 2 ^ 24 := by omega
    have harea : (1024 + 128 + w.devices.length * 128 + w.blockSize - 1) / w.blockSize < 2 ^ 24 :=
      Nat.div_lt_of_lt_mul hn
    have hmeta : w.metaBlocks [] = 0 :=
      Nat.div_eq_of_lt (by simp [ErofsWriter.metadataBytes]; omega)
    rw [ErofsWriter.totalBlocks, hmeta, ErofsWriter.sbAreaBlocks, ErofsWriter.sbAreaSize,
      Nat.mul_div_cancel _ (by omega)]
    simp only [Disk.superBlockOffset, Disk.sizeSuperBlock, Disk.sizeDeviceSlot, List.map_nil,
      List.sum_nil]
    omega
  · exact countBlocks_ok (by omega) hsize hne (checkLimits_ok h).2

theorem uint32_of {n : ℕ} (h : n ≤ 2 ^ 32 - 1) : ErofsWriter.uint32 n = n :=
  Nat.mod_eq_of_lt (by omega)

theorem dataEnd_exact (h : addr + w.dataBlocks x ≤ 2 ^ 32 - 1) :
    w.dataEnd ErofsWriter.uint32 addr x = w.dataEnd id addr x := by
  unfold ErofsWriter.dataBlocks at h
  unfold ErofsWriter.dataEnd
  dsimp only [id] at h ⊢
  split_ifs at h ⊢
  all_goals first
    | rfl
    | rw [uint32_of (n := (_ + _ - 1) / _) (by omega), uint32_of (by omega)]

theorem tailEnd_eq (addr : ℕ) (x : Planned) :
    w.tailEnd id addr x = addr + w.dataBlocks x := by
  unfold ErofsWriter.tailEnd ErofsWriter.dataEnd ErofsWriter.dataBlocks
  dsimp only [id]
  split_ifs <;> omega

theorem tailEnd_exact (h : addr + w.dataBlocks x ≤ 2 ^ 32 - 1) :
    w.tailEnd ErofsWriter.uint32 addr x = w.tailEnd id addr x := by
  have hend := tailEnd_eq (w := w) addr x
  unfold ErofsWriter.tailEnd at hend ⊢
  rw [dataEnd_exact h]
  split_ifs at hend ⊢
  · exact uint32_of (le_of_eq_of_le hend h)
  · rfl

/-- An address that is handed out has a block behind it. -/
theorem addr_lt_tailEnd (hbs : 0 < w.blockSize) (addr : ℕ) (x : Planned) :
    (0 < ErofsWriter.flatPlainDataSize x → addr < w.tailEnd id addr x) ∧
      (x.entry.tail ≠ [] → w.dataEnd id addr x < w.tailEnd id addr x) := by
  constructor
  · intro hds
    have hblk : 0 < ((ErofsWriter.flatPlainDataSize x).toNat + w.blockSize - 1) / w.blockSize :=
      Nat.div_pos (by omega) hbs
    rw [tailEnd_eq, ErofsWriter.dataBlocks, if_pos (by omega)]
    omega
  · intro htail
    rw [ErofsWriter.tailEnd, if_pos htail]
    exact Nat.lt_succ_self _

/-- **Addresses.**  Where the blocks from `addr` on stay below 2³², nothing is narrowed in handing
them out, and no address is the null one. -/
theorem assignWith_exact (hbs : 0 < w.blockSize)
    (h : addr + (xs.map w.dataBlocks).sum ≤ 2 ^ 32 - 1) :
    w.assignWith ErofsWriter.uint32 xs addr = w.assignWith id xs addr ∧
      (w.assignWith id xs addr).2 = addr + (xs.map w.dataBlocks).sum ∧
      ∀ a ∈ (w.assignWith id xs addr).1, ∀ b, a.data = some b ∨ a.tail = some b →
        b < 2 ^ 32 - 1 := by
  induction xs generalizing addr with
  | nil => exact ⟨rfl, rfl, fun a ha => absurd ha List.not_mem_nil⟩
  | cons x xs ih =>
    rw [List.map_cons, List.sum_cons] at h ⊢
    have hx : addr + w.dataBlocks x ≤ 2 ^ 32 - 1 := by omega
    have hend := tailEnd_eq (w := w) addr x
    obtain ⟨heq, hlast, hlt⟩ := @ih (w.tailEnd id addr x) (by omega)
    obtain ⟨hdata, htail⟩ := addr_lt_tailEnd hbs addr x
    refine ⟨?_, ?_, ?_⟩
    · rw [ErofsWriter.assignWith, ErofsWriter.assignWith, tailEnd_exact hx, dataEnd_exact hx, heq]
    · rw [ErofsWriter.assignWith]
      dsimp only
      omega
    · intro a ha b hb
      rw [ErofsWriter.assignWith] at ha
      rcases List.mem_cons.1 ha with rfl | ha
      · rcases hb with hb | hb
        · dsimp only at hb
          split_ifs at hb with hds
          cases hb
          have := hdata hds
          omega
        · dsimp only at hb
          split_ifs at hb with ht
          cases hb
          have := htail ht
          omega
      · exact hlt a ha b hb

end Blocks

/-! ## Chunk addresses and name offsets -/

/-- The addresses in indexes stay within the runs: `coff` is inside the first run, or at its
start. -/
theorem indexAddrs_lt {per n coff : ℕ} {cs : List Chunk} (hin : coff = 0 ∨ InRun cs coff)
    (hcs : ∀ c ∈ cs, c.physicalBlock = nullPhysicalBlock ∨ c.physicalBlock + c.count ≤ 2 ^ 32 - 1) :
    ∀ a ∈ indexAddrs per n cs coff, a < 2 ^ 32 := by
  induction n generalizing cs coff with
  | zero =>
    intro a ha
    cases ha
  | succ n ih =>
    intro a ha
    cases cs with
    | nil => exact ih hin hcs a ha
    | cons c cs =>
      rcases List.mem_append.1 ha with ha | ha
      · split_ifs at ha with hnull
        · cases ha
        · obtain rfl := List.mem_singleton.1 ha
          have hle := (hcs c List.mem_cons_self).resolve_left hnull
          rcases hin with rfl | hin
          · omega
          · have := hin c rfl
            omega
      · exact ih (.inr (inRun_skipRuns _ _)) (fun c' hc' => hcs c' (skipRuns_subset _ _ hc')) a ha

/-- A name starts inside its block, also where the block holds one entry that is too large. -/
theorem nameOffset_lt {bs fuel : ℕ} {ents c : List DirentInfo} (hbs : bs ≤ 65536)
    (hne : ∀ de ∈ ents, de.name ≠ []) (hc : c ∈ pack bs fuel ents) {i : ℕ} (hi : i < c.length) :
    nameOffset c i < 2 ^ 16 := by
  induction fuel generalizing ents with
  | zero => cases hc
  | succ fuel ih =>
    rw [pack] at hc
    split_ifs at hc with hnil
    · cases hc
    rcases List.mem_cons.1 hc with rfl | hc
    · obtain ⟨m, hm, hcount, -, hpos⟩ := @fitBlock_spec bs (namesOf ents) 0 0 0
      rw [Nat.zero_add] at hcount
      rcases Nat.eq_zero_or_pos m with rfl | hm0
      · have hone : (nextBlock bs (namesOf ents)).1 = 1 := by
          rw [nextBlock]
          dsimp only
          rw [if_pos hcount]
        rw [hone] at hi ⊢
        have hlen := List.length_take_le 1 ents
        obtain rfl : i = 0 := by omega
        rw [nameOffset, List.take_zero]
        simp only [namesOf, List.map_nil, nameBytes_nil]
        omega
      · have hfit : (nextBlock bs (namesOf ents)).1 = m := by
          rw [nextBlock]
          dsimp only
          rw [if_neg (by omega), hcount]
        rw [hfit] at hi ⊢
        obtain ⟨hused, hle⟩ := hpos hm0
        have hget : (ents.take m)[i]? = some (ents.take m)[i] := List.getElem?_eq_getElem hi
        have hname : 0 < (ents.take m)[i].name.length :=
          List.length_pos_iff.2 (hne _ (List.mem_of_mem_take (List.getElem_mem hi)))
        have hend := nameOffset_add_le hget
        have hmap : namesOf (ents.take m) = (namesOf ents).take m := List.map_take
        have hlen : (ents.take m).length ≤ m := List.length_take_le m ents
        rw [length_direntBlock, hmap] at hend
        omega
    · exact ih (fun de hde => hne de (List.mem_of_mem_drop hde)) hc

/-! ## What passes is written exactly -/

section Exact

variable {w : ErofsWriter} {es : List (ErofsEntry × ℕ)} {x : Planned}

/-- Each planned entry has its plan from one turn of `planLayout`. -/
theorem planned_mem (hx : x ∈ w.planned es) :
    (x.entry, x.direntSize) ∈ es ∧
      ∃ currentOff, x.plan = (w.planEntry x.entry x.direntSize currentOff).1 := by
  unfold ErofsWriter.planned ErofsWriter.planLayout at hx
  generalize 0 = off at hx
  induction es generalizing off with
  | nil => cases hx
  | cons e es ih =>
    obtain ⟨e, direntSize⟩ := e
    rw [ErofsWriter.planEntries, List.zip_cons_cons, List.map_cons] at hx
    rcases List.mem_cons.1 hx with rfl | hx
    · exact ⟨List.mem_cons_self, off, rfl⟩
    · obtain ⟨hmem, hplan⟩ := ih _ hx
      exact ⟨List.mem_cons_of_mem _ hmem, hplan⟩

variable (w) in
/-- Every value that is narrowed when the entries `xs` are serialized is the value before. -/
structure ErofsWriter.Exact (xs : List Planned) : Prop where
  /-- The superblock area, the metadata and the data. -/
  blocks : w.totalBlocks xs ≤ 2 ^ 32 - 1
  blockCount : ErofsWriter.uint32 (w.totalBlocks xs) = w.totalBlocks xs
  /-- The addresses of data and tails, and `metaBlkAddr`. -/
  addrs : w.assignDataBlocks xs = w.assignWith id xs w.sbAreaBlocks
  metaBlkAddr : (w.assignDataBlocks xs).2 + w.metaBlocks xs = w.totalBlocks xs
  notNull : ∀ a ∈ (w.assignDataBlocks xs).1, ∀ b, a.data = some b ∨ a.tail = some b →
    b ≠ 2 ^ 32 - 1
  chunks : ∀ q ∈ xs.zip (w.assignDataBlocks xs).1, ∀ tailAddr, q.2.tail = some tailAddr ∨
    q.1.entry.tail = [] → ∀ b ∈ indexAddrs (w.entryChunkSize q.1.plan.chunkBits / w.blockSize)
      (w.chunkCount q.1.plan.chunkBits q.1.entry.size) (q.1.entry.withTail tailAddr).chunks 0,
      ErofsWriter.uint32 (b % 2 ^ 64) = b
  xattrs : ∀ x ∈ xs, ∀ nv ∈ x.entry.xattrs,
    (xattrSplit nv.1).2.length % 2 ^ 8 = (xattrSplit nv.1).2.length ∧
      nv.2.length % 2 ^ 16 = nv.2.length
  icount : ∀ x ∈ xs, xattrCount x.plan.xattrSize = xattrICount x.plan.xattrSize
  compact : ∀ x ∈ xs, x.plan.compact = true → x.entry.uid % 2 ^ 16 = x.entry.uid ∧
    x.entry.gid % 2 ^ 16 = x.entry.gid ∧ x.entry.nlink % 2 ^ 16 = x.entry.nlink ∧
    inodeFileSize x.entry x.direntSize % 2 ^ 32 = inodeFileSize x.entry x.direntSize
  /-- The offsets of names in the blocks of any directory. -/
  nameOffs : ∀ d : ErofsDir, (∀ de ∈ d.children, de.name ≠ []) →
    ∀ c ∈ pack w.blockSize (allEnts d).length (allEnts d), ∀ i < c.length,
      nameOffset c i % 2 ^ 16 = nameOffset c i

/-- A chunk as the writer's sources make it: a run of at most 65535 blocks, a hole or from a block
below 2⁵⁵. -/
def Chunk.Sourced (c : Chunk) : Prop :=
  c.count < 2 ^ 16 ∧ (c.physicalBlock < 2 ^ 55 ∨ c.physicalBlock = nullPhysicalBlock)

theorem Chunk.Sourced.bounded {c : Chunk} (h : c.Sourced)
    (hle : c.physicalBlock = nullPhysicalBlock ∨
      (c.physicalBlock + c.count) % 2 ^ 64 ≤ 2 ^ 32 - 1) :
    c.physicalBlock = nullPhysicalBlock ∨ c.physicalBlock + c.count ≤ 2 ^ 32 - 1 := by
  obtain ⟨hcount, hstart | hnull⟩ := h
  · refine hle.imp_right fun hle => ?_
    rwa [Nat.mod_eq_of_lt (by omega)] at hle
  · exact .inl hnull

/-- The runs of an entry with its tail's are all within 32 bits. -/
theorem bounded_withTail {e : ErofsEntry} {tailAddr : ℕ}
    (hcs : ∀ c ∈ e.chunks, c.physicalBlock = nullPhysicalBlock ∨
      c.physicalBlock + c.count ≤ 2 ^ 32 - 1)
    (htail : e.tail ≠ [] → tailAddr < 2 ^ 32 - 1) :
    ∀ c ∈ (e.withTail tailAddr).chunks, c.physicalBlock = nullPhysicalBlock ∨
      c.physicalBlock + c.count ≤ 2 ^ 32 - 1 := by
  intro c hc
  unfold ErofsEntry.withTail at hc
  split_ifs at hc with hnil
  · exact hcs c hc
  · rcases List.mem_append.1 hc with hc | hc
    · exact hcs c hc
    · obtain rfl := List.mem_singleton.1 hc
      have := htail hnil
      exact .inr (by dsimp only; omega)

/-- **Nothing is cut off.**  For a writer of a supported block size and its planned entries, with
chunks as the sources make them and sizes below 2⁶³: once `checkLimits` returns nil, the image has
at most 2³² - 1 blocks and every value that is narrowed is written as it is. -/
theorem limits_exact (hlo : 512 ≤ w.blockSize) (hhi : w.blockSize ≤ 65536)
    (hdev : w.devices.length ≤ 65535) (hchunks : ∀ e ∈ es, ∀ c ∈ e.1.chunks, c.Sourced)
    (hsize : ∀ e ∈ es, e.1.size < 2 ^ 63) (h : w.checkLimits (w.planned es) = .ok ()) :
    w.Exact (w.planned es) := by
  obtain ⟨hacc, -⟩ := checkLimits_ok h
  have htotal := totalBlocks_le hlo hdev (fun x hx => hsize _ (planned_mem hx).1) h
  have hsum : w.sbAreaBlocks + ((w.planned es).map w.dataBlocks).sum + w.metaBlocks (w.planned es) =
      w.totalBlocks (w.planned es) := by
    unfold ErofsWriter.totalBlocks
    omega
  obtain ⟨heq, hlast, hlt⟩ :=
    @assignWith_exact w (w.planned es) w.sbAreaBlocks (by omega) (by omega)
  have hassign : w.assignDataBlocks (w.planned es) =
      w.assignWith id (w.planned es) w.sbAreaBlocks := by
    rw [ErofsWriter.assignDataBlocks, uint32_of (by omega), heq]
  have hbounded : ∀ x ∈ w.planned es, ∀ c ∈ x.entry.chunks, c.physicalBlock = nullPhysicalBlock ∨
      c.physicalBlock + c.count ≤ 2 ^ 32 - 1 := fun x hx c hc =>
    (hchunks _ (planned_mem hx).1 c hc).bounded ((hacc x hx).chunks c hc)
  refine ⟨htotal, uint32_of htotal, hassign, ?_, ?_, ?_, ?_, ?_, ?_, ?_⟩
  · rw [hassign, hlast, hsum]
  · intro a ha b hb
    rw [hassign] at ha
    exact (hlt a ha b hb).ne
  · rintro ⟨x, a⟩ hq tailAddr htail b hb
    obtain ⟨hx, ha⟩ := List.of_mem_zip hq
    rw [hassign] at ha
    have haddr : x.entry.tail ≠ [] → tailAddr < 2 ^ 32 - 1 := fun hne =>
      hlt a ha tailAddr (.inr (htail.resolve_right hne))
    have := indexAddrs_lt (.inl rfl) (bounded_withTail (hbounded x hx) haddr) b hb
    rw [Nat.mod_eq_of_lt (by omega)]
    exact uint32_of (by omega)
  · intro x hx nv hnv
    obtain ⟨hname, hvalue⟩ := validateXattr_ok ((hacc x hx).xattrs nv hnv)
    exact ⟨Nat.mod_eq_of_lt hname, Nat.mod_eq_of_lt hvalue⟩
  · intro x hx
    have := (hacc x hx).icount
    rw [maxXattrICount] at this
    exact Nat.mod_eq_of_lt (by omega)
  · intro x hx hc
    obtain ⟨-, off, hplan⟩ := planned_mem hx
    rw [hplan] at hc
    obtain ⟨huid, hgid, hnlink, hfile, -⟩ := ErofsWriter.isCompact_iff.1 hc
    refine ⟨?_, ?_, ?_, ?_⟩ <;> exact Nat.mod_eq_of_lt (by omega)
  · intro d hd c hc i hi
    refine Nat.mod_eq_of_lt (nameOffset_lt hhi ?_ hc hi)
    intro de hde
    rcases List.mem_cons.1 ((List.mem_insertionSort _).1 hde) with rfl | hde
    · exact List.cons_ne_nil _ _
    rcases List.mem_cons.1 hde with rfl | hde
    · exact List.cons_ne_nil _ _
    · exact hd de hde

/-- A directory and a file of a block and a tail. -/
def tailSet : List (ErofsEntry × ℕ) :=
  [({ mode := Mode.dir, nlink := 2, name := [], path := [] }, 40), (tailEntry, 0)]

/-- The tail of the file is in block 3, after the superblock area. -/
theorem tailSet_exact :
    tailWriter.checkLimits (tailWriter.planned tailSet) = .ok () ∧
      (tailWriter.assignDataBlocks (tailWriter.planned tailSet)).1.map (·.tail) = [none, some 3] ∧
      tailWriter.Exact (tailWriter.planned tailSet) := by
  have hok : tailWriter.checkLimits (tailWriter.planned tailSet) = .ok () := by decide
  have hchunks : ∀ e ∈ tailSet, ∀ c ∈ e.1.chunks, c.count < 2 ^ 16 ∧
      (c.physicalBlock < 2 ^ 55 ∨ c.physicalBlock = nullPhysicalBlock) := by decide
  exact ⟨hok, by decide,
    limits_exact (by decide) (by decide) (by decide) hchunks (by decide) hok⟩

end Exact

end Erofs
