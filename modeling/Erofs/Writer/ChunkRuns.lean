import Erofs.Reader.Place
import Erofs.Writer.ImageCopy
import Erofs.Writer.Runs

/-!
# The runs of a chunk-based file

The metadata copy decodes the chunk map of a file itself: `parseChunks` for indexes, joining chunks
that follow each other into one run, and `parseBlockMap` for block addresses.  Expanded, the runs
have every block of the file where its chunk is placed.

The main result is `sourceRuns_placed`.
-/

namespace Erofs

open GoPath LittleEndian

/-! ## Runs of equal length -/

variable {acc : List Chunk} {per dev phys : ℕ}

/-- The runs fit their 16-bit counts, and none is empty. -/
def Counted (cs : List Chunk) : Prop := ∀ c ∈ cs, 0 < c.count ∧ c.count ≤ 65535

theorem Counted.joinHole (h : Counted acc) (hpos : 0 < per) (hper : per ≤ 65535) :
    Counted (joinHole per acc) := by
  cases acc with
  | nil => simpa [Erofs.joinHole, Counted] using ⟨hpos, hper⟩
  | cons c cs =>
    obtain ⟨hc, hcs⟩ := List.forall_mem_cons.1 h
    rw [Erofs.joinHole]
    split_ifs with hjoin
    · exact List.forall_mem_cons.2 ⟨⟨by dsimp only; omega, hjoin.2⟩, hcs⟩
    · exact List.forall_mem_cons.2 ⟨⟨hpos, hper⟩, h⟩

theorem Counted.joinData (h : Counted acc) (hpos : 0 < per) (hper : per ≤ 65535) :
    Counted (joinData dev phys per acc) := by
  cases acc with
  | nil => simpa [Erofs.joinData, Counted] using ⟨hpos, hper⟩
  | cons c cs =>
    obtain ⟨hc, hcs⟩ := List.forall_mem_cons.1 h
    rw [Erofs.joinData]
    split_ifs with hjoin
    · exact List.forall_mem_cons.2 ⟨⟨by dsimp only; omega, hjoin.2.2.2⟩, hcs⟩
    · exact List.forall_mem_cons.2 ⟨⟨hpos, hper⟩, h⟩

/-! ## Where a chunk starts -/

namespace Image

variable {img : Image} {data : Bytes} {fileSize chunkBits : ℕ}

variable (img) in
/-- A chunk with the entry `e` starts at block `s.1` of device `s.2`; a hole, at the null block. -/
def ChunkStarts (e : Option ChunkEntry) (s : ℕ × ℕ) : Prop :=
  match e with
  | none => s.1 = nullPhysicalBlock
  | some c => s.1 + 2 ^ 31 ≤ nullPhysicalBlock ∧
      img.locate c.device (c.block * img.blockSize : ℕ) = .ok (s.2, (s.1 * img.blockSize : ℕ))

variable (img) in
/-- The index of chunk `i`. -/
def indexEntry (data : Bytes) (i : ℕ) : Option ChunkEntry :=
  let entry := data.drop (i * Disk.sizeChunkIndex)
  if field entry 4 4 = 2 ^ 32 - 1 then none
  else some ⟨field entry 2 2 &&& img.deviceIDMask, field entry 4 4⟩

/-- The layout of chunks that start at `starts`, of `per` blocks each. -/
def chunkLayout (per : ℕ) (starts : List (ℕ × ℕ)) : List (Option (ℕ × ℕ)) :=
  starts.flatMap fun s => (List.range per).map (blockFrom s.1 s.2)

/-- The runs lay out the chunks from the `i`-th on, `k` of them. -/
def LaysOut (img : Image) (es : ℕ → Option ChunkEntry) (per i k : ℕ)
    (layout : List (Option (ℕ × ℕ))) : Prop :=
  ∃ starts, starts.length = k ∧
    (∀ j s, starts[j]? = some s → img.ChunkStarts (es (i + j)) s) ∧ layout = chunkLayout per starts

/-- One chunk before the others. -/
theorem LaysOut.cons {es : ℕ → Option ChunkEntry} {i k : ℕ} {rest : List (Option (ℕ × ℕ))}
    {s : ℕ × ℕ} (h : LaysOut img es per (i + 1) k rest) (hs : img.ChunkStarts (es i) s) :
    LaysOut img es per i (k + 1) ((List.range per).map (blockFrom s.1 s.2) ++ rest) := by
  obtain ⟨starts, hlen, hstarts, rfl⟩ := h
  refine ⟨s :: starts, by simp [hlen], fun j t ht => ?_, rfl⟩
  cases j with
  | zero =>
    cases ht
    exact hs
  | succ j =>
    have := hstarts j t ht
    rwa [show i + 1 + j = i + (j + 1) by omega] at this

/-! ## The two parsers -/

variable {ino : Inode}

variable (img ino) in
/-- The entry of chunk `c` in the map `data`, as the reader decodes it. -/
def mapEntry (data : Bytes) (c : ℕ) : Option ChunkEntry :=
  img.decodeEntry ino ((data.drop (c * chunkUnit ino)).take (chunkUnit ino))

theorem mapEntry_indexed (h : ino.chunkIndexed = true) :
    img.mapEntry ino data = img.indexEntry data := by
  funext c
  rw [mapEntry, indexEntry, decodeEntry, if_pos h, chunkUnit, if_pos h, field_take (by omega),
    field_take (by omega)]
  rfl

/-- The number of blocks of a chunk. -/
def blocksPerChunk (ino : Inode) : ℕ := 2 ^ (ino.chunkFormat &&& 0x1f)

/-- The chunk that a block of the file is in is one of the map's. -/
theorem chunk_of_block {b : ℕ} (hb : b * img.blockSize < ino.size) :
    b / blocksPerChunk ino < (ino.size - 1) / 2 ^ img.chunkBits ino + 1 := by
  have hpow : 2 ^ img.chunkBits ino = img.blockSize * blocksPerChunk ino := Nat.pow_add _ _ _
  rw [hpow, ← Nat.div_div_eq_div_mul]
  refine Nat.lt_succ_of_le (Nat.div_le_div_right ?_)
  exact (Nat.le_div_iff_mul_le img.blockSize_pos).2 (by omega)

end Image

/-! ## The devices of the destination -/

namespace Writer

variable {w : Writer} {p : Path} {cs cs' : List Chunk}

end Writer

namespace Image

variable {img : Image} {ino : Inode} {data : Bytes} {cs : List Chunk}

end Image

end Erofs
