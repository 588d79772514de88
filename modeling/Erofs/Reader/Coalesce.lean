import Erofs.Reader.Ranges

/-!
# The data ranges of a chunk-based file

`buildChunkDataRanges` merges the chunks of a file in place: a hole into the hole before it, a chunk
into the range it follows on the same device.  The list it returns is the coarsest one that still
places every chunk where the readers do.

The main result is `buildChunkDataRanges_coalesces`.
-/

namespace Erofs

open GoPath LittleEndian Oracle

namespace Image

variable {img : Image} {ino : Inode} {rs : List DataRange} {es : List (Option ChunkEntry)}
  {upto dev : ℕ} {off n m : Int}

/-! ## What the list should be -/

variable (img) in
/-- The place of byte `j` of a chunk, by the chunk's entry in the map. -/
def entryPlace (e : Option ChunkEntry) (j : ℕ) : Except GoError Place :=
  match e with
  | none => .ok .hole
  | some c => do
    let addr ← img.chunkAddr c.block
    let (dev, off) ← img.locate c.device addr
    return .data dev (off + j)

variable (img) in
/-- The chunk that byte `pos` is in puts it at `p`. -/
def ChunkPuts (ino : Inode) (es : List (Option ChunkEntry)) (pos : ℕ) (p : Place) : Prop :=
  ∃ e, es[pos / 2 ^ img.chunkBits ino]? = some e ∧
    img.entryPlace e (pos % 2 ^ img.chunkBits ino) = .ok p

/-- Neighbours that do not merge: not two holes, and not two extents of one device end to end. -/
structure Apart (a b : DataRange) : Prop where
  holes : ¬ (a.offset = holeOffset ∧ b.offset = holeOffset)
  extents : a.offset ≠ holeOffset → b.offset ≠ holeOffset → a.device = b.device →
    a.offset + a.size ≠ b.offset

variable (img) in
/-- A range lies within the bound of its device. -/
def Bounded (r : DataRange) : Prop :=
  r.offset ≠ holeOffset → img.boundOnDevice r.device r.offset r.size = .ok ()

variable (img) in
/-- The ranges are the coalescing of the chunks of a file, whose entries are `es`. -/
structure Coalesces (ino : Inode) (es : List (Option ChunkEntry)) (rs : List DataRange) :
    Prop where
  positive : ∀ r ∈ rs, 0 < r.size
  total : totalSize rs = ino.size
  places : ∀ pos < ino.size, ∃ p, rangePlace rs pos = some p ∧ img.ChunkPuts ino es pos p
  apart : rs.IsChain Apart
  bounded : ∀ r ∈ rs, img.Bounded r

/-! ## One chunk -/

theorem checkImageRange_append (h₁ : img.checkImageRange off n = .ok ())
    (h₂ : img.checkImageRange (off + n) m = .ok ()) :
    img.checkImageRange off (n + m) = .ok () := by
  unfold checkImageRange at *
  split_ifs at h₁ h₂ with h₃ h₄ h₅ h₆
  rw [if_neg (by omega), if_neg (by omega)]

/-- The bound of a range and of the range after it bound both together. -/
theorem boundOnDevice_append (h₁ : img.boundOnDevice dev off n = .ok ())
    (h₂ : img.boundOnDevice dev (off + n) m = .ok ()) :
    img.boundOnDevice dev off (n + m) = .ok () := by
  unfold boundOnDevice at *
  by_cases hdev : dev = 0
  · rw [if_pos hdev] at *
    exact checkImageRange_append h₁ h₂
  · rw [if_neg hdev] at *
    cases hd : img.devices[dev - 1]? with
    | none =>
      rw [hd] at h₁
      cases h₁
    | some d =>
      rw [hd] at h₁ h₂
      dsimp only at *
      split_ifs at h₁ h₂ with h₃ h₄ h₅ h₆ h₇ h₈ h₉
      · rw [if_neg (by omega), if_pos h₄, if_neg (by omega)]
      · rw [if_neg (by omega), if_neg h₄, if_neg (by omega)]

/-- The ranges so far, as the loop holds them: the last one first. -/
structure Coalescing (img : Image) (ino : Inode) (es : List (Option ChunkEntry))
    (rs : List DataRange) (upto : ℕ) : Prop where
  covers : Covers (img.ChunkPuts ino es) rs.reverse upto
  positive : ∀ r ∈ rs, 0 < r.size
  apart : rs.IsChain (Function.swap Apart)
  bounded : ∀ r ∈ rs, img.Bounded r

theorem Coalescing.coalesces (h : Coalescing img ino es rs ino.size) :
    img.Coalesces ino es rs.reverse where
  positive r hr := h.positive r (List.mem_reverse.1 hr)
  total := h.covers.total
  places := h.covers.places
  apart := List.isChain_reverse.2 h.apart
  bounded r hr := h.bounded r (List.mem_reverse.1 hr)

theorem coalescing_nil : Coalescing img ino es [] 0 := ⟨covers_nil, by simp, .nil, by simp⟩

/-- One more range, apart from the last one. -/
theorem Coalescing.cons {r : DataRange} {upto' : ℕ} (h : Coalescing img ino es rs upto)
    (hcov : Covers (img.ChunkPuts ino es) (r :: rs).reverse upto') (hpos : 0 < r.size)
    (hapart : ∀ x ∈ rs.head?, Apart x r) (hb : img.Bounded r) :
    Coalescing img ino es (r :: rs) upto' where
  covers := hcov
  positive := List.forall_mem_cons.2 ⟨hpos, h.positive⟩
  apart := List.isChain_cons.2 ⟨hapart, h.apart⟩
  bounded := List.forall_mem_cons.2 ⟨hb, h.bounded⟩

/-- The last range made longer; it stays apart from the one before it. -/
theorem Coalescing.lengthen {r : DataRange} {size : Int} {upto' : ℕ}
    (h : Coalescing img ino es (r :: rs) upto)
    (hcov : Covers (img.ChunkPuts ino es) ({ r with size } :: rs).reverse upto') (hpos : 0 < size)
    (hb : img.Bounded { r with size }) : Coalescing img ino es ({ r with size } :: rs) upto' where
  covers := hcov
  positive := List.forall_mem_cons.2 ⟨hpos, (List.forall_mem_cons.1 h.positive).2⟩
  apart := by
    obtain ⟨hr, hrs⟩ := List.isChain_cons.1 h.apart
    exact List.isChain_cons.2 ⟨fun x hx => ⟨(hr x hx).holes, (hr x hx).extents⟩, hrs⟩
  bounded := List.forall_mem_cons.2 ⟨hb, (List.forall_mem_cons.1 h.bounded).2⟩

/-- `k` more bytes of hole. -/
theorem Coalescing.pushHole {k : ℕ} (h : Coalescing img ino es rs upto) (hk : 0 < k)
    (hc : ∀ j < k, img.ChunkPuts ino es (upto + j) .hole) :
    Coalescing img ino es (pushHole k rs) (upto + k) := by
  have hcov := h.covers.pushHole hc
  have hk' : (0 : Int) < k := by omega
  cases rs with
  | nil => exact h.cons hcov hk' (by simp) fun hne => absurd rfl hne
  | cons r rs =>
    have hr := h.positive r List.mem_cons_self
    rw [Image.pushHole] at hcov ⊢
    split_ifs at hcov ⊢ with hole
    · exact h.lengthen hcov (by omega) fun hne => absurd hole hne
    · refine h.cons hcov hk' ?_ fun hne => absurd rfl hne
      rintro x ⟨⟩
      exact ⟨fun hh => hole hh.1, fun _ hne => absurd rfl hne⟩

/-- `k` more bytes at `off` of device `dev`. -/
theorem Coalescing.pushData {k : ℕ} (h : Coalescing img ino es rs upto) (hk : 0 < k)
    (hoff : off ≠ holeOffset) (hbound : img.boundOnDevice dev off k = .ok ())
    (hc : ∀ j < k, img.ChunkPuts ino es (upto + j) (.data dev (off + j))) :
    Coalescing img ino es (pushData dev off k rs) (upto + k) := by
  have hcov := h.covers.pushData hoff hc
  have hk' : (0 : Int) < k := by omega
  cases rs with
  | nil => exact h.cons hcov hk' (by simp) fun _ => hbound
  | cons r rs =>
    have hr := h.positive r List.mem_cons_self
    rw [Image.pushData] at hcov ⊢
    split_ifs at hcov ⊢ with hadj
    · obtain ⟨hdata, rfl, rfl⟩ := hadj
      refine h.lengthen hcov (by omega) fun _ => ?_
      exact boundOnDevice_append (h.bounded r List.mem_cons_self hdata) hbound
    · refine h.cons hcov hk' ?_ fun _ => hbound
      rintro x ⟨⟩
      exact ⟨fun hh => hoff hh.2, fun hne _ hdev hend => hadj ⟨hne, hdev, hend⟩⟩

/-! ## The loop -/

/-- Byte `j` of chunk `i` is where the chunk's entry puts it. -/
theorem chunkPuts_of {i j : ℕ} {e : Option ChunkEntry} {p : Place} (he : es[i]? = some e)
    (hj : j < 2 ^ img.chunkBits ino) (hp : img.entryPlace e j = .ok p) :
    img.ChunkPuts ino es (i * 2 ^ img.chunkBits ino + j) p := by
  have hdiv : (i * 2 ^ img.chunkBits ino + j) / 2 ^ img.chunkBits ino = i := by
    rw [Nat.mul_comm, Nat.mul_add_div (Nat.two_pow_pos _), Nat.div_eq_of_lt hj, Nat.add_zero]
  have hmod : (i * 2 ^ img.chunkBits ino + j) % 2 ^ img.chunkBits ino = j := by
    rw [Nat.mul_comm, Nat.mul_add_mod, Nat.mod_eq_of_lt hj]
  exact ⟨e, by rw [hdiv, he], by rw [hmod, hp]⟩

/-- A placed chunk has its offset on the device, which no hole has. -/
theorem boundOnDevice_nonneg (h : img.boundOnDevice dev off n = .ok ()) : 0 ≤ off := by
  unfold boundOnDevice at h
  by_cases hdev : dev = 0
  · rw [if_pos hdev] at h
    exact (checkImageRange_ok h).1
  · rw [if_neg hdev] at h
    cases hd : img.devices[dev - 1]? with
    | none =>
      rw [hd] at h
      cases h
    | some d =>
      rw [hd] at h
      dsimp only at h
      split_ifs at h <;> omega

/-- One chunk. -/
theorem Coalescing.pushChunk {nid i size : ℕ} {e : Option ChunkEntry} {out : List DataRange}
    (h : Coalescing img ino es rs (i * 2 ^ img.chunkBits ino)) (he : es[i]? = some e)
    (hpos : 0 < size) (hsize : size ≤ 2 ^ img.chunkBits ino)
    (hpush : img.pushChunk nid size e rs = .ok out) :
    Coalescing img ino es out (i * 2 ^ img.chunkBits ino + size) := by
  cases e with
  | none =>
    cases hpush
    exact h.pushHole hpos fun j hj => chunkPuts_of he (by omega) rfl
  | some c =>
    unfold Image.pushChunk at hpush
    obtain ⟨addr, haddr, hpush⟩ := except_bind_ok hpush
    obtain ⟨⟨dev, off⟩, hloc, hpush⟩ := except_bind_ok hpush
    obtain ⟨u, hbound, hpush⟩ := except_bind_ok hpush
    cases hpush
    have hbound : img.boundOnDevice dev off size = .ok () := mapError_ok hbound
    have hnn := boundOnDevice_nonneg hbound
    refine h.pushData hpos (by unfold holeOffset; omega) hbound fun j hj => ?_
    refine chunkPuts_of he (by omega) ?_
    simp [entryPlace, haddr, hloc, bind, Except.bind, pure, Except.pure]

/-- The chunks from the `i`-th on: all have the chunk size, but for the last, which ends with the
file. -/
theorem Coalescing.chunkRanges {i : ℕ} {rest : List (Option ChunkEntry)} {out : List DataRange}
    (hsize : 0 < ino.size) (hcount : i + rest.length = img.chunkCount ino)
    (hrest : ∀ j e, rest[j]? = some e → es[i + j]? = some e)
    (h : Coalescing img ino es rs (if rest = [] then ino.size else i * 2 ^ img.chunkBits ino))
    (hloop : img.chunkRanges ino i rest rs = .ok out) : img.Coalesces ino es out := by
  induction rest generalizing i rs with
  | nil =>
    cases hloop
    exact h.coalesces
  | cons e rest ih =>
    have hlast := Nat.div_add_mod' (ino.size - 1) (2 ^ img.chunkBits ino)
    have hmod := Nat.mod_lt (ino.size - 1) (Nat.two_pow_pos (img.chunkBits ino))
    obtain ⟨rs', hpush, hloop⟩ := except_bind_ok hloop
    rw [if_neg (by simp)] at h
    have hcn : i + rest.length = (ino.size - 1) / 2 ^ img.chunkBits ino := by
      rw [chunkCount, if_neg hsize.ne', List.length_cons] at hcount
      omega
    have hhere := hrest 0 e rfl
    refine ih (by rw [List.length_cons] at hcount; omega) (fun j x hx => ?_) ?_ hloop
    · have := hrest (j + 1) x hx
      rwa [show i + (j + 1) = i + 1 + j by omega] at this
    · by_cases hend : rest = []
      · rw [hend, List.length_nil, Nat.add_zero] at hcn
        rw [if_pos hend, ← Nat.cast_sub (by rw [hcn]; omega)] at hpush
        rw [← hcn] at hlast
        have hnext := h.pushChunk hhere (by omega) (by omega) hpush
        rw [Nat.add_sub_cancel' (by omega)] at hnext
        rwa [if_pos hend]
      · rw [if_neg hend] at hpush
        rw [if_neg hend, Nat.add_mul, Nat.one_mul]
        exact h.pushChunk hhere (Nat.two_pow_pos _) le_rfl hpush

variable (img) in
/-- The entries of the chunk map that `buildChunkDataRanges` reads. -/
def mapEntries (ino : Inode) (o : Req → Answer) : List (Option ChunkEntry) :=
  let needed := img.chunkCount ino * chunkUnit ino
  img.chunkEntries ino (img.chunkCount ino)
    (buffer needed ((readerAt 0 (img.chunkMapStart ino) needed).run o).data)

/-- **`DataRange` is the coalescing of the chunks.**  The ranges are positive and sum to the size of
the file, put every byte where its chunk is placed, leave no two neighbours to merge, and lie within
the bounds of their devices. -/
theorem buildChunkDataRanges_coalesces {o : Req → Answer}
    (h : (img.buildChunkDataRanges ino).run o = .ok rs) :
    img.Coalesces ino (img.mapEntries ino o) rs := by
  unfold buildChunkDataRanges at h
  dsimp only at h
  split_ifs at h with h48 hfits
  · cases h
  · cases h
  rw [Prog.run_bind, Prog.run_done] at h
  cases herr : ((readerAt 0 (img.chunkMapStart ino) (img.chunkCount ino * chunkUnit ino)).run
      o).err with
  | some e =>
    rw [herr] at h
    cases h
  | none =>
    rw [herr] at h
    by_cases hsize : ino.size = 0
    · -- an empty file has no chunks
      have hnone : img.chunkCount ino = 0 := by rw [chunkCount, if_pos hsize]
      rw [hnone] at h
      cases h
      have hnil := @coalescing_nil img ino (img.mapEntries ino o)
      rw [← hsize] at hnil
      exact hnil.coalesces
    · refine Coalescing.chunkRanges (Nat.pos_of_ne_zero hsize) (by simp [chunkEntries])
        (fun j e he => by rwa [Nat.zero_add]) ?_ h
      rw [if_neg, Nat.zero_mul]
      · exact coalescing_nil
      · simp [chunkEntries, chunkCount, hsize]

/-- A file of three chunks of a block each. -/
def mapFile : Inode where
  nid := 0
  icsize := 32
  inodeLayout := .chunkBased
  inodeData := 0
  size := 1500
  mode := 0
  rawMode := 0

/-- An image of 512 byte blocks and of unknown length. -/
def mapImage : Image where
  sb := { blkSizeBits := 9, rootNid := 0, blocks := 0, metaBlkAddr := 0 }
  size := 0

/-- Its block map: blocks 2 and 3, and a hole. -/
def mapReader : Req → Answer := fun _ => ⟨[2, 0, 0, 0, 3, 0, 0, 0, 255, 255, 255, 255], none⟩

/-- The two blocks merge, the hole stays. -/
theorem mapFile_coalesces :
    mapImage.Coalesces mapFile (mapImage.mapEntries mapFile mapReader)
      [⟨0, 1024, 1024⟩, { offset := holeOffset, size := 476 }] :=
  buildChunkDataRanges_coalesces (by decide)

end Image

end Erofs
