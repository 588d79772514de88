import Erofs.Pieces
import Erofs.Reader.Ranges

/-!
# Reads and how they are split

`loadBlock` is called at the position a file has come to, which may be inside a block: the window,
its place and its bounds are computed anew from there.  They come to the rest of the window of the
whole block: a block has one place, whose end is what the bounds are about, and a position further
on is as far further on there.

The main results:

* `blockPlace_start` — the place at a position is the block's, as far on as the position is;
* `loadBlock_suffix` — a load inside a block gives the rest of the block, and is refused just when
  the block is;
* `split_free` — `Read` with buffers of any lengths and `WriteTo` deliver the same bytes.
-/

namespace Erofs

open GoPath LittleEndian Oracle

/-- `Read` calls with buffers of the given lengths up to the first that fails: the bytes of all of
them and its error. -/
def OpenFile.readUntil (img : Image) : OpenFile → Bytes → List ℕ → ReadProg ReadResult
  | f, acc, [] => .done ⟨f, acc, none⟩
  | f, acc, n :: ns => (f.read img n).bind fun r => match r.err with
    | some e => .done ⟨r.file, acc ++ r.data, some e⟩
    | none => readUntil img r.file (acc ++ r.data) ns

namespace Image

variable {img : Image} {c : ℕ → Bytes} {o : Req → Answer} {ino : Inode}
  {dev n k pos nid : ℕ} {off pa : Int} {buf : Bytes}

/-! ## The bytes at a position -/

theorem held_drop (b : Bytes) (off n k : ℕ) : (held b off n).drop k = held b (off + k) (n - k) := by
  unfold held
  rw [List.drop_take, List.drop_drop]

theorem room_shift (hk : k ≤ n) : img.Room dev (off + k) (n - k) ↔ img.Room dev off n := by
  have hend : off + k + (n - k : ℕ) = off + n := by omega
  unfold Room
  split
  · rw [hend]
  · rfl

/-- What a read of a device gives further on is the rest of what it gives, and it gives all it is
asked for there just when it does here. -/
theorem gives_shift (hw : img.WindowsNat) (hoff : 0 ≤ off) (hk : k < n) :
    img.Gives c dev (off + k) (n - k) buf ↔
      ∃ whole, img.Gives c dev off n whole ∧ buf = whole.drop k := by
  have hnn : 0 ≤ (img.home dev off).2 := home_nonneg hw hoff
  have hhome : (img.home dev (off + k)).2.toNat = (img.home dev off).2.toNat + k := by
    rw [home_add]
    dsimp only
    omega
  rw [gives_iff hw (by omega) (by omega), room_shift hk.le, hhome, home_add]
  dsimp only
  constructor
  · rintro ⟨hroom, hlen, rfl⟩
    exact ⟨_, (gives_iff hw (by omega) hoff).2 ⟨hroom, by omega, rfl⟩, (held_drop _ _ _ _).symm⟩
  · rintro ⟨whole, hg, rfl⟩
    obtain ⟨hroom, hlen, rfl⟩ := (gives_iff hw (by omega) hoff).1 hg
    exact ⟨hroom, by omega, held_drop _ _ _ _⟩

theorem Place.gives_shift (hw : img.WindowsNat) {p : Place} (hs : p.Sound img n) (hk : k < n) :
    (p.add k).Gives img c (n - k) buf ↔ ∃ whole, p.Gives img c n whole ∧ buf = whole.drop k := by
  cases p with
  | hole => simp [Place.add, Place.Gives, List.drop_replicate]
  | data dev off => exact Image.gives_shift hw hs.nonneg hk

theorem held_suffix (hw : img.WindowsNat) (hpos : pos < ino.size) :
    (img.loadBlock ino pos).run (holding c) = .ok buf ↔
      ∃ whole, (img.loadBlock ino (img.blockStart pos)).run (holding c) = .ok whole ∧
        buf = whole.drop (pos % img.blockSize) := by
  have hlt : pos % img.blockSize < img.blockLen ino.size (img.blockStart pos) :=
    img.blockLen_start hpos
  have hstart : img.blockStart pos < ino.size := lt_of_le_of_lt (img.blockStart_le pos) hpos
  rw [loadBlock_iff hpos, blockLen_rest]
  constructor
  · rintro ⟨p, hp, hg⟩
    obtain ⟨q, hq, rfl⟩ := (blockPlace_start hpos).1 hp
    obtain ⟨whole, hwhole, rfl⟩ := (Place.gives_shift hw (blockPlace_sits hq).2 hlt).1 hg
    exact ⟨whole, (loadBlock_iff hstart).2 ⟨q, hq, hwhole⟩, rfl⟩
  · rintro ⟨whole, hload, rfl⟩
    obtain ⟨q, hq, hg⟩ := (loadBlock_iff hstart).1 hload
    exact ⟨_, (blockPlace_start hpos).2 ⟨q, hq, rfl⟩,
      (Place.gives_shift hw (blockPlace_sits hq).2 hlt).2 ⟨whole, hg, rfl⟩⟩

/-! ## Readers that deliver what they hold -/

/-- The readers deliver every byte up to their length; what error comes with it is left open. -/
def Delivers (o : Req → Answer) (c : ℕ → Bytes) : Prop := ∀ q, (o q).data = (holding c q).data

theorem holding_delivers (c : ℕ → Bytes) : Delivers (holding c) c := fun _ => rfl

section Delivers

variable (ho : Delivers o c)

include ho

theorem readerAt_delivers (r : ℕ) (off : Int) (n : ℕ) :
    ((readerAt r off n).run o).data = ((readerAt r off n).run (holding c)).data :=
  congrArg (List.take n) (ho ⟨r, off, n⟩)

theorem deviceReader_delivers (dev : ℕ) (off : Int) (n : ℕ) :
    ((img.deviceReader dev off n).run o).data =
      ((img.deviceReader dev off n).run (holding c)).data := by
  unfold deviceReader
  split_ifs
  · exact readerAt_delivers ho _ _ _
  · split
    · unfold sectionReadAt
      dsimp only
      split_ifs
      · rfl
      · rw [Prog.run_bind, Prog.run_bind]
        exact readerAt_delivers ho _ _ _
      · exact readerAt_delivers ho _ _ _
    · exact readerAt_delivers ho _ _ _

theorem readWindow_delivers (nid dev : ℕ) (off : Int) (n : ℕ) (short : ℕ → GoError) :
    (img.readWindow nid dev off n short).run o = .ok buf ↔
      (img.readWindow nid dev off n short).run (holding c) = .ok buf := by
  have hok : ∀ o', (img.readWindow nid dev off n short).run o' = .ok buf ↔
      ((img.deviceReader dev off n).run o').data = buf ∧ buf.length = n := by
    refine fun o' => ⟨readWindow_ok, ?_⟩
    rintro ⟨hdata, hlen⟩
    rw [readWindow, Prog.run_bind, Prog.run_done, windowOf, hdata, if_pos hlen]
  rw [hok, hok, deviceReader_delivers ho]

theorem loadPlaced_delivers (nid : ℕ) (addr blockOffset blockEnd : Int) (dataBlock : Bool) :
    (img.loadPlaced nid addr blockOffset blockEnd dataBlock).run o = .ok buf ↔
      (img.loadPlaced nid addr blockOffset blockEnd dataBlock).run (holding c) = .ok buf := by
  unfold loadPlaced
  split_ifs
  · rfl
  dsimp only
  cases img.placeBlock dataBlock (addr + blockOffset) (blockEnd - blockOffset).toNat with
  | error e => rfl
  | ok p => exact readWindow_delivers ho _ _ _ _ _

theorem loadFlat_delivers (bn : ℕ) (blockOffset blockEnd : Int) :
    (img.loadFlat ino bn blockOffset blockEnd).run o = .ok buf ↔
      (img.loadFlat ino bn blockOffset blockEnd).run (holding c) = .ok buf := by
  unfold loadFlat
  cases img.blockAddr ino.nid (ino.startBlock + bn) with
  | error e => rfl
  | ok pa => exact loadPlaced_delivers ho _ _ _ _ _

theorem loadEntryBlock_delivers (entry : Bytes) (blockOffset blockEnd shift : Int) :
    (img.loadEntryBlock ino entry blockOffset blockEnd shift).run o = .ok buf ↔
      (img.loadEntryBlock ino entry blockOffset blockEnd shift).run (holding c) = .ok buf := by
  unfold loadEntryBlock
  cases img.entryAddr ino entry with
  | error e => rfl
  | ok place =>
    dsimp only
    split_ifs
    · rfl
    obtain _ | ⟨deviceID, addr⟩ := place
    · rfl
    dsimp only
    unfold loadChunkData
    cases img.locate deviceID _ with
    | error e => rfl
    | ok p =>
      obtain ⟨dev, addr'⟩ := p
      dsimp only
      cases img.boundOnDevice dev (addr' + _) _ with
      | error e => rfl
      | ok u => exact readWindow_delivers ho _ _ _ _ _

omit ho in
theorem entryOf_ok_iff {unit : ℕ} {entryPos : Int} {a : Answer} {entry : Bytes} :
    entryOf unit entryPos a = .ok entry ↔ a.err = none ∧ a.data.length = unit ∧ a.data = entry := by
  unfold entryOf
  cases a.err with
  | some e => simp
  | none =>
    dsimp only
    split_ifs with hlen
    · simp [hlen]
    · simp [not_not.1 hlen]

omit ho in
/-- Readers that hold bytes report no error with a full read. -/
theorem holding_err_none {r : ℕ} (hn : 0 < n)
    (h : ((readerAt r off n).run (holding c)).data.length = n) :
    ((readerAt r off n).run (holding c)).err = none := by
  by_cases hneg : off < 0
  · simp [readerAt, holding, hneg] at h
    omega
  · obtain ⟨k, rfl⟩ := Int.eq_ofNat_of_zero_le (not_lt.1 hneg)
    rw [holding_held] at h ⊢
    exact if_neg (by rw [h]; exact lt_irrefl n)

theorem entryOf_delivers {unit : ℕ} (hunit : 0 < unit) (entryPos : Int) (entry : Bytes) :
    entryOf unit entryPos ((readerAt 0 entryPos unit).run o) = .ok entry ↔
      (o ⟨0, entryPos, unit⟩).err = none ∧
        entryOf unit entryPos ((readerAt 0 entryPos unit).run (holding c)) = .ok entry := by
  rw [entryOf_ok_iff, entryOf_ok_iff, readerAt_delivers ho]
  constructor
  · rintro ⟨herr, hlen, hdata⟩
    exact ⟨herr, holding_err_none hunit hlen, hlen, hdata⟩
  · rintro ⟨herr, -, hlen, hdata⟩
    exact ⟨herr, hlen, hdata⟩

/-- Of the readers' errors only that of the chunk entry's read matters to what is loaded. -/
theorem loadBlock_delivers (hpos : pos < ino.size) :
    (img.loadBlock ino pos).run o = .ok buf ↔
      (ino.inodeLayout = .chunkBased →
        (o ⟨0, img.entryPos ino (pos / 2 ^ img.chunkBits ino), chunkUnit ino⟩).err = none) ∧
        (img.loadBlock ino pos).run (holding c) = .ok buf := by
  have hbn : pos / img.blockSize < calculateBlocks img.sb.blkSizeBits ino.size :=
    lt_calculateBlocks_iff.2 (lt_of_le_of_lt (Nat.div_mul_le_self _ _) hpos)
  unfold loadBlock
  dsimp only
  rw [if_neg (not_le.2 hbn)]
  cases ino.inodeLayout with
  | flatPlain =>
    simp only [reduceCtorEq, false_imp_iff, true_and]
    unfold loadFlatPlain
    dsimp only
    split_ifs
    · rfl
    · rfl
    · exact loadFlat_delivers ho _ _ _
  | flatInline =>
    simp only [reduceCtorEq, false_imp_iff, true_and]
    unfold loadFlatInline
    dsimp only
    split_ifs
    · rfl
    · exact loadPlaced_delivers ho _ _ _ _ _
    · exact loadFlat_delivers ho _ _ _
  | chunkBased =>
    simp only [forall_const]
    unfold loadChunk
    dsimp only
    split_ifs
    · simp
    · simp
    · simp
    constructor
    · intro h
      obtain ⟨entry, hentry, hload⟩ := Prog.exec_bind_ok h
      rw [Prog.run_bind, Prog.run_done, entryOf_delivers ho chunkUnit_pos] at hentry
      refine ⟨hentry.1, ?_⟩
      rw [Prog.exec_bind, Prog.run_bind, Prog.run_done, hentry.2]
      exact (loadEntryBlock_delivers ho _ _ _ _).1 hload
    · rintro ⟨herr, h⟩
      obtain ⟨entry, hentry, hload⟩ := Prog.exec_bind_ok h
      rw [Prog.run_bind, Prog.run_done] at hentry
      rw [Prog.exec_bind, Prog.run_bind, Prog.run_done,
        (entryOf_delivers ho chunkUnit_pos _ _).2 ⟨herr, hentry⟩]
      exact (loadEntryBlock_delivers ho _ _ _ _).2 hload
  | compressedFull => simp
  | compressedCompact => simp
  | unknown n => simp

/-- A load inside a block gives the rest of the block, and is refused just when the block is. -/
theorem loadBlock_suffix (hw : img.WindowsNat) (hpos : pos < ino.size) :
    (img.loadBlock ino pos).run o = .ok buf ↔
      ∃ whole, (img.loadBlock ino (img.blockStart pos)).run o = .ok whole ∧
        buf = whole.drop (pos % img.blockSize) := by
  have hstart : img.blockStart pos < ino.size := lt_of_le_of_lt (img.blockStart_le pos) hpos
  rw [loadBlock_delivers ho hpos, held_suffix hw hpos]
  constructor
  · rintro ⟨hclean, whole, hload, rfl⟩
    refine ⟨whole, (loadBlock_delivers ho hstart).2 ⟨?_, hload⟩, rfl⟩
    rwa [blockStart_chunk]
  · rintro ⟨whole, hload, rfl⟩
    obtain ⟨hclean, hload⟩ := (loadBlock_delivers ho hstart).1 hload
    rw [blockStart_chunk] at hclean
    exact ⟨hclean, whole, hload, rfl⟩

end Delivers

/-! ## Progress -/

section Progress

variable {bn nblocks : ℕ} {blockOffset blockEnd : Int}

theorem boundsOk_pos (h : img.boundsOk blockOffset blockEnd = true) :
    0 < (blockEnd - blockOffset).toNat := by
  simp only [boundsOk, Bool.and_eq_true, decide_eq_true_eq] at h
  omega

theorem loadPlaced_pos {addr : Int} {dataBlock : Bool}
    (h : (img.loadPlaced nid addr blockOffset blockEnd dataBlock).run o = .ok buf) :
    0 < buf.length := by
  rw [loadPlaced_length h]
  unfold loadPlaced at h
  by_cases hb : img.boundsOk blockOffset blockEnd = true
  · exact boundsOk_pos hb
  · rw [if_pos (by simpa using hb)] at h
    cases h

theorem loadFlat_pos (h : (img.loadFlat ino bn blockOffset blockEnd).run o = .ok buf) :
    0 < buf.length := by
  unfold loadFlat at h
  cases hb : img.blockAddr ino.nid (ino.startBlock + bn) with
  | error e =>
    rw [hb] at h
    cases h
  | ok pa =>
    rw [hb] at h
    exact loadPlaced_pos h

theorem loadFlatPlain_pos (h : (img.loadFlatPlain ino pos bn nblocks).run o = .ok buf) :
    0 < buf.length := by
  unfold loadFlatPlain at h
  dsimp only at h
  split_ifs at h with hnull hb
  · cases h
  · cases h
    rw [length_holeBlock]
    exact boundsOk_pos (by simpa using hb)
  · exact loadFlat_pos h

theorem loadFlatInline_pos (h : (img.loadFlatInline ino pos bn nblocks).run o = .ok buf) :
    0 < buf.length := by
  unfold loadFlatInline at h
  dsimp only at h
  split_ifs at h
  · cases h
  · exact loadPlaced_pos h
  · exact loadFlat_pos h

theorem loadChunk_pos (h : (img.loadChunk ino pos bn nblocks).run o = .ok buf) :
    0 < buf.length := by
  rw [loadChunk_length h]
  unfold loadChunk at h
  dsimp only at h
  split_ifs at h
  · cases h
  · cases h
  · cases h
  obtain ⟨entry, -, h⟩ := Prog.exec_bind_ok h
  unfold loadFromEntry loadEntryBlock at h
  split at h
  · cases h
  · split_ifs at h with hb
    · cases h
    · exact boundsOk_pos (by simpa using hb)

/-- A load that succeeds is inside the file, has at least one byte and stays inside its block. -/
theorem loadBlock_progress (h : (img.loadBlock ino pos).run o = .ok buf) :
    pos < ino.size ∧ 0 < buf.length ∧ pos % img.blockSize + buf.length ≤ img.blockSize := by
  have hlen := loadBlock_length h
  have hmod := Nat.mod_lt pos img.blockSize_pos
  have hpos : 0 < buf.length := by
    unfold loadBlock at h
    dsimp only at h
    split_ifs at h
    · cases h
    cases hl : ino.inodeLayout with
    | flatPlain => rw [hl] at h; exact loadFlatPlain_pos h
    | flatInline => rw [hl] at h; exact loadFlatInline_pos h
    | chunkBased => rw [hl] at h; exact loadChunk_pos h
    | compressedFull => rw [hl] at h; cases h
    | compressedCompact => rw [hl] at h; cases h
    | unknown n => rw [hl] at h; cases h
  unfold blockLen at hlen
  omega

end Progress

/-! ## The content of a file -/

theorem blockStart_inside (h : pos % img.blockSize + k < img.blockSize) :
    img.blockStart (pos + k) = img.blockStart pos ∧
      (pos + k) % img.blockSize = pos % img.blockSize + k := by
  have hadd := Nat.div_add_mod' pos img.blockSize
  have hadd' := Nat.div_add_mod' (pos + k) img.blockSize
  have hdiv : (pos + k) / img.blockSize = pos / img.blockSize := by
    apply Nat.div_eq_of_lt_le
    · omega
    · rw [Nat.succ_mul]
      omega
  unfold blockStart
  rw [hdiv] at hadd' ⊢
  exact ⟨rfl, by omega⟩

/-- A load from inside what was loaded gives the rest of it. -/
theorem loadBlock_rest (hw : img.WindowsNat) (ho : Delivers o c)
    (h : (img.loadBlock ino pos).run o = .ok buf) (hk : k < buf.length) :
    (img.loadBlock ino (pos + k)).run o = .ok (buf.drop k) := by
  obtain ⟨hpos, -, hin⟩ := loadBlock_progress h
  have hle := img.blockLen_le hpos
  rw [← loadBlock_length h] at hle
  obtain ⟨hstart, hmod⟩ := img.blockStart_inside (by omega : pos % img.blockSize + k < _)
  obtain ⟨whole, hwhole, rfl⟩ := (loadBlock_suffix ho hw hpos).1 h
  refine (loadBlock_suffix ho hw (by omega)).2 ⟨whole, by rwa [hstart], ?_⟩
  rw [hmod, List.drop_drop]

theorem toOption_eq_some {ε α : Type} {x : Except ε α} {a : α} :
    x.toOption = some a ↔ x = .ok a := by
  cases x <;> simp [Except.toOption]

/-- A file that is read block by block, as a source of bytes. -/
def blockSource (ino : Inode) (hw : img.WindowsNat) (ho : Delivers o c) : Pieces Byte where
  load p := ((img.loadBlock ino p).run o).toOption
  size := ino.size
  ne_nil h := List.length_pos_iff.1 (loadBlock_progress (toOption_eq_some.1 h)).2.1
  le h := by
    have hload := toOption_eq_some.1 h
    have hle := img.blockLen_le (loadBlock_progress hload).1
    rwa [← loadBlock_length hload] at hle
  rest h hk := toOption_eq_some.2
    (loadBlock_rest hw ho (toOption_eq_some.1 h) hk)

theorem content_eq_nil {p : ℕ} (hw : img.WindowsNat) (ho : Delivers o c)
    (h : ∀ {buf}, (img.loadBlock ino p).run o ≠ .ok buf) :
    (blockSource ino hw ho).content p = [] := by
  refine Pieces.content_none ?_
  rw [Option.eq_none_iff_forall_ne_some]
  exact fun buf hbuf => h (toOption_eq_some.1 hbuf)

/-! ## `Read` -/

section Calls

variable {name : Bytes} {ftype : FileMode} {p : ℕ} {acc : Bytes} (hw : img.WindowsNat)
  (ho : Delivers o c)

/-- A `Read` at offset `p` has delivered the next `n` bytes of the content, behind `acc`, with an
error where there are not so many. -/
structure Took (name : Bytes) (nid : ℕ) (ftype : FileMode) (ino : Inode) (content acc : Bytes)
    (p n : ℕ) (r : ReadResult) : Prop where
  file : r.file = fileAt name nid ftype ino none (p + min n content.length)
  data : r.data = acc ++ content.take n
  err : r.err = none ↔ n ≤ content.length

omit hw ho in
/-- Where nothing is left a `Read` fails. -/
theorem Took.refused {content : Bytes} (hc : content = []) (hn : n ≠ 0) (e : GoError) :
    Took name nid ftype ino content acc p n ⟨fileAt name nid ftype ino none p, acc, some e⟩ := by
  subst hc
  exact ⟨by simp, by simp, by simp [hn]⟩

theorem readBlocks_took {fuel : ℕ} (hn : n ≤ fuel) :
    Took name nid ftype ino ((blockSource ino hw ho).content p) acc p n
      ((OpenFile.readBlocks img ino fuel (fileAt name nid ftype ino none p) n acc).run o) := by
  induction fuel generalizing p n acc with
  | zero =>
    obtain rfl : n = 0 := Nat.le_zero.1 hn
    exact ⟨by simp [OpenFile.readBlocks], by simp [OpenFile.readBlocks],
      by simp [OpenFile.readBlocks]⟩
  | succ fuel ih =>
    rw [OpenFile.readBlocks, fileAt_offset]
    by_cases h0 : n = 0
    · subst h0
      exact ⟨by simp, by simp, by simp⟩
    rw [if_neg h0]
    by_cases hp : ino.size ≤ p
    · rw [if_pos hp]
      exact .refused (content_eq_nil hw ho fun h => not_lt.2 hp (loadBlock_progress h).1) h0 _
    rw [if_neg hp, Prog.run_bind]
    cases hb : (img.loadBlock ino p).run o with
    | error e => exact .refused (content_eq_nil hw ho (by simp [hb])) h0 _
    | ok buf =>
      have hload : (blockSource ino hw ho).load p = some buf := toOption_eq_some.2 hb
      have hpos := (loadBlock_progress hb).2.1
      have hle := Pieces.length_le_content hload
      have hm : (buf.take n).length = min n buf.length := List.length_take
      -- at least one byte is copied, so that the fuel left is enough
      obtain ⟨hfile, hdata, herr⟩ := @ih (n - (buf.take n).length) (p + (buf.take n).length)
        (acc ++ buf.take n) (by omega)
      have hrest : ((blockSource ino hw ho).content (p + (buf.take n).length)).length =
          ((blockSource ino hw ho).content p).length - (buf.take n).length := by
        rw [Pieces.content_drop (by omega), List.length_drop]
      refine ⟨hfile.trans ?_, ?_, herr.trans ?_⟩
      · rw [hrest]
        congr 1
        omega
      · rw [Pieces.content_take hload, ← List.append_assoc]
        exact hdata
      · rw [hrest]
        omega

/-- `Read` calls deliver the content as far as their buffers go. -/
theorem readUntil_content (ns : List ℕ) :
    ((OpenFile.readUntil img (fileAt name nid ftype ino none p) acc ns).run o).data =
        acc ++ ((blockSource ino hw ho).content p).take ns.sum ∧
      (((OpenFile.readUntil img (fileAt name nid ftype ino none p) acc ns).run o).err = none ↔
        ns.sum ≤ ((blockSource ino hw ho).content p).length) := by
  induction ns generalizing p acc with
  | nil => simp [OpenFile.readUntil]
  | cons n ns ih =>
    obtain ⟨hfile, hdata, herr⟩ : Took name nid ftype ino ((blockSource ino hw ho).content p) [] p n
        (((fileAt name nid ftype ino none p).read img n).run o) := readBlocks_took hw ho le_rfl
    rw [OpenFile.readUntil, Prog.run_bind, List.sum_cons]
    rw [List.nil_append] at hdata
    cases he : (((fileAt name nid ftype ino none p).read img n).run o).err with
    | some e =>
      have hlt : ((blockSource ino hw ho).content p).length < n := by
        rw [he] at herr
        simpa using herr
      dsimp only
      rw [Prog.run_done, hdata, List.take_of_length_le hlt.le, List.take_of_length_le (by omega)]
      exact ⟨rfl, by simp; omega⟩
    | none =>
      have hle : n ≤ ((blockSource ino hw ho).content p).length := herr.1 he
      rw [min_eq_left hle] at hfile
      dsimp only
      rw [hfile, hdata]
      obtain ⟨ihdata, iherr⟩ := @ih (p + n) (acc ++ ((blockSource ino hw ho).content p).take n)
      rw [Pieces.content_drop hle] at ihdata iherr
      refine ⟨ihdata.trans ?_, iherr.trans ?_⟩
      · rw [List.append_assoc, ← List.take_add]
      · rw [List.length_drop]
        omega

omit hw ho in
/-- The first of some `Read` calls finds the inode of a file that was just opened. -/
theorem readUntil_opened (hino : (img.readInfo name nid ftype).run o = .ok ino)
    (hd : (img.openDirect ino).run o = none) (ns : List ℕ) :
    ((OpenFile.readUntil img ⟨name, nid, ftype, 0, none, none⟩ [] ns).run o).data =
        ((OpenFile.readUntil img (fileAt name nid ftype ino none 0) [] ns).run o).data ∧
      ((OpenFile.readUntil img ⟨name, nid, ftype, 0, none, none⟩ [] ns).run o).err =
        ((OpenFile.readUntil img (fileAt name nid ftype ino none 0) [] ns).run o).err := by
  cases ns with
  | nil => exact ⟨rfl, rfl⟩
  | cons n ns =>
    rw [OpenFile.readUntil, OpenFile.readUntil, Prog.run_bind, Prog.run_bind, read_opened hino hd]
    exact ⟨rfl, rfl⟩

/-! ## `WriteTo` -/

/-- `WriteTo` delivers the content to a writer that reports no error. -/
theorem writeBlocks_content {w : OpenFile.Sink} (hall : ∀ m b, (w.write m b).2 = none) {fuel : ℕ}
    (hfuel : ino.size ≤ p + fuel) :
    ((OpenFile.writeBlocks img w ino fuel (fileAt name nid ftype ino none p) acc).run o).data =
      acc ++ (blockSource ino hw ho).content p := by
  -- the writer's parts are named so that what it returns can be split
  obtain ⟨write, wle, wshort⟩ := w
  induction fuel generalizing p acc with
  | zero =>
    have hp : ino.size ≤ p := hfuel
    rw [content_eq_nil hw ho fun h => not_lt.2 hp (loadBlock_progress h).1]
    simp [OpenFile.writeBlocks]
  | succ fuel ih =>
    rw [OpenFile.writeBlocks, fileAt_offset]
    by_cases hp : ino.size ≤ p
    · rw [if_pos hp, content_eq_nil hw ho fun h => not_lt.2 hp (loadBlock_progress h).1]
      simp
    rw [if_neg hp, Prog.run_bind]
    cases hb : (img.loadBlock ino p).run o with
    | error e =>
      rw [content_eq_nil hw ho (by simp [hb])]
      simp
    | ok buf =>
      have hload : (blockSource ino hw ho).load p = some buf := toOption_eq_some.2 hb
      have hpos := (loadBlock_progress hb).2.1
      have hnone : (write acc.length buf).2 = none := hall acc.length buf
      dsimp only
      generalize hx : write acc.length buf = x at hnone
      obtain ⟨nw, ew⟩ := x
      obtain rfl : ew = none := hnone
      obtain rfl := sink_all ⟨write, wle, wshort⟩ hx
      dsimp only
      rw [fileAt_advance, List.take_length, ih (by omega), Pieces.content_some hload,
        List.append_assoc]

end Calls

/-! ## Splitting does not matter -/

/-- **Reads do not depend on how they are split.**  For every image that `Open` returns and readers
that deliver every byte they hold, and every file that is served block by block: a load inside a
block is the rest of the block's, or refused as the block is; a load that succeeds has a byte and
stays in its block; and `WriteTo`, to any writer that reports no error, and `Read` calls with
buffers of any lengths, up to the first that fails, deliver the same bytes, which calls with
nonempty buffers come to the end of. -/
theorem split_free {extra : ℕ} {sizes : ℕ → Option Int} {name : Bytes} {ftype : FileMode}
    (hopen : (openImage extra sizes).run o = .ok img) (ho : Delivers o c)
    (hino : (img.readInfo name nid ftype).run o = .ok ino)
    (hd : (img.openDirect ino).run o = none) :
    (∀ pos < ino.size, ∀ buf, (img.loadBlock ino pos).run o = .ok buf ↔
        ∃ whole, (img.loadBlock ino (img.blockStart pos)).run o = .ok whole ∧
          buf = whole.drop (pos % img.blockSize)) ∧
      (∀ pos buf, (img.loadBlock ino pos).run o = .ok buf →
        pos < ino.size ∧ 0 < buf.length ∧ pos % img.blockSize + buf.length ≤ img.blockSize) ∧
      ∃ content : Bytes,
        (∀ w : OpenFile.Sink, (∀ m b, (w.write m b).2 = none) →
          ((OpenFile.writeTo img w ⟨name, nid, ftype, 0, none, none⟩).run o).data = content) ∧
        ∀ ns, let r := (OpenFile.readUntil img ⟨name, nid, ftype, 0, none, none⟩ [] ns).run o
          (r.err = none → r.data = content.take ns.sum ∧ r.data.length = ns.sum) ∧
          (r.err ≠ none → r.data = content) ∧
          ((∀ n ∈ ns, 0 < n) → content.length < ns.length → r.err ≠ none) := by
  have hw : img.WindowsNat := (openImage_opened hopen).windowsNat
  refine ⟨fun pos hpos buf => loadBlock_suffix ho hw hpos, fun pos buf => loadBlock_progress,
    (blockSource ino hw ho).content 0, fun w hall => ?_, fun ns => ?_⟩
  · obtain hsize | hsize := Nat.eq_zero_or_pos ino.size
    · rw [writeTo_empty w hino hsize,
        content_eq_nil hw ho fun h => by have := (loadBlock_progress h).1; omega]
    · rw [writeTo_opened w hino hd hsize]
      exact writeBlocks_content hw ho hall (Nat.le_add_left _ _)
  · obtain ⟨hdata, herr⟩ :=
      @readUntil_content img c o ino nid name ftype 0 [] hw ho ns
    obtain ⟨hdata', herr'⟩ := readUntil_opened hino hd ns
    rw [← hdata', List.nil_append] at hdata
    rw [← herr'] at herr
    dsimp only
    generalize (blockSource ino hw ho).content 0 = content at *
    refine ⟨fun h => ⟨hdata, ?_⟩, fun h => ?_, fun hpos hlen h => ?_⟩
    · rw [hdata, List.length_take, min_eq_left (herr.1 h)]
    · rw [hdata]
      exact List.take_of_length_le (not_le.1 fun hle => h (herr.2 hle)).le
    · have hsum : ns.length ≤ ns.sum := by
        simpa using List.card_nsmul_le_sum ns 1 hpos
      have hle := herr.1 h
      omega

/-- The image of `oneFileImage` with a file of 700 bytes: a block of sevens, and a hole. -/
def mixedFileImage : Bytes :=
  (oneFileImage [0, 0]).take 1672 ++ [188, 2] ++ zeros 22 ++ [4, 0, 0, 0, 0xff, 0xff, 0xff, 0xff] ++
    zeros 344 ++ List.replicate 512 7

/-- The reader of the image. -/
def mixedFileReader : Req → Answer := holding fun _ => mixedFileImage

/-- The inode of the file. -/
def mixedFileInode : Inode := { oneFileChunked with size := 700 }

/-- The content of the file. -/
def mixedFileContent : Bytes := List.replicate 512 7 ++ zeros 188

/-- The file is read block by block: three `Read` calls, the second over the end of a block and the
third past the end of the file, and `WriteTo` deliver the same. -/
theorem mixedFile_split :
    (openImage 0 fun _ => some 2560).run mixedFileReader = .ok oneFileFS ∧
      (oneFileFS.readInfo oneFilePath 4 0).run mixedFileReader = .ok mixedFileInode ∧
      (oneFileFS.openDirect mixedFileInode).run mixedFileReader = none ∧
      (OpenFile.readUntil oneFileFS oneFileOpened [] [300, 300, 300]).run mixedFileReader =
        ⟨{ oneFileOpened with offset := 700, info := some mixedFileInode, direct := some none },
          mixedFileContent, some eofError⟩ ∧
      ((OpenFile.readUntil oneFileFS oneFileOpened [] [300, 300]).run mixedFileReader).data =
        mixedFileContent.take 600 ∧
      ((OpenFile.writeTo oneFileFS takesAll oneFileOpened).run mixedFileReader).data =
        mixedFileContent := by
  have hopen : (openImage 0 fun _ => some 2560).run mixedFileReader = .ok oneFileFS := by
    decide +kernel
  have hino : (oneFileFS.readInfo oneFilePath 4 0).run mixedFileReader = .ok mixedFileInode := by
    decide +kernel
  have hd : (oneFileFS.openDirect mixedFileInode).run mixedFileReader = none := by decide +kernel
  have hread : (OpenFile.readUntil oneFileFS oneFileOpened [] [300, 300, 300]).run
      mixedFileReader =
      ⟨{ oneFileOpened with offset := 700, info := some mixedFileInode, direct := some none },
        mixedFileContent, some eofError⟩ := by
    decide +kernel
  have hpart : ((OpenFile.readUntil oneFileFS oneFileOpened [] [300, 300]).run
      mixedFileReader).err = none := by
    decide +kernel
  obtain ⟨-, -, content, hwrite, hreads⟩ := split_free hopen (holding_delivers _) hino hd
  have hcontent : content = mixedFileContent := by
    refine ((hreads [300, 300, 300]).2.1 ?_).symm.trans (congrArg ReadResult.data hread)
    change ((OpenFile.readUntil oneFileFS oneFileOpened [] [300, 300, 300]).run
      mixedFileReader).err ≠ none
    rw [hread]
    simp
  subst hcontent
  exact ⟨hopen, hino, hd, hread, ((hreads [300, 300]).1 hpart).1, hwrite takesAll fun _ _ => rfl⟩

end Image

end Erofs
