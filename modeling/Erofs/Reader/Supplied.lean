import Erofs.Laid
import Erofs.Reader.Resolve
import Erofs.Reader.Split

/-!
# Files whose content is known

What a file holds, apart from how it is read: `Supplies` says that every block that is loaded is one
of the content, and so is what is read of the section that `openDirect` offers.  All ways of reading
the file then deliver the content: `Read` calls of any lengths, `readAll`, and `WriteTo`, which may
come after `Read` calls.

The main results:

* `Supplies.read` — one `Read`, at any offset;
* `Supplies.readAll` — the whole file at once;
* `Supplies.delivers` — `Read` calls, and `WriteTo` after them;
* `supplies_of_blocks` — where no device is mapped into the image, the blocks of a chunk-based file
  alone decide its content.
-/

namespace Erofs

open GoPath LittleEndian Oracle

namespace Image

/-- The file has the bytes `content`, block by block and through its section. -/
structure Supplies (img : Image) (c : ℕ → Bytes) (ino : Inode) (content : Bytes) : Prop where
  length : content.length = ino.size
  block : ∀ pos < ino.size, (img.loadBlock ino pos).run (holding c) =
    .ok ((content.drop pos).take (img.blockLen ino.size pos))
  direct : ∀ s, (img.openDirect ino).run (holding c) = some s →
    ∀ pos < ino.size, ∀ n, pos + n ≤ ino.size →
      (img.readSection s pos n).run (holding c) = ⟨(content.drop pos).take n, none⟩

/-- A handle of the file: it knows the inode, and of the section what `openDirect` says. -/
structure HandleOf (img : Image) (c : ℕ → Bytes) (ino : Inode) (f : OpenFile) : Prop where
  info : f.info = some ino
  direct : ∀ s, f.direct = some s → (img.openDirect ino).run (holding c) = s

variable {img : Image} {c : ℕ → Bytes} {ino : Inode} {content : Bytes} {f : OpenFile} {n : ℕ}

/-- A file that was just opened is a handle of its inode. -/
theorem HandleOf.opened (hinfo : f.info = some ino) (hd : f.direct = none) :
    img.HandleOf c ino f :=
  ⟨hinfo, fun s hs => absurd (hd.symm.trans hs) (Option.some_ne_none s).symm⟩

theorem HandleOf.advance (h : img.HandleOf c ino f) (k : ℕ) : img.HandleOf c ino (f.advance k) :=
  ⟨h.info, h.direct⟩

/-- What asking for the section gives a handle. -/
theorem HandleOf.directReader (h : img.HandleOf c ino f) :
    (f.directReader img ino).run (holding c) =
      ({ f with direct := some ((img.openDirect ino).run (holding c)) },
        (img.openDirect ino).run (holding c)) := by
  unfold OpenFile.directReader
  cases hd : f.direct with
  | none =>
    dsimp only
    rw [Prog.run_bind, Prog.run_done]
  | some s =>
    have hs := h.direct s hd
    subst hs
    dsimp only
    rw [Prog.run_done, ← hd]

/-- A `Read` of `n` bytes at the offset of `f` has delivered what there is of them. -/
structure HasRead (img : Image) (c : ℕ → Bytes) (ino : Inode) (content : Bytes) (f : OpenFile)
    (n : ℕ) (r : ReadResult) : Prop where
  handle : img.HandleOf c ino r.file
  offset : r.file.offset = f.offset + r.data.length
  data : r.data = (content.drop f.offset).take n
  err : r.err = none ∨ r.err = some eofError ∧ ino.size < f.offset + n

namespace Supplies

variable (h : img.Supplies c ino content)

include h

theorem length_rest (off : ℕ) : ((content.drop off).take n).length = min n (ino.size - off) := by
  rw [List.length_take, List.length_drop, h.length]

/-! ## `Read` -/

/-- The block loop of `Read`: it delivers what is wanted, and ends the file where there is less. -/
theorem readBlocks {fuel : ℕ} {acc : Bytes} (hf : img.HandleOf c ino f) (hfuel : n ≤ fuel) :
    (OpenFile.readBlocks img ino fuel f n acc).run (holding c) =
      ⟨f.advance ((content.drop f.offset).take n).length, acc ++ (content.drop f.offset).take n,
        if n ≤ ino.size - f.offset then none else some eofError⟩ := by
  induction fuel generalizing f n acc with
  | zero =>
    obtain rfl : n = 0 := Nat.le_zero.1 hfuel
    rw [OpenFile.readBlocks, Prog.run_done, List.take_zero, List.append_nil,
      if_pos (Nat.zero_le _)]
    rfl
  | succ fuel ih =>
    rw [OpenFile.readBlocks]
    by_cases hzero : n = 0
    · rw [if_pos hzero, hzero, Prog.run_done, List.take_zero, List.append_nil,
        if_pos (Nat.zero_le _)]
      rfl
    rw [if_neg hzero]
    by_cases hend : ino.size ≤ f.offset
    · have hnil : content.drop f.offset = [] :=
        List.drop_eq_nil_of_le (by rw [h.length]; exact hend)
      rw [if_pos hend, Prog.run_done, hnil, List.take_nil, List.append_nil, if_neg (by omega)]
      rfl
    have hoff := not_le.1 hend
    have hpos := img.blockLen_pos hoff
    have hle := img.blockLen_le hoff
    rw [if_neg hend, Prog.run_bind, h.block _ hoff]
    dsimp only
    -- the block loop goes on behind what was copied of this block
    set copied :=
      ((content.drop f.offset).take (img.blockLen ino.size f.offset)).take n with hcopied
    have hlen : copied.length = min n (img.blockLen ino.size f.offset) := by
      rw [hcopied, List.length_take, h.length_rest]
      omega
    have hsplit : (content.drop f.offset).take n =
        copied ++ (content.drop (f.offset + copied.length)).take (n - copied.length) := by
      have hfirst : copied = (content.drop f.offset).take copied.length := by
        rw [hlen, hcopied, List.take_take]
      have hn : n = copied.length + (n - copied.length) := by omega
      calc (content.drop f.offset).take n
          = (content.drop f.offset).take (copied.length + (n - copied.length)) := by rw [← hn]
        _ = copied ++ (content.drop (f.offset + copied.length)).take (n - copied.length) := by
            rw [List.take_add, ← hfirst, List.drop_drop]
    have hrest := @ih (f.advance copied.length) (n - copied.length) (acc ++ copied)
      (hf.advance _) (by omega)
    have hoff' : (f.advance copied.length).offset = f.offset + copied.length := rfl
    rw [hrest, hoff', hsplit, List.append_assoc, List.length_append]
    congr 1
    · simp only [OpenFile.advance, Nat.add_assoc]
    · congr 1
      rw [eq_iff_iff]
      omega

/-- **`Read`.**  At any offset, it delivers the bytes from there on; at the end of the file a buffer
that is not empty gets the end. -/
theorem readWith (hf : img.HandleOf c ino f) (hn : f.offset < ino.size ∨ 0 < n) :
    img.HasRead c ino content f n ((f.readWith img ino n).run (holding c)) := by
  unfold OpenFile.readWith
  rw [Prog.run_bind, hf.directReader]
  cases hd : (img.openDirect ino).run (holding c) with
  | none =>
    dsimp only
    have hf' : img.HandleOf c ino { f with direct := some none } :=
      ⟨hf.info, fun s hs => by cases hs; exact hd⟩
    rw [h.readBlocks hf' le_rfl]
    refine ⟨hf'.advance _, rfl, rfl, ?_⟩
    dsimp only
    split_ifs with hle
    · exact .inl rfl
    · exact .inr ⟨rfl, by omega⟩
  | some s =>
    dsimp only
    have hf' : img.HandleOf c ino { f with direct := some (some s) } :=
      ⟨hf.info, fun t ht => by cases ht; exact hd⟩
    have hlen := @Supplies.length_rest img c ino content (min n (ino.size - f.offset)) h f.offset
    have htake : (content.drop f.offset).take (min n (ino.size - f.offset)) =
        (content.drop f.offset).take n := by
      rw [← h.length, ← List.length_drop, ← List.take_take, List.take_length]
    unfold OpenFile.readDirect
    dsimp only
    by_cases hend : ino.size ≤ f.offset
    · have hnil : content.drop f.offset = [] :=
        List.drop_eq_nil_of_le (by rw [h.length]; exact hend)
      rw [if_pos hend, Prog.run_done]
      exact ⟨hf', rfl, by rw [hnil, List.take_nil], .inr ⟨rfl, by omega⟩⟩
    have hoff := not_le.1 hend
    rw [if_neg hend, Prog.run_bind, h.direct s hd _ hoff _ (by omega), Prog.run_done]
    refine ⟨hf'.advance _, rfl, htake, .inl ?_⟩
    dsimp only
    split_ifs <;> rfl

theorem read (hf : img.HandleOf c ino f) (hn : f.offset < ino.size ∨ 0 < n) :
    img.HasRead c ino content f n ((f.read img n).run (holding c)) := by
  have hread : (f.read img n).run (holding c) = (f.readWith img ino n).run (holding c) := by
    rw [OpenFile.read, OpenFile.readInfo, hf.info, Prog.run_bind]
    rfl
  rw [hread]
  exact h.readWith hf hn

/-- `readAll` of a file that is at its beginning gives all of it. -/
theorem readAll (hf : img.HandleOf c ino f) (hoff : f.offset = 0) :
    (img.readAll f ino.size).run (holding c) = .ok content := by
  unfold Image.readAll
  split_ifs with hzero
  · rw [List.eq_nil_of_length_eq_zero (h.length.trans hzero)]
    rfl
  · obtain ⟨fuel, hfuel⟩ : ∃ fuel, ino.size = fuel + 1 := ⟨ino.size - 1, by omega⟩
    obtain ⟨-, -, hdata, -⟩ := @read img c ino content f ino.size h hf (by omega)
    rw [hoff, List.drop_zero, ← h.length, List.take_length, h.length] at hdata
    have hfull : (img.readFull ino.size (fuel + 1) f ino.size []).run (holding c) =
        .ok content := by
      rw [readFull, Prog.run_bind, hdata, if_pos h.length.ge]
      rfl
    rwa [← hfuel] at hfull

/-- `Read` calls deliver the file piece by piece, and end with it. -/
theorem readUntil {acc : Bytes} {ns : List ℕ} (hf : img.HandleOf c ino f)
    (hns : ∀ n ∈ ns, 0 < n) :
    ∃ f' err, (OpenFile.readUntil img f acc ns).run (holding c) =
        ⟨f', acc ++ (content.drop f.offset).take ns.sum, err⟩ ∧
      img.HandleOf c ino f' ∧
      f'.offset = f.offset + ((content.drop f.offset).take ns.sum).length ∧
      (err = none ∨ err = some eofError ∧ ino.size < f.offset + ns.sum) := by
  induction ns generalizing f acc with
  | nil =>
    refine ⟨f, none, ?_, hf, ?_, .inl rfl⟩
    · rw [OpenFile.readUntil, Prog.run_done, List.sum_nil, List.take_zero, List.append_nil]
    · rw [List.sum_nil, List.take_zero]
      rfl
  | cons n ns ih =>
    have hpos := hns n List.mem_cons_self
    obtain ⟨hhandle, hoffset, hdata, herr⟩ :=
      @Supplies.read img c ino content f n h hf (.inr hpos)
    rw [OpenFile.readUntil, Prog.run_bind, List.sum_cons]
    generalize (f.read img n).run (holding c) = r at *
    rcases herr with hnone | ⟨heof, hlt⟩
    · obtain ⟨f', err, hrun, hf', hend, herr⟩ := @ih r.file (acc ++ r.data) hhandle
        fun m hm => hns m (List.mem_cons_of_mem _ hm)
      -- either the call has filled its buffer, or nothing is left behind it
      have hrest : (content.drop r.file.offset).take ns.sum =
          ((content.drop f.offset).drop n).take ns.sum := by
        rw [List.drop_drop]
        by_cases hfull : n ≤ ino.size - f.offset
        · rw [hoffset, hdata, h.length_rest, min_eq_left hfull]
        · rw [hoffset, hdata, h.length_rest,
            List.drop_eq_nil_of_le (by rw [h.length]; omega),
            List.drop_eq_nil_of_le (by rw [h.length]; omega)]
      have hsplit : r.data ++ (content.drop r.file.offset).take ns.sum =
          (content.drop f.offset).take (n + ns.sum) := by
        rw [hrest, hdata, List.take_add]
      rw [hnone]
      refine ⟨f', err, ?_, hf', ?_, herr.imp_right fun hlt => ⟨hlt.1, ?_⟩⟩
      · rw [← hsplit, ← List.append_assoc]
        exact hrun
      · rw [← hsplit, List.length_append]
        omega
      · have := hlt.2
        rw [hoffset, hdata, h.length_rest] at this
        omega
    · have hall : ∀ m, n ≤ m → (content.drop f.offset).take m = r.data := by
        intro m hm
        rw [hdata, List.take_of_length_le (by rw [List.length_drop, h.length]; omega),
          List.take_of_length_le (by rw [List.length_drop, h.length]; omega)]
      rw [heof, hall _ (Nat.le_add_right ..)]
      exact ⟨r.file, _, rfl, hhandle, hoffset, .inr ⟨rfl, by omega⟩⟩

/-! ## `WriteTo` -/

omit h in
/-- A writer that reports no error takes all it is given. -/
theorem write_all {w : OpenFile.Sink} (hall : ∀ m b, (w.write m b).2 = none) (m : ℕ) (b : Bytes) :
    w.write m b = (b.length, none) := by
  refine Prod.ext ?_ (hall m b)
  by_contra hne
  exact w.short m b (lt_of_le_of_ne (w.le m b) hne) (hall m b)

omit h in
/-- What `WriteTo` returns when it has delivered the rest of the file behind `acc`. -/
def delivered (ino : Inode) (content : Bytes) (f : OpenFile) (acc : Bytes) : OpenFile.WriteResult :=
  ⟨f.advance (ino.size - f.offset), acc ++ content.drop f.offset, none⟩

theorem delivered_end {acc : Bytes} (hend : ino.size ≤ f.offset) :
    (⟨f, acc, none⟩ : OpenFile.WriteResult) = delivered ino content f acc := by
  rw [delivered, List.drop_eq_nil_of_le (by rw [h.length]; exact hend), List.append_nil,
    Nat.sub_eq_zero_of_le hend]
  rfl

omit h in
/-- A turn of a copy loop: what is left to deliver after `n` bytes more. -/
theorem delivered_step {acc : Bytes} (hn : f.offset + n ≤ ino.size) :
    delivered ino content (f.advance n)
        (acc ++ ((content.drop f.offset).take n).take ((content.drop f.offset).take n).length) =
      delivered ino content f acc := by
  have hoff : (f.advance n).offset = f.offset + n := rfl
  have hadvance : (f.advance n).advance (ino.size - (f.offset + n)) =
      f.advance (ino.size - f.offset) := by
    simp only [OpenFile.advance]
    congr 1
    omega
  rw [delivered, delivered, hoff, hadvance, List.take_length, List.append_assoc, ← List.drop_drop,
    List.take_append_drop]

/-- The copy of a section delivers the rest of the file. -/
theorem copySection {w : OpenFile.Sink} {s : Section} {fuel : ℕ} {acc : Bytes}
    (hall : ∀ m b, (w.write m b).2 = none) (hs : (img.openDirect ino).run (holding c) = some s)
    (hfuel : ino.size ≤ f.offset + fuel) :
    (OpenFile.copySection img w s ino.size fuel f acc).run (holding c) =
      delivered ino content f acc := by
  have hwrite := write_all hall
  induction fuel generalizing f acc with
  | zero => exact h.delivered_end (by omega)
  | succ fuel ih =>
    rw [OpenFile.copySection]
    by_cases hend : ino.size ≤ f.offset
    · rw [if_pos hend]
      exact h.delivered_end hend
    have hoff := not_le.1 hend
    generalize hn : min OpenFile.copyBuffer (ino.size - f.offset) = n
    have hpos : 0 < n := by
      rw [← hn, OpenFile.copyBuffer]
      omega
    have hlen := @Supplies.length_rest img c ino content n h f.offset
    rw [min_eq_left (by omega)] at hlen
    have hne : (content.drop f.offset).take n ≠ [] := List.ne_nil_of_length_pos (by omega)
    rw [if_neg hend, Prog.run_bind, h.direct s hs _ hoff _ (by omega)]
    simp only [if_neg hne, hwrite]
    have hstep := @delivered_step ino content f n acc (by omega)
    rw [← hstep, hlen]
    exact ih (by change ino.size ≤ f.offset + n + fuel; omega)

/-- The block loop of `WriteTo` delivers the rest of the file. -/
theorem writeBlocks {w : OpenFile.Sink} {fuel : ℕ} {acc : Bytes}
    (hall : ∀ m b, (w.write m b).2 = none) (hfuel : ino.size ≤ f.offset + fuel) :
    (OpenFile.writeBlocks img w ino fuel f acc).run (holding c) =
      delivered ino content f acc := by
  have hwrite := write_all hall
  induction fuel generalizing f acc with
  | zero => exact h.delivered_end (by omega)
  | succ fuel ih =>
    rw [OpenFile.writeBlocks]
    by_cases hend : ino.size ≤ f.offset
    · rw [if_pos hend]
      exact h.delivered_end hend
    have hoff := not_le.1 hend
    have hpos := img.blockLen_pos hoff
    have hle := img.blockLen_le hoff
    have hlen := @Supplies.length_rest img c ino content (img.blockLen ino.size f.offset) h f.offset
    rw [min_eq_left (by omega)] at hlen
    rw [if_neg hend, Prog.run_bind, h.block _ hoff]
    simp only [hwrite]
    rw [← delivered_step hle, hlen]
    exact ih (by
      change ino.size ≤ f.offset + img.blockLen ino.size f.offset + fuel
      omega)

/-- **`WriteTo`.**  It delivers the file from the offset on. -/
theorem writeTo {w : OpenFile.Sink} (hall : ∀ m b, (w.write m b).2 = none)
    (hf : img.HandleOf c ino f) :
    ((f.writeTo img w).run (holding c)).data = content.drop f.offset ∧
      ((f.writeTo img w).run (holding c)).err = none := by
  rw [OpenFile.writeTo, OpenFile.readInfo, hf.info, Prog.run_bind, Prog.run_done]
  dsimp only
  unfold OpenFile.writeToWith
  by_cases hend : ino.size ≤ f.offset
  · rw [if_pos hend, Prog.run_done, h.delivered_end hend]
    exact ⟨rfl, rfl⟩
  · rw [if_neg hend, Prog.run_bind, hf.directReader]
    cases hd : (img.openDirect ino).run (holding c) with
    | none =>
      dsimp only
      rw [h.writeBlocks hall (by dsimp only; omega)]
      exact ⟨rfl, rfl⟩
    | some s =>
      dsimp only
      rw [h.copySection hall hd (by dsimp only; omega)]
      exact ⟨rfl, rfl⟩

/-- `Read` calls and a `WriteTo` after them deliver the whole file, wherever the calls part it. -/
theorem delivers {w : OpenFile.Sink} {ns : List ℕ} (hall : ∀ m b, (w.write m b).2 = none)
    (hf : img.HandleOf c ino f) (hoff : f.offset = 0) (hns : ∀ n ∈ ns, 0 < n) :
    ∃ f' f'' err, (OpenFile.readUntil img f [] ns).run (holding c) =
        ⟨f', content.take ns.sum, err⟩ ∧
      (err = none ∨ err = some eofError ∧ content.length < ns.sum) ∧
      (f'.writeTo img w).run (holding c) = ⟨f'', content.drop ns.sum, none⟩ := by
  obtain ⟨f', err, hread, hf', hend, herr⟩ :=
    @Supplies.readUntil img c ino content f h [] ns hf hns
  obtain ⟨hdata, hdone⟩ := h.writeTo hall hf'
  rw [hoff, List.drop_zero, List.nil_append] at hread
  rw [hoff, Nat.zero_add, ← h.length] at herr
  refine ⟨f', ((f'.writeTo img w).run (holding c)).file, err, hread, herr, ?_⟩
  rw [hoff, List.drop_zero, Nat.zero_add, List.length_take] at hend
  have hrest : content.drop f'.offset = content.drop ns.sum := by
    rw [hend]
    by_cases hle : ns.sum ≤ content.length
    · rw [min_eq_left hle]
    · rw [List.drop_eq_nil_of_le (by omega), List.drop_eq_nil_of_le (by omega)]
  rw [← hrest, ← hdata, ← hdone]

end Supplies

/-! ## Separate devices -/

/-- Each device is a reader of its own, and none has a range of the image's addresses. -/
structure Separate (img : Image) : Prop where
  external : ∀ d ∈ img.devices, d.device = .external
  unmapped : ∀ pa k, img.findMapped pa k img.devices = none

namespace Separate

variable {b : Bytes} {s : Section} {deviceID dev pos : ℕ} {pa off addr : Int} {p : Place}

theorem locate_eq (hs : img.Separate) (h : img.locate deviceID pa = .ok (dev, off)) :
    dev = deviceID ∧ off = pa := by
  unfold locate at h
  by_cases hid : 0 < deviceID
  · rw [if_pos hid] at h
    split_ifs at h
    cases h
    exact ⟨rfl, rfl⟩
  · rw [if_neg hid, hs.unmapped] at h
    dsimp only at h
    split_ifs at h
    cases h
    exact ⟨by omega, rfl⟩

theorem deviceReader_eq (hs : img.Separate) (dev : ℕ) (off : Int) (n : ℕ) :
    img.deviceReader dev off n = readerAt dev off n := by
  unfold deviceReader
  split_ifs with hzero
  · rw [hzero]
  · split
    · next hd =>
      have hext := hs.external _ (List.mem_of_getElem? hd)
      cases hext
    · rfl

/-- A block of a chunk is placed on the device its entry names. -/
theorem chunkDataPlace_eq (hs : img.Separate)
    (h : img.chunkDataPlace ino pos deviceID addr = some p) :
    p = .data deviceID
      (addr + (pos - (pos / 2 ^ img.chunkBits ino * 2 ^ img.chunkBits ino : ℕ))) := by
  have hdm := Nat.div_add_mod' pos img.blockSize
  unfold chunkDataPlace at h
  dsimp only at h
  split at h
  · cases h
  next dev off hloc =>
    obtain ⟨rfl, rfl⟩ := hs.locate_eq hloc
    split at h
    · cases h
    · cases h
      congr 1
      generalize pos / img.blockSize * img.blockSize = start at hdm ⊢
      omega

/-- The blocks of a chunk-based file are where their addresses are. -/
theorem chunkPlace_eq (hs : img.Separate) (hlay : ino.inodeLayout = .chunkBased)
    (h : img.chunkPlace b ino pos = some p) : p = (img.fileAddr b ino pos).place := by
  have hle := Nat.div_mul_le_self pos (2 ^ img.chunkBits ino)
  unfold chunkPlace entryAddr at h
  unfold fileAddr
  simp only [hlay]
  dsimp only at h
  split_ifs at h
  cases hd : img.decodeEntry ino (held b (img.entryPos ino (pos / 2 ^ img.chunkBits ino)).toNat
      (chunkUnit ino)) with
  | none =>
    rw [hd] at h
    cases h
    rfl
  | some e =>
    rw [hd] at h
    dsimp only at h
    cases hc : img.chunkAddr e.block with
    | error err =>
      rw [hc] at h
      cases h
    | ok addr =>
      rw [hc] at h
      rw [hs.chunkDataPlace_eq h, chunkAddr_ok hc, ← Nat.cast_sub hle]
      rfl

theorem runSection_eq (hs : img.Separate) {e : ChunkEntry} (h : img.runSection ino e = some s) :
    s.dev = e.device ∧ s.base = (e.block * img.blockSize : ℕ) := by
  unfold runSection at h
  split at h
  · cases h
  next addr haddr =>
    split at h
    · cases h
    next dev mapped hloc =>
      obtain ⟨rfl, rfl⟩ := hs.locate_eq hloc
      split at h
      · cases h
      · cases h
        exact ⟨rfl, chunkAddr_ok haddr⟩

/-- The section of a file whose chunks are one run is where the first chunk is. -/
theorem openChunks_eq (hs : img.Separate) (hlay : ino.inodeLayout = .chunkBased)
    (hsize : 0 < ino.size) (h : (img.openChunks ino).run (holding c) = some s) :
    img.RunOf (c 0) ino s s.dev s.base := by
  obtain ⟨deviceID, addr, hrun⟩ := openChunks_run hlay hsize h
  suffices hdev : s.dev = deviceID by
    obtain ⟨-, hbase⟩ | ⟨hzero, hpos, -⟩ := hrun.sits
    · rw [hdev, hbase]
      exact hrun
    · omega
  -- the device is the one of the first entry, on both sides
  obtain ⟨hmap, hindexed, hformat⟩ := openChunks_map h
  obtain ⟨e, hchunks, hsec⟩ := (openChunks_iff hmap hindexed hformat hsize).1 h
  have hfirst := hrun.addrs 0 hsize
  rw [hchunks.fileAddr hlay hsize] at hfirst
  rw [(hs.runSection_eq hsec).1, (Addr.byte.inj hfirst).1]

end Separate

/-- **One content.**  Where devices are separate, a chunk-based file whose blocks are those of
`content` has that content also through its section. -/
theorem supplies_of_blocks (hs : img.Separate) (hlay : ino.inodeLayout = .chunkBased)
    (hlen : content.length = ino.size)
    (hblock : ∀ pos < ino.size, (img.loadBlock ino pos).run (holding c) =
      .ok ((content.drop pos).take (img.blockLen ino.size pos))) :
    img.Supplies c ino content := by
  refine ⟨hlen, hblock, fun s hopen pos hpos n hn => ?_⟩
  have hsize : 0 < ino.size := by omega
  have hrun : img.RunOf (c 0) ino s s.dev s.base := by
    rw [openDirect, if_neg (by omega), hlay] at hopen
    exact hs.openChunks_eq hlay hsize hopen
  obtain ⟨base, hbase⟩ := Int.eq_ofNat_of_zero_le hrun.sound.nonneg
  -- each block stands on the device as far from the section's start as it is into the file
  have hstands : ∀ q < ino.size, held (c s.dev) (base + q) (img.blockLen ino.size q) =
      (content.drop q).take (img.blockLen ino.size q) := by
    intro q hq
    obtain ⟨p, hplace, hgives⟩ := (loadBlock_iff hq).1 (hblock q hq)
    rw [blockPlace, hlay] at hplace
    rw [hs.chunkPlace_eq hlay hplace, hrun.addrs q hq, hbase] at hgives
    obtain ⟨hdata, -⟩ := hgives
    rw [hs.deviceReader_eq, ← Int.natCast_add, holding_held] at hdata
    exact hdata
  have hcontent : HasAt (c s.dev) base content := by
    refine List.prefix_iff_getElem?.2 fun q hq => ?_
    rw [hlen] at hq
    have hpiece := congrArg (·[0]?) (hstands q hq)
    have hbl := img.blockLen_pos hq
    simp only [held, List.getElem?_take_of_lt hbl, List.getElem?_drop, Nat.add_zero] at hpiece
    rw [List.getElem?_drop, hpiece, List.getElem?_eq_getElem]
  have htop := hrun.sound.end_le
  have hlimit : sectionLimit s.base s.len = s.base + s.len := by
    rw [sectionLimit, hrun.len, if_pos (by omega)]
  have hpart : HasAt (c s.dev) (base + pos) ((content.drop pos).take n) :=
    hcontent.within (List.take_prefix _ _)
  have hfull : ((content.drop pos).take n).length = n := by
    rw [List.length_take, List.length_drop, hlen]
    omega
  have hheld : held (c s.dev) (base + pos) n = (content.drop pos).take n := by
    have htake := hpart.take_drop
    rwa [hfull] at htake
  unfold readSection sectionReadAt
  dsimp only
  rw [hlimit, hrun.len, hbase, if_neg (by omega), if_neg (by omega), hs.deviceReader_eq,
    ← Nat.cast_add, Nat.add_comm pos base, holding_held, hheld, hfull, if_neg (lt_irrefl n)]

end Image

end Erofs
