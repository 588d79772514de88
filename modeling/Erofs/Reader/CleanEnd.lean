import Erofs.Reader.Session

/-!
# Clean ends

When `Read` ends with `io.EOF`, `WriteTo` with no error and `ReadDir(-1)` with no error, has all of
the file been seen?  The declared size is what each loop runs to, and a block that ends short is an
error of another kind (`loadBlock_eof_iff`).  Two answers of a reader are still taken for the end
of the file: an `io.EOF` to the read of a chunk entry, and an `io.EOF` through the section of
`openDirect`.

The main results:

* `read_unreadable` — a file whose inode cannot be read has no clean end;
* `read_step`, `readCalls_end` — how one `Read`, and any sequence of them, can end;
* `cleanEnd_iff` — the clean ends are true ones exactly when no offset the calls come to has such
  an answer.
-/

namespace Erofs

open GoPath LittleEndian Oracle

/-- The contract of `io.ReaderAt`: fewer bytes than were asked for come with an error. -/
def Lawful (o : Req → Answer) : Prop := ∀ q, (o q).data.length < q.len → (o q).err ≠ none

/-- A sequence of `Read` calls with buffers of the given lengths: the bytes of all of them and the
error of the last. -/
def OpenFile.readCalls (img : Image) :
    OpenFile → Bytes → Option GoError → List ℕ → ReadProg ReadResult
  | f, acc, err, [] => .done ⟨f, acc, err⟩
  | f, acc, _, n :: ns => (f.read img n).bind fun r =>
      readCalls img r.file (acc ++ r.data) r.err ns

namespace Image

section Conditions

variable (img : Image) (o : Req → Answer) (ino : Inode)

/-- The offsets `Read` calls come to, for a file with or without a section. -/
inductive Reached : Option Section → ℕ → Prop
  | start {d : Option Section} : Reached d 0
  | block {p k : ℕ} {buf : Bytes} (h : Reached none p) (hp : p < ino.size)
      (hb : (img.loadBlock ino p).run o = .ok buf) (hk : k ≤ buf.length) : Reached none (p + k)
  | direct {s : Section} {p n : ℕ} (h : Reached (some s) p) (hp : p < ino.size)
      (hn : p + n ≤ ino.size) : Reached (some s) (p + ((img.readSection s p n).run o).data.length)

/-- At offset `p` the reader answers `io.EOF` before the file's end: to the read of the chunk
entry, or short of what was asked for through the section. -/
def CutShort : Option Section → ℕ → Prop
  | none, p => img.ReadsEntry ino p ∧ img.EntryEof o ino p
  | some s, p => ∃ n, p + n ≤ ino.size ∧ ((img.readSection s p n).run o).data.length < n ∧
      ((img.readSection s p n).run o).err = some eofError

/-- What `io.Copy` reads of the section at offset `p`. -/
def copyRead (s : Section) (p : ℕ) : Answer :=
  (img.readSection s p (min OpenFile.copyBuffer (ino.size - p))).run o

/-- The offsets `WriteTo` comes to with a writer that takes everything. -/
inductive Copied : Option Section → ℕ → Prop
  | start {d : Option Section} : Copied d 0
  | block {p : ℕ} {buf : Bytes} (h : Copied none p) (hp : p < ino.size)
      (hb : (img.loadBlock ino p).run o = .ok buf) : Copied none (p + buf.length)
  | direct {s : Section} {p : ℕ} (h : Copied (some s) p) (hp : p < ino.size)
      (he : (img.copyRead o ino s p).err = none) :
      Copied (some s) (p + (img.copyRead o ino s p).data.length)

/-- At offset `p` the reader answers `WriteTo` with an `io.EOF` before the file's end. -/
def CopyCut : Option Section → ℕ → Prop
  | none, p => img.ReadsEntry ino p ∧ img.EntryEof o ino p
  | some s, p => (img.copyRead o ino s p).err = some eofError ∧
      p + (img.copyRead o ino s p).data.length < ino.size

/-- Block `b` of a directory can be read and every dirent of it listed. -/
def Listed (b : ℕ) : Prop :=
  ∃ buf entryN, (img.loadBlock ino (b * img.blockSize)).run o = .ok buf ∧
    checkDirBlock ino.nid buf = .ok entryN ∧
    ∀ i < entryN, ∃ name, listedName buf entryN i = .ok name

end Conditions

variable {img : Image} {o : Req → Answer} {ino : Inode} {d : Option Section} {s : Section}
  {name : Bytes} {nid p n : ℕ} {ftype : FileMode}

/-! ## Inodes -/

theorem checkInodeFormat_notEof {format : ℕ} : NotEof (checkInodeFormat nid format) := by
  unfold checkInodeFormat
  dsimp only
  split_ifs <;> rintro e ⟨⟩ <;> rfl

theorem decodeInode_notEof {sb : SuperBlock} {buf : Bytes} {format : ℕ} :
    NotEof (decodeInode sb name nid buf format) := by
  unfold decodeInode
  split_ifs <;> rintro e ⟨⟩
  rfl

theorem checkDecoded_notEof : NotEof (checkDecoded ftype ino) := by
  unfold checkDecoded
  split_ifs <;> rintro e ⟨⟩ <;> rfl

theorem finishInfo_notEof {buf : Bytes} {xcnt : ℕ} : NotEof (finishInfo buf xcnt ino) := by
  refine NotEof.bind ?_ fun xsize => NotEof.bind ?_ fun _ => NotEof.bind ?_ fun _ => ?_
  · unfold xattrSize xattrBodySize
    split_ifs <;> rintro e ⟨⟩
    rfl
  · unfold checkChunkFormat
    split_ifs <;> rintro e ⟨⟩
    rfl
  · unfold checkFastSymlink
    split_ifs <;> rintro e ⟨⟩ <;> rfl
  · rintro e ⟨⟩

/-- An inode the image ends inside is an error, never an end of file. -/
theorem readInfo_notEof : NotEof ((img.readInfo name nid ftype).run o) := by
  unfold readInfo
  cases hc : img.checkNid nid with
  | error e =>
    unfold checkNid at hc
    split_ifs at hc <;> cases hc <;> rintro e ⟨⟩ <;> rfl
  | ok u =>
    dsimp only
    rw [Prog.run_bind, Prog.run_done]
    generalize (readerAt 0 (img.inodeStart nid) (img.inodeWindow nid)).run o = a
    unfold parseInfo
    cases he : a.hardError with
    | some e =>
      rintro e' ⟨⟩
      exact hardError_notEof he
    | none =>
      dsimp only
      split_ifs
      · rintro e ⟨⟩
        rfl
      · exact checkInodeFormat_notEof.bind fun _ => decodeInode_notEof.bind fun _ =>
          checkDecoded_notEof.bind fun _ => finishInfo_notEof

/-- A file whose inode cannot be read has no clean end at all. -/
theorem read_unreadable {e : GoError} (h : (img.readInfo name nid ftype).run o = .error e) (n : ℕ) :
    ((OpenFile.read img ⟨name, nid, ftype, 0, none, none⟩ n).run o).err = some e ∧
      e.is .eof = false := by
  refine ⟨?_, readInfo_notEof e h⟩
  simp [OpenFile.read, OpenFile.readInfo, Prog.run_bind, Prog.exec_bind, h]

/-! ## Section reads -/

/-- A `ReadAt` that delivers no more than asked for, and less only with an error. -/
def Fills (o : Req → Answer) (r : Int → ℕ → ReadProg Answer) : Prop :=
  ∀ off n, ((r off n).run o).data.length ≤ n ∧
    (((r off n).run o).data.length < n → ((r off n).run o).err ≠ none)

theorem readerAt_fills (ho : Lawful o) (reader : ℕ) : Fills o (readerAt reader) := by
  intro off n
  simp only [readerAt, Prog.run_ask, Prog.run_done, List.length_take]
  refine ⟨min_le_left _ _, fun h => ho ⟨reader, off, n⟩ ?_⟩
  exact (min_lt_iff.1 h).resolve_left (lt_irrefl n)

theorem sectionReadAt_fills {r : Int → ℕ → ReadProg Answer} (hr : Fills o r) (base len : Int) :
    Fills o (sectionReadAt r base len) := by
  intro off n
  unfold sectionReadAt
  dsimp only
  split_ifs with hout hclip
  · simp
  · rw [Prog.run_bind]
    have hle := (hr (off + base) (sectionLimit base len - (off + base)).toNat).1
    exact ⟨by simp only [Prog.run_done]; omega, by simp⟩
  · exact hr _ _

theorem deviceReader_fills (ho : Lawful o) (dev : ℕ) : Fills o (img.deviceReader dev) := by
  intro off n
  unfold deviceReader
  split_ifs
  · exact readerAt_fills ho 0 off n
  · split
    · exact sectionReadAt_fills (readerAt_fills ho 0) _ _ off n
    · exact readerAt_fills ho dev off n

theorem readSection_fills (ho : Lawful o) (s : Section) : Fills o (img.readSection s) :=
  sectionReadAt_fills (deviceReader_fills ho s.dev) _ _

/-! ## `Read` -/

theorem reached_le (ho : Lawful o) (h : img.Reached o ino d p) : p ≤ ino.size := by
  cases h with
  | start => exact Nat.zero_le _
  | @block p k buf h hp hb hk =>
    have hlen := loadBlock_length hb
    have hle : img.blockLen ino.size p ≤ ino.size - p := min_le_right _ _
    omega
  | @direct s p n h hp hn =>
    have := (img.readSection_fills ho s p n).1
    omega

/-- The open file at offset `p`, once its inode and its section are known. -/
def fileAt (name : Bytes) (nid : ℕ) (ftype : FileMode) (ino : Inode) (d : Option Section) (p : ℕ) :
    OpenFile := ⟨name, nid, ftype, p, some ino, some d⟩

@[simp] theorem fileAt_offset : (fileAt name nid ftype ino d p).offset = p := rfl

@[simp] theorem fileAt_advance {k : ℕ} :
    (fileAt name nid ftype ino d p).advance k = fileAt name nid ftype ino d (p + k) := rfl

/-- `io.EOF` is reported as the end at offset `p`, or after an earlier one cut short. -/
def EndsAt (img : Image) (o : Req → Answer) (ino : Inode) (d : Option Section) (p : ℕ) : Prop :=
  p = ino.size ∨ ∃ q < ino.size, img.Reached o ino d q ∧ img.CutShort o ino d q

/-- A `Read` at offset `p` has gone `k` bytes on, with `m` delivered before it, and its `io.EOF` is
one of the two ends. -/
def Goes (img : Image) (o : Req → Answer) (name : Bytes) (nid : ℕ) (ftype : FileMode) (ino : Inode)
    (d : Option Section) (p m : ℕ) (r : ReadResult) : Prop :=
  ∃ k, r.file = fileAt name nid ftype ino d (p + k) ∧ r.data.length = m + k ∧
    img.Reached o ino d (p + k) ∧ (r.err = some eofError → img.EndsAt o ino d (p + k))

theorem readBlocks_step (ho : Lawful o) {fuel : ℕ} {acc : Bytes} (hn : n ≤ fuel)
    (hR : img.Reached o ino none p) :
    img.Goes o name nid ftype ino none p acc.length
      ((OpenFile.readBlocks img ino fuel (fileAt name nid ftype ino none p) n acc).run o) := by
  induction fuel generalizing p n acc with
  | zero => exact ⟨0, rfl, rfl, hR, by rintro ⟨⟩⟩
  | succ fuel ih =>
    unfold OpenFile.readBlocks
    by_cases h0 : n = 0
    · rw [if_pos h0]
      exact ⟨0, rfl, rfl, hR, by rintro ⟨⟩⟩
    rw [if_neg h0, fileAt_offset]
    by_cases hp : ino.size ≤ p
    · rw [if_pos hp]
      exact ⟨0, rfl, rfl, hR, fun _ => .inl (le_antisymm (reached_le ho hR) hp)⟩
    rw [if_neg hp, Prog.run_bind]
    have hlt := not_le.1 hp
    cases hb : (img.loadBlock ino p).run o with
    | error e =>
      refine ⟨0, rfl, rfl, hR, fun he => .inr ⟨p, hlt, hR, ?_⟩⟩
      have heof : e.is .eof = true := by
        by_contra hne
        simp only [Prog.run_done, if_neg hne, Option.some.injEq] at he
        exact hne (he ▸ rfl)
      exact (loadBlock_eof_iff hlt).1 ⟨e, hb, heof⟩
    | ok buf =>
      have hlen := loadBlock_length hb
      have hpos := img.blockLen_pos hlt
      have htake : (buf.take n).length = min n buf.length := List.length_take
      -- at least one byte is copied, so that the fuel left is enough
      obtain ⟨k, hfile, hdata, hR', herr⟩ := @ih (p + (buf.take n).length)
        (n - (buf.take n).length) (acc ++ buf.take n) (by omega) (hR.block hlt hb (by omega))
      rw [List.length_append, Nat.add_assoc] at hdata
      rw [Nat.add_assoc] at hfile hR' herr
      exact ⟨(buf.take n).length + k, hfile, hdata, hR', herr⟩

theorem readDirect_step (ho : Lawful o) (hR : img.Reached o ino (some s) p) :
    img.Goes o name nid ftype ino (some s) p 0
      (((fileAt name nid ftype ino (some s) p).readDirect img ino s n).run o) := by
  rw [OpenFile.readDirect, fileAt_offset]
  by_cases hp : ino.size ≤ p
  · rw [if_pos hp]
    exact ⟨0, rfl, rfl, hR, fun _ => .inl (le_antisymm (reached_le ho hR) hp)⟩
  rw [if_neg hp]
  dsimp only
  rw [Prog.run_bind]
  have hlt := not_le.1 hp
  have hm : p + min n (ino.size - p) ≤ ino.size := by omega
  generalize min n (ino.size - p) = m at hm
  refine ⟨_, rfl, (Nat.zero_add _).symm, hR.direct hlt hm, fun he => .inr ⟨p, hlt, hR, m, hm, ?_⟩⟩
  have hle := (img.readSection_fills ho s p m).1
  rw [Prog.run_done] at he
  by_cases hfull : ((img.readSection s p m).run o).data.length = m
  · -- a full read drops its `io.EOF`
    simp only [if_pos hfull] at he
    obtain ⟨-, hne⟩ := Option.filter_eq_some_iff.1 he
    cases hne
  · exact ⟨lt_of_le_of_ne hle hfull, by simpa only [if_neg hfull] using he⟩

/-- How one `Read` can end. -/
theorem read_step (ho : Lawful o) (hR : img.Reached o ino d p) (n : ℕ) :
    img.Goes o name nid ftype ino d p 0
      (((fileAt name nid ftype ino d p).read img n).run o) := by
  cases d with
  | none => exact readBlocks_step ho le_rfl hR
  | some s => exact readDirect_step ho hR

/-- How a sequence of `Read` calls can end. -/
theorem readCalls_end (ho : Lawful o) {acc : Bytes} {err : Option GoError}
    (hR : img.Reached o ino d p) (hacc : acc.length = p)
    (herr : err = some eofError → img.EndsAt o ino d p) (ns : List ℕ) :
    let r := (OpenFile.readCalls img (fileAt name nid ftype ino d p) acc err ns).run o
    r.err = some eofError → img.EndsAt o ino d r.data.length := by
  induction ns generalizing p acc err with
  | nil => exact fun h => hacc ▸ herr h
  | cons n ns ih =>
    rw [OpenFile.readCalls, Prog.run_bind]
    obtain ⟨k, hfile, hdata, hR', herr'⟩ :
        img.Goes o name nid ftype ino d p 0 (((fileAt name nid ftype ino d p).read img n).run o) :=
      read_step ho hR n
    rw [hfile]
    exact ih hR' (by rw [List.length_append, hdata]; omega) herr'

/-- The first `Read` of a file that was just opened finds its inode and its section. -/
theorem read_opened (hino : (img.readInfo name nid ftype).run o = .ok ino)
    (hd : (img.openDirect ino).run o = d) (n : ℕ) :
    (OpenFile.read img ⟨name, nid, ftype, 0, none, none⟩ n).run o =
      ((fileAt name nid ftype ino d 0).read img n).run o := by
  simp only [OpenFile.read, OpenFile.readInfo, OpenFile.readWith, OpenFile.directReader,
    fileAt, Prog.run_bind, Prog.exec_bind, hino, Prog.run_done, hd]

theorem readCalls_opened (hino : (img.readInfo name nid ftype).run o = .ok ino)
    (hd : (img.openDirect ino).run o = d) {ns : List ℕ} (hns : ns ≠ []) :
    (OpenFile.readCalls img ⟨name, nid, ftype, 0, none, none⟩ [] none ns).run o =
      (OpenFile.readCalls img (fileAt name nid ftype ino d 0) [] none ns).run o := by
  cases ns with
  | nil => exact absurd rfl hns
  | cons n ns =>
    rw [OpenFile.readCalls, OpenFile.readCalls, Prog.run_bind, Prog.run_bind, read_opened hino hd]

/-! ## Calls that come to a given offset -/

theorem readBlocks_one {k : ℕ} {buf : Bytes} (hp : p < ino.size)
    (hb : (img.loadBlock ino p).run o = .ok buf) (hk : k ≤ buf.length) :
    ((fileAt name nid ftype ino none p).read img k).run o =
      ⟨fileAt name nid ftype ino none (p + k), buf.take k, none⟩ := by
  change (OpenFile.readBlocks img ino k (fileAt name nid ftype ino none p) k []).run o = _
  cases k with
  | zero => simp [OpenFile.readBlocks]
  | succ k =>
    have hlen : (buf.take (k + 1)).length = k + 1 := List.length_take_of_le hk
    rw [OpenFile.readBlocks, fileAt_offset, if_neg (Nat.succ_ne_zero k), if_neg (not_le.2 hp),
      Prog.run_bind, hb]
    dsimp only
    rw [hlen, Nat.sub_self, List.nil_append]
    cases k <;> rfl

theorem readDirect_one (hp : p < ino.size) (hn : p + n ≤ ino.size) :
    ((fileAt name nid ftype ino (some s) p).read img n).run o =
      let a := (img.readSection s p n).run o
      ⟨fileAt name nid ftype ino (some s) (p + a.data.length), a.data,
        if a.data.length = n then a.err.filter fun e => !e.is .eof else a.err⟩ := by
  change ((fileAt name nid ftype ino (some s) p).readDirect img ino s n).run o = _
  have hmin : min n (ino.size - p) = n := min_eq_left (by omega)
  rw [OpenFile.readDirect, fileAt_offset, if_neg (not_le.2 hp), hmin]
  exact Prog.run_bind ..

/-- Every offset that is reached is reached by a sequence of `Read` calls. -/
theorem reached_calls (h : img.Reached o ino d p) :
    ∃ ns acc err, acc.length = p ∧ ∀ ms,
      (OpenFile.readCalls img (fileAt name nid ftype ino d 0) [] none (ns ++ ms)).run o =
        (OpenFile.readCalls img (fileAt name nid ftype ino d p) acc err ms).run o := by
  induction h with
  | start => exact ⟨[], [], none, rfl, fun ms => rfl⟩
  | @block p k buf h hp hb hk ih =>
    obtain ⟨ns, acc, err, hacc, hrun⟩ := ih
    refine ⟨ns ++ [k], acc ++ buf.take k, none, ?_, fun ms => ?_⟩
    · rw [List.length_append, hacc, List.length_take_of_le hk]
    · rw [List.append_assoc, hrun, List.singleton_append, OpenFile.readCalls, Prog.run_bind,
        readBlocks_one hp hb hk]
  | @direct s p n h hp hn ih =>
    obtain ⟨ns, acc, err, hacc, hrun⟩ := ih
    refine ⟨ns ++ [n], acc ++ ((img.readSection s p n).run o).data,
      (((fileAt name nid ftype ino (some s) p).read img n).run o).err, ?_, fun ms => ?_⟩
    · rw [List.length_append, hacc]
    · rw [List.append_assoc, hrun, List.singleton_append, OpenFile.readCalls, Prog.run_bind,
        readDirect_one hp hn]

/-- Where the reader cuts the file short, one more `Read` ends it. -/
theorem cutShort_read (hp : p < ino.size) (hcut : img.CutShort o ino d p) :
    ∃ n, (((fileAt name nid ftype ino d p).read img n).run o).err = some eofError ∧
      p + (((fileAt name nid ftype ino d p).read img n).run o).data.length < ino.size := by
  cases d with
  | none =>
    obtain ⟨e, hb, heof⟩ := (loadBlock_eof_iff hp).2 hcut
    have hread : ((fileAt name nid ftype ino none p).read img 1).run o =
        ⟨fileAt name nid ftype ino none p, [], some eofError⟩ := by
      change (OpenFile.readBlocks img ino 1 (fileAt name nid ftype ino none p) 1 []).run o = _
      rw [OpenFile.readBlocks, fileAt_offset, if_neg one_ne_zero, if_neg (not_le.2 hp),
        Prog.run_bind, hb]
      simp [heof]
    exact ⟨1, by rw [hread], by rw [hread]; exact hp⟩
  | some s =>
    obtain ⟨n, hn, hshort, herr⟩ := hcut
    refine ⟨n, ?_, ?_⟩
    · rw [readDirect_one hp hn]
      simpa only [if_neg hshort.ne] using herr
    · rw [readDirect_one hp hn]
      dsimp only
      omega

/-- The ends of `Read` are true ones exactly when no offset it comes to is cut short. -/
theorem readEnds_iff (ho : Lawful o) (hino : (img.readInfo name nid ftype).run o = .ok ino)
    (hd : (img.openDirect ino).run o = d) :
    (∀ ns, let r := (OpenFile.readCalls img ⟨name, nid, ftype, 0, none, none⟩ [] none ns).run o
      r.err = some eofError → r.data.length = ino.size) ↔
      ∀ p < ino.size, img.Reached o ino d p → ¬ img.CutShort o ino d p := by
  constructor
  · intro h p hp hR hcut
    obtain ⟨ns, acc, err, hacc, hrun⟩ := reached_calls hR
    obtain ⟨n, herr, hlt⟩ := cutShort_read hp hcut
    have hend := h (ns ++ [n])
    rw [readCalls_opened hino hd (by simp), hrun, OpenFile.readCalls, Prog.run_bind] at hend
    have hsize := hend herr
    rw [OpenFile.readCalls, Prog.run_done, List.length_append, hacc] at hsize
    exact absurd hsize hlt.ne
  · intro h ns r herr
    by_cases hns : ns = []
    · subst hns
      cases herr
    · subst r
      rw [readCalls_opened hino hd hns] at herr ⊢
      obtain hsize | ⟨q, hq, hR, hcut⟩ :=
        readCalls_end ho .start List.length_nil (by rintro ⟨⟩) ns herr
      · exact hsize
      · exact absurd hcut (h q hq hR)

/-! ## `WriteTo` -/

section WriteTo

variable {w : OpenFile.Sink} {fuel : ℕ} {acc : Bytes}

/-- A writer that reports no error has taken everything. -/
theorem sink_all (w : OpenFile.Sink) {m nw : ℕ} {b : Bytes} (h : w.write m b = (nw, none)) :
    nw = b.length := by
  have hle := w.le m b
  have hshort := w.short m b
  rw [h] at hle hshort
  by_contra hne
  exact hshort (lt_of_le_of_ne hle hne) rfl

/-- `WriteTo` has written the whole file, or stopped where it was cut short. -/
def Written (img : Image) (o : Req → Answer) (ino : Inode) (d : Option Section) (r : ReadResult) :
    Prop :=
  r.err = none → r.data.length = ino.size ∨
    ∃ q < ino.size, img.Copied o ino d q ∧ img.CopyCut o ino d q

theorem copied_le (ho : Lawful o) (h : img.Copied o ino d p) : p ≤ ino.size := by
  cases h with
  | start => exact Nat.zero_le _
  | @block p buf h hp hb =>
    have hlen := loadBlock_length hb
    have hle : img.blockLen ino.size p ≤ ino.size - p := min_le_right _ _
    omega
  | @direct s p h hp he =>
    have hle : (img.copyRead o ino s p).data.length ≤ min OpenFile.copyBuffer (ino.size - p) :=
      (img.readSection_fills ho s p _).1
    omega

theorem writeBlocks_step (ho : Lawful o) (hfuel : ino.size ≤ p + fuel)
    (hC : img.Copied o ino none p) (hacc : acc.length = p) :
    img.Written o ino none
      ((OpenFile.writeBlocks img w ino fuel (fileAt name nid ftype ino none p) acc).run o) := by
  -- the writer's parts are named so that what it returns can be split
  obtain ⟨write, wle, wshort⟩ := w
  induction fuel generalizing p acc with
  | zero => exact fun _ => .inl (hacc.trans (le_antisymm (copied_le ho hC) hfuel))
  | succ fuel ih =>
    rw [OpenFile.writeBlocks, fileAt_offset]
    by_cases hp : ino.size ≤ p
    · rw [if_pos hp]
      exact fun _ => .inl (hacc.trans (le_antisymm (copied_le ho hC) hp))
    rw [if_neg hp, Prog.run_bind]
    have hlt := not_le.1 hp
    cases hb : (img.loadBlock ino p).run o with
    | error e =>
      intro herr
      have heof : e.is .eof = true := by
        by_contra hne
        simp [if_neg hne] at herr
      exact .inr ⟨p, hlt, hC, (loadBlock_eof_iff hlt).1 ⟨e, hb, heof⟩⟩
    | ok buf =>
      have hpos : 0 < buf.length := loadBlock_length hb ▸ img.blockLen_pos hlt
      dsimp only
      generalize hw : write acc.length buf = x
      obtain ⟨nw, _ | e⟩ := x
      · obtain rfl := sink_all ⟨write, wle, wshort⟩ hw
        have hacc' : (acc ++ buf.take buf.length).length = p + buf.length := by simp [hacc]
        have hfuel' : ino.size ≤ p + buf.length + fuel := by omega
        exact ih hfuel' (hC.block hlt hb) hacc'
      · rintro ⟨⟩

theorem copySection_step (ho : Lawful o) (hfuel : ino.size ≤ p + fuel)
    (hC : img.Copied o ino (some s) p) (hacc : acc.length = p) :
    img.Written o ino (some s)
      ((OpenFile.copySection img w s ino.size fuel
        (fileAt name nid ftype ino (some s) p) acc).run o) := by
  -- the writer's parts are named so that what it returns can be split
  obtain ⟨write, wle, wshort⟩ := w
  induction fuel generalizing p acc with
  | zero => exact fun _ => .inl (hacc.trans (le_antisymm (copied_le ho hC) hfuel))
  | succ fuel ih =>
    rw [OpenFile.copySection, fileAt_offset]
    by_cases hp : ino.size ≤ p
    · rw [if_pos hp]
      exact fun _ => .inl (hacc.trans (le_antisymm (copied_le ho hC) hp))
    rw [if_neg hp, Prog.run_bind]
    have hlt := not_le.1 hp
    obtain ⟨hle, hshort⟩ := img.readSection_fills ho s p (min OpenFile.copyBuffer (ino.size - p))
    have hstep := hC.direct hlt
    have hcut : (img.copyRead o ino s p).err = some eofError →
        p + (img.copyRead o ino s p).data.length < ino.size → img.CopyCut o ino (some s) p :=
      fun h₁ h₂ => ⟨h₁, h₂⟩
    unfold copyRead at hstep hcut
    generalize (img.readSection s p (min OpenFile.copyBuffer (ino.size - p))).run o = a at *
    generalize hw : (if a.data = [] then (0, none) else write acc.length a.data) = x
    obtain ⟨nw, _ | e⟩ := x
    · have hnw : nw = a.data.length := by
        split_ifs at hw with hnil
        · cases hw
          rw [hnil, List.length_nil]
        · exact sink_all ⟨write, wle, wshort⟩ hw
      subst hnw
      cases he : a.err with
      | none =>
        have hfull : a.data.length = min OpenFile.copyBuffer (ino.size - p) := by
          by_contra hne
          exact hshort (lt_of_le_of_ne hle hne) he
        have hbuf : 0 < OpenFile.copyBuffer := by decide
        have hacc' : (acc ++ a.data.take a.data.length).length = p + a.data.length := by simp [hacc]
        have hfuel' : ino.size ≤ p + a.data.length + fuel := by omega
        exact ih hfuel' (hstep he) hacc'
      | some e =>
        intro herr
        have heq : e = eofError := by
          by_contra hne
          simp [if_neg hne] at herr
        by_cases hend : p + a.data.length < ino.size
        · exact .inr ⟨p, hlt, hC, hcut (heq ▸ he) hend⟩
        · left
          simp only [Prog.run_done, List.take_length, List.length_append, hacc]
          omega
    · rintro ⟨⟩

/-- A writer that takes everything. -/
def takesAll : OpenFile.Sink where
  write _ b := (b.length, none)
  le _ _ := le_rfl
  short _ _ h := absurd h (lt_irrefl _)

/-- `WriteTo` of a file at offset `p` whose inode and section are known, past its first test. -/
def writeFrom (img : Image) (w : OpenFile.Sink) (ino : Inode) (fuel : ℕ) (f : OpenFile)
    (acc : Bytes) : Option Section → ReadProg ReadResult
  | none => OpenFile.writeBlocks img w ino fuel f acc
  | some s => OpenFile.copySection img w s ino.size fuel f acc

theorem writeFrom_step (ho : Lawful o) (hfuel : ino.size ≤ p + fuel)
    (hC : img.Copied o ino d p) (hacc : acc.length = p) :
    img.Written o ino d
      ((img.writeFrom w ino fuel (fileAt name nid ftype ino d p) acc d).run o) := by
  cases d with
  | none => exact writeBlocks_step ho hfuel hC hacc
  | some s => exact copySection_step ho hfuel hC hacc

theorem copySection_takesAll (hp : p < ino.size) :
    (OpenFile.copySection img takesAll s ino.size (fuel + 1)
      (fileAt name nid ftype ino (some s) p) acc).run o =
      let a := img.copyRead o ino s p
      let f := fileAt name nid ftype ino (some s) (p + a.data.length)
      match a.err with
      | none => (OpenFile.copySection img takesAll s ino.size fuel f (acc ++ a.data)).run o
      | some e => ⟨f, acc ++ a.data, if e = eofError then none else some e⟩ := by
  rw [OpenFile.copySection, fileAt_offset, if_neg (not_le.2 hp), Prog.run_bind]
  unfold copyRead
  generalize (img.readSection s p (min OpenFile.copyBuffer (ino.size - p))).run o = a
  have hall : (if a.data = [] then (0, none) else takesAll.write acc.length a.data) =
      (a.data.length, none) := by
    split_ifs with hnil
    · rw [hnil, List.length_nil]
    · rfl
  rw [hall]
  dsimp only
  rw [fileAt_advance, List.take_length]
  cases a.err <;> rfl

/-- Every offset `WriteTo` comes to is one that it comes to with a writer that takes everything. -/
theorem copied_run (ho : Lawful o) (h : img.Copied o ino d p) :
    ∃ fuel acc, ino.size ≤ p + fuel ∧ acc.length = p ∧
      (img.writeFrom takesAll ino ino.size (fileAt name nid ftype ino d 0) [] d).run o =
        (img.writeFrom takesAll ino fuel (fileAt name nid ftype ino d p) acc d).run o := by
  induction h with
  | start => exact ⟨ino.size, [], by omega, rfl, rfl⟩
  | @block p buf h hp hb ih =>
    obtain ⟨fuel, acc, hfuel, hacc, hrun⟩ := ih
    have hpos : 0 < buf.length := loadBlock_length hb ▸ img.blockLen_pos hp
    obtain ⟨fuel, rfl⟩ : ∃ m, fuel = m + 1 := ⟨fuel - 1, by omega⟩
    refine ⟨fuel, acc ++ buf.take buf.length, by omega, by simp [hacc], hrun.trans ?_⟩
    change (OpenFile.writeBlocks ..).run o = (OpenFile.writeBlocks ..).run o
    rw [OpenFile.writeBlocks, fileAt_offset, if_neg (not_le.2 hp), Prog.run_bind, hb]
    rfl
  | @direct s p h hp he ih =>
    obtain ⟨fuel, acc, hfuel, hacc, hrun⟩ := ih
    obtain ⟨fuel, rfl⟩ : ∃ m, fuel = m + 1 := ⟨fuel - 1, by omega⟩
    obtain ⟨hle, hshort⟩ := img.readSection_fills ho s p (min OpenFile.copyBuffer (ino.size - p))
    have hfull : (img.copyRead o ino s p).data.length = min OpenFile.copyBuffer (ino.size - p) := by
      by_contra hne
      exact hshort (lt_of_le_of_ne hle hne) he
    have hbuf : 0 < OpenFile.copyBuffer := by decide
    refine ⟨fuel, acc ++ (img.copyRead o ino s p).data, by omega, by simp [hacc], hrun.trans ?_⟩
    change (OpenFile.copySection ..).run o = (OpenFile.copySection ..).run o
    rw [copySection_takesAll hp]
    simp only [he]

/-- Where the reader cuts `WriteTo` short, it ends. -/
theorem copyCut_write (hp : p < ino.size) (hcut : img.CopyCut o ino d p) (hacc : acc.length = p) :
    ((img.writeFrom takesAll ino (fuel + 1) (fileAt name nid ftype ino d p) acc d).run o).err =
        none ∧
      ((img.writeFrom takesAll ino (fuel + 1)
        (fileAt name nid ftype ino d p) acc d).run o).data.length < ino.size := by
  cases d with
  | none =>
    obtain ⟨e, hb, heof⟩ := (loadBlock_eof_iff hp).2 hcut
    rw [writeFrom, OpenFile.writeBlocks, fileAt_offset, if_neg (not_le.2 hp), Prog.run_bind, hb]
    simp [heof, hacc, hp]
  | some s =>
    obtain ⟨herr, hlt⟩ := hcut
    rw [writeFrom, copySection_takesAll hp]
    simp only [herr, if_true, List.length_append, hacc]
    exact ⟨trivial, hlt⟩

theorem writeTo_opened (w : OpenFile.Sink) (hino : (img.readInfo name nid ftype).run o = .ok ino)
    (hd : (img.openDirect ino).run o = d) (hsize : 0 < ino.size) :
    (OpenFile.writeTo img w ⟨name, nid, ftype, 0, none, none⟩).run o =
      (img.writeFrom w ino ino.size (fileAt name nid ftype ino d 0) [] d).run o := by
  simp only [OpenFile.writeTo, OpenFile.readInfo, OpenFile.writeToWith, OpenFile.directReader,
    Prog.run_bind, Prog.exec_bind, hino, Prog.run_done, hd, if_neg (not_le.2 hsize)]
  cases d <;> rfl

/-- `WriteTo` of an empty file writes nothing. -/
theorem writeTo_empty (w : OpenFile.Sink) (hino : (img.readInfo name nid ftype).run o = .ok ino)
    (hsize : ino.size = 0) :
    ((OpenFile.writeTo img w ⟨name, nid, ftype, 0, none, none⟩).run o).data = [] := by
  simp [OpenFile.writeTo, OpenFile.readInfo, OpenFile.writeToWith, Prog.run_bind, Prog.exec_bind,
    hino, hsize]

/-- The ends of `WriteTo` are true ones exactly when no offset it comes to is cut short. -/
theorem writeEnds_iff (ho : Lawful o) (hino : (img.readInfo name nid ftype).run o = .ok ino)
    (hd : (img.openDirect ino).run o = d) :
    (∀ w, let r := (OpenFile.writeTo img w ⟨name, nid, ftype, 0, none, none⟩).run o
      r.err = none → r.data.length = ino.size) ↔
      ∀ p < ino.size, img.Copied o ino d p → ¬ img.CopyCut o ino d p := by
  constructor
  · intro h p hp hC hcut
    obtain ⟨fuel, acc, hfuel, hacc, hrun⟩ := copied_run ho hC
    obtain ⟨fuel, rfl⟩ : ∃ m, fuel = m + 1 := ⟨fuel - 1, by omega⟩
    obtain ⟨herr, hlt⟩ := copyCut_write hp hcut hacc
    have hend := h takesAll
    rw [writeTo_opened _ hino hd (by omega), hrun] at hend
    exact absurd (hend herr) hlt.ne
  · intro h w r herr
    subst r
    obtain hsize | hsize := Nat.eq_zero_or_pos ino.size
    · rw [writeTo_empty w hino hsize, hsize, List.length_nil]
    · rw [writeTo_opened w hino hd hsize] at herr ⊢
      obtain hlen | ⟨q, hq, hC, hcut⟩ :=
        writeFrom_step ho (Nat.le_add_left _ _) .start List.length_nil herr
      · exact hlen
      · exact absurd hcut (h q hq hC)

end WriteTo

/-! ## `ReadDir` -/

section ReadDir

variable {dir : OpenDir} {ents : List DirEntry} {buf : Bytes} {fuel : ℕ}

/-- With no limit on their number, a block's dirents are listed to the end exactly when each of
them has a name; the directory stays at the block. -/
theorem listEntries_all {entryN k i : ℕ} :
    let l := OpenDir.listEntries none buf entryN k i dir ents
    l.dir.bn = dir.bn ∧ (l.ended = .whole ∨ ∃ e, l.ended = .failed e) ∧
      (l.ended = .whole ↔ ∀ j, i ≤ j → j < i + k → ∃ name, listedName buf entryN j = .ok name) := by
  induction k generalizing i dir ents with
  | zero => exact ⟨rfl, .inl rfl, fun _ j h₁ h₂ => by omega, fun _ => rfl⟩
  | succ k ih =>
    have hsplit : (∀ j, i ≤ j → j < i + (k + 1) → ∃ name, listedName buf entryN j = .ok name) ↔
        (∃ name, listedName buf entryN i = .ok name) ∧
          ∀ j, i + 1 ≤ j → j < i + 1 + k → ∃ name, listedName buf entryN j = .ok name := by
      constructor
      · exact fun h => ⟨h i le_rfl (by omega), fun j h₁ h₂ => h j (by omega) (by omega)⟩
      · rintro ⟨h₀, h⟩ j h₁ h₂
        obtain rfl | hne := Nat.eq_or_lt_of_le h₁
        · exact h₀
        · exact h j hne (by omega)
    rw [OpenDir.listEntries, hsplit]
    cases hn : listedName buf entryN i with
    | error e => exact ⟨rfl, .inr ⟨e, rfl⟩, by simp⟩
    | ok name =>
      simp only [Except.ok.injEq, exists_eq', true_and]
      by_cases hskip : i < dir.consumed ∨ name = dot ∨ name = dotdot
      · rw [if_pos hskip]
        exact ih
      · rw [if_neg hskip, if_neg (by simp)]
        exact ih

theorem listBlock_all :
    let l := OpenDir.listBlock none nid buf dir ents
    l.dir.bn = dir.bn ∧ (l.ended = .whole ∨ ∃ e, l.ended = .failed e) ∧
      (l.ended = .whole ↔ ∃ entryN, checkDirBlock nid buf = .ok entryN ∧
        ∀ i < entryN, ∃ name, listedName buf entryN i = .ok name) := by
  unfold OpenDir.listBlock
  cases hc : checkDirBlock nid buf with
  | error e => exact ⟨rfl, .inr ⟨e, rfl⟩, by simp⟩
  | ok entryN =>
    obtain ⟨hbn, hended, hwhole⟩ :=
      @listEntries_all dir ents buf entryN entryN 0
    refine ⟨hbn, hended, hwhole.trans ?_⟩
    simp

/-- The listing stands at block `b` after listing every one before it. -/
def ListedTo (img : Image) (o : Req → Answer) (ino : Inode) (b : ℕ) : Prop :=
  ∀ j < b, img.Listed o ino j

theorem ListedTo.succ {b : ℕ} (h : img.ListedTo o ino b) (hb : img.Listed o ino b) :
    img.ListedTo o ino (b + 1) := by
  intro j hj
  obtain rfl | hlt := Nat.eq_or_lt_of_le (Nat.le_of_lt_succ hj)
  · exact hb
  · exact h j hlt

/-- The cursor of a listing never goes back. -/
theorem le_listBlocks_bn :
    dir.bn ≤ ((OpenDir.listBlocks img none ino fuel dir ents).run o).1.bn := by
  induction fuel generalizing dir ents with
  | zero => exact le_rfl
  | succ fuel ih =>
    rw [OpenDir.listBlocks]
    split_ifs
    · exact le_rfl
    · rw [Prog.run_bind]
      refine listLoaded_rule (fun d' => dir.bn ≤ d'.bn) ?_ ?_ ?_ _
      · intro d' _ h
        omega
      · intro d' _ h
        omega
      · intro d' ents' _ h
        exact le_trans (by omega) (@ih d' ents')

/-- How the listing of a whole directory can end. -/
theorem listBlocks_end (hsize : ino.size < 2 ^ 63)
    (hfuel : calculateBlocks img.sb.blkSizeBits ino.size ≤ dir.bn + fuel)
    (hL : img.ListedTo o ino dir.bn) :
    let r := (OpenDir.listBlocks img none ino fuel dir ents).run o
    r.2.2 = none → ino.size ≤ r.1.bn * img.blockSize ∨
      ∃ b, b * img.blockSize < ino.size ∧ img.ListedTo o ino b ∧
        img.CutShort o ino none (b * img.blockSize) := by
  induction fuel generalizing dir ents with
  | zero =>
    refine fun _ => .inl (not_lt.1 fun hlt => ?_)
    exact absurd (lt_calculateBlocks_iff.2 hlt) (not_lt.2 hfuel)
  | succ fuel ih =>
    by_cases hend : ino.size ≤ dir.bn * img.blockSize
    -- whatever the position wraps to, the cursor is past the blocks of the directory
    · exact fun _ => .inl (hend.trans (Nat.mul_le_mul_right _ le_listBlocks_bn))
    have hlt := not_le.1 hend
    rw [OpenDir.listBlocks_inside hsize hlt, Prog.run_bind]
    cases hb : (img.loadBlock ino (dir.bn * img.blockSize)).run o with
    | error e =>
      intro r herr
      subst r
      by_cases heof : e.is .eof = true
      · exact .inr ⟨dir.bn, hlt, hL, (loadBlock_eof_iff hlt).1 ⟨e, hb, heof⟩⟩
      · simp [OpenDir.listLoaded, heof] at herr
    | ok buf =>
      obtain ⟨hbn, hended, hwhole⟩ := @listBlock_all ino.nid dir ents buf
      unfold OpenDir.listLoaded
      dsimp only
      obtain hall | ⟨e, hfail⟩ := hended
      · rw [hall]
        obtain ⟨entryN, hcheck, hnames⟩ := hwhole.1 hall
        refine ih (by simp only [hbn]; omega) ?_
        simp only [hbn]
        exact hL.succ ⟨buf, entryN, hb, hcheck, hnames⟩
      · rw [hfail]
        rintro ⟨⟩

/-- The listing stops at the first block whose chunk entry is answered with an end of file. -/
theorem listBlocks_cut {b : ℕ} (hino : ino.size < 2 ^ 63) (dir : OpenDir) (ents : List DirEntry)
    (hfuel : b < dir.bn + fuel) (hle : dir.bn ≤ b) (hsize : b * img.blockSize < ino.size)
    (hL : img.ListedTo o ino b) (hcut : img.CutShort o ino none (b * img.blockSize)) :
    let r := (OpenDir.listBlocks img none ino fuel dir ents).run o
    r.1.bn = b ∧ r.2.2 = none := by
  induction fuel generalizing dir ents with
  | zero => omega
  | succ fuel ih =>
    have hin : dir.bn * img.blockSize < ino.size :=
      lt_of_le_of_lt (Nat.mul_le_mul_right _ hle) hsize
    rw [OpenDir.listBlocks_inside hino hin, Prog.run_bind]
    obtain heq | hlt := Nat.eq_or_lt_of_le hle
    · obtain ⟨e, hb, heof⟩ := (loadBlock_eof_iff hsize).2 hcut
      rw [heq, hb]
      simp [OpenDir.listLoaded, heof, heq, OpenDir.endError]
    · obtain ⟨buf, entryN, hb, hcheck, hnames⟩ := hL dir.bn hlt
      obtain ⟨hbn, -, hwhole⟩ := @listBlock_all ino.nid dir ents buf
      rw [hb]
      unfold OpenDir.listLoaded
      dsimp only
      rw [hwhole.2 ⟨entryN, hcheck, hnames⟩]
      exact ih _ _ (by simp only [hbn]; omega) (by simp only [hbn]; omega)

/-- The ends of a listing with turns enough are true ones exactly when no block it comes to is cut
short. -/
theorem listBlocks_ends_iff (hsize : ino.size < 2 ^ 63) (hstart : dir.bn = 0)
    (hfuel : calculateBlocks img.sb.blkSizeBits ino.size ≤ fuel) :
    (let r := (OpenDir.listBlocks img none ino fuel dir ents).run o;
      r.2.2 = none → ino.size ≤ r.1.bn * img.blockSize) ↔
      ∀ b, b * img.blockSize < ino.size → img.ListedTo o ino b →
        ¬ img.CutShort o ino none (b * img.blockSize) := by
  constructor
  · intro h b hb hL hcut
    have hlt := lt_calculateBlocks_iff.2 hb
    have hturns : b < dir.bn + fuel := by omega
    obtain ⟨hbn, herr⟩ := listBlocks_cut hsize dir ents hturns (by omega) hb hL hcut
    have hend := h herr
    rw [hbn] at hend
    exact absurd hend (not_le.2 hb)
  · intro h r herr
    have hstart' : img.ListedTo o ino dir.bn := fun j hj => absurd hj (by omega)
    obtain hend | ⟨b, hb, hL, hcut⟩ :=
      listBlocks_end hsize (hfuel.trans (Nat.le_add_left _ _)) hstart' herr
    · exact hend
    · exact absurd hcut (h b hb hL)

/-- The ends of `ReadDir(-1)` are true ones exactly when no block it comes to is cut short. -/
theorem listEnds_iff (hino : (img.readInfo name nid ftype).run o = .ok ino) :
    (let r := (OpenDir.readDir img none ⟨⟨name, nid, ftype, 0, none, none⟩, 0, 0⟩).run o;
      r.2.2 = none → ino.size ≤ r.1.bn * img.blockSize) ↔
      ∀ b, b * img.blockSize < ino.size → img.ListedTo o ino b →
        ¬ img.CutShort o ino none (b * img.blockSize) := by
  have hlt : ino.size < 2 ^ 63 := (readInfo_ok hino).2.size_lt
  rw [OpenDir.readDir_opened hino]
  exact listBlocks_ends_iff hlt rfl OpenDir.calculateBlocks_le_turns

end ReadDir

/-- **Clean ends.**  Whatever the readers answer, a sequence of `Read` calls that ends with `io.EOF`
and a `WriteTo` that returns no error have delivered the declared size, and a `ReadDir(-1)` that
returns no error has gone through every block, exactly when at no offset these calls come to the
reader answers `io.EOF` to the read of the chunk entry or through the file's section. -/
theorem cleanEnd_iff (ho : Lawful o) (hino : (img.readInfo name nid ftype).run o = .ok ino) :
    ((∀ ns, let r := (OpenFile.readCalls img ⟨name, nid, ftype, 0, none, none⟩ [] none ns).run o
      r.err = some eofError → r.data.length = ino.size) ↔
        ∀ p < ino.size, img.Reached o ino ((img.openDirect ino).run o) p →
          ¬ img.CutShort o ino ((img.openDirect ino).run o) p) ∧
    ((∀ w, let r := (OpenFile.writeTo img w ⟨name, nid, ftype, 0, none, none⟩).run o
      r.err = none → r.data.length = ino.size) ↔
        ∀ p < ino.size, img.Copied o ino ((img.openDirect ino).run o) p →
          ¬ img.CopyCut o ino ((img.openDirect ino).run o) p) ∧
    ((let r := (OpenDir.readDir img none ⟨⟨name, nid, ftype, 0, none, none⟩, 0, 0⟩).run o;
      r.2.2 = none → ino.size ≤ r.1.bn * img.blockSize) ↔
        ∀ b, b * img.blockSize < ino.size → img.ListedTo o ino b →
          ¬ img.CutShort o ino none (b * img.blockSize)) :=
  ⟨readEnds_iff ho hino rfl, writeEnds_iff ho hino rfl, listEnds_iff hino⟩

/-! ## A file whose chunk map is past the end of the image -/

theorem holding_lawful (contents : ℕ → Bytes) : Lawful (holding contents) := by
  intro q hq
  unfold holding at hq ⊢
  split_ifs at hq ⊢ with hneg
  · simp
  · dsimp only at hq ⊢
    rw [if_pos hq]
    simp

/-- The file as `Open` of its path returns it. -/
def oneFileOpened : OpenFile := ⟨[97], 4, 0, 0, none, none⟩

/-- `Open` accepts the image, its file declares one byte, and the chunk entry that says where the
byte is lies past the image's end: `Read` delivers nothing and `io.EOF`, and `WriteTo` delivers
nothing and no error. -/
theorem oneFile_endsEarly :
    (openImage 0 fun _ => some 2560).run (oneFileReader [0xff, 0xff]) = .ok oneFileFS ∧
      Lawful (oneFileReader [0xff, 0xff]) ∧
      (oneFileFS.open_ oneFilePath).run (oneFileReader [0xff, 0xff]) =
        .ok (.file oneFileOpened) ∧
      ((oneFileFS.readInfo [97] 4 0).run (oneFileReader [0xff, 0xff])).map (·.size) = .ok 1 ∧
      (let r := (OpenFile.readCalls oneFileFS oneFileOpened [] none [1]).run
        (oneFileReader [0xff, 0xff]);
        r.err = some eofError ∧ r.data = []) ∧
      (let r := (OpenFile.writeTo oneFileFS takesAll oneFileOpened).run
        (oneFileReader [0xff, 0xff]);
        r.err = none ∧ r.data = []) :=
  ⟨by decide +kernel, holding_lawful _, by decide +kernel, by decide +kernel, by decide +kernel,
    by decide +kernel⟩

/-- The inode of the file when its chunk map is inside the image. -/
def oneFileChunked : Inode where
  name := [97]
  nid := 4
  icsize := 32
  inodeLayout := .chunkBased
  inodeData := 0
  size := 1
  mode := 0o644
  rawMode := 0o100644

theorem oneFile_notCut (p : ℕ) (hp : p < 1) :
    ¬ oneFileFS.EntryEof (oneFileReader [0, 0]) oneFileChunked p := by
  obtain rfl := Nat.lt_one_iff.1 hp
  rintro ⟨e, he, -⟩
  have hnone : ((oneFileReader [0, 0]) ⟨0, oneFileFS.entryPos oneFileChunked
      (0 / 2 ^ oneFileFS.chunkBits oneFileChunked), chunkUnit oneFileChunked⟩).err = none := by
    decide +kernel
  rw [hnone] at he
  cases he

/-- With the chunk map inside the image, every sequence of `Read` calls that ends with `io.EOF` has
delivered the byte. -/
theorem oneFile_cleanEnd :
    Lawful (oneFileReader [0, 0]) ∧
      (oneFileFS.readInfo [97] 4 0).run (oneFileReader [0, 0]) = .ok oneFileChunked ∧
      ∀ ns, let r := (oneFileOpened.readCalls oneFileFS [] none ns).run (oneFileReader [0, 0])
        r.err = some eofError → r.data.length = 1 := by
  have hdirect : (oneFileFS.openDirect oneFileChunked).run (oneFileReader [0, 0]) = none := by
    decide +kernel
  have hino : (oneFileFS.readInfo [97] 4 0).run (oneFileReader [0, 0]) = .ok oneFileChunked := by
    decide +kernel
  have ho : Lawful (oneFileReader [0, 0]) := holding_lawful _
  refine ⟨ho, hino, (cleanEnd_iff ho hino).1.2 ?_⟩
  intro p hp _
  rw [hdirect]
  exact fun hcut => oneFile_notCut p hp hcut.2

end Image

end Erofs
