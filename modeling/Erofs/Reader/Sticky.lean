import Erofs.Reader.Session

/-!
# What a handle remembers of a refusal

`readInfo` stores the inode in its handle before the last checks have run, and each branch that
fails takes it out again.  A panic is no such branch: the deferred `recover` makes an error of it,
and the inode stays, so that the next call finds it and asks nothing more.  One slice can panic,
that of a fast symlink's target whose end, the sum of two numbers, is no `int64`.

The main results:

* `judgeInfo_cases` — how a judgement ends, with the inode it leaves in the handle;
* `Image.callOn_error` — the error of a call is the one the reader's own `readInfo` leads to;
* `Image.callOn_same` — past `readInfo`, a call changes nothing a verdict depends on;
* `Image.sticky_iff` — the calls on a handle agree, and it caches no inode that was refused, just
  when the inode is no fast symlink whose end wraps.
-/

namespace Erofs

open GoPath LittleEndian Oracle

/-! ## The inode in the handle -/

/-- How `finishInfo` ends. -/
inductive Finish
  | passed
  | failed (e : GoError)
  | panicked (e : GoError)
  deriving DecidableEq

/-- The slice of a fast symlink's target panics. -/
def Inode.slicePanics (ino : Inode) : Bool :=
  ino.mode.has FileMode.symlink && ino.inodeLayout == .flatInline && ino.size != 0 && ino.endWraps

theorem Inode.slicePanics_iff {ino : Inode} : ino.slicePanics = true ↔
    ((ino.mode.has FileMode.symlink = true ∧ ino.inodeLayout = .flatInline) ∧ ino.size ≠ 0) ∧
      2 ^ 63 ≤ ino.flatDataOffset + ino.size := by
  simp only [Inode.slicePanics, Bool.and_eq_true, beq_iff_eq, bne_iff_ne, ne_eq, Inode.endWraps,
    decide_eq_true_eq]

/-- `finishInfo`, with the inode it works on and how it ends. -/
def finishCall (buf : Bytes) (xcnt : ℕ) (ino : Inode) : Inode × Finish :=
  match xattrSize ino.nid xcnt with
  | .error e => (ino, .failed e)
  | .ok xsize =>
    let ino := { ino with xsize }
    match checkChunkFormat ino with
    | .error e => (ino, .failed e)
    | .ok _ =>
      match checkFastSymlink buf ino with
      | .ok _ => (ino, .passed)
      | .error e => (ino, if ino.slicePanics then .panicked e else .failed e)

/-- `readInfo` after its `ReadAt`: the inode in the handle and the verdict. -/
def judgeInfo (sb : SuperBlock) (name : Bytes) (nid : ℕ) (ftype : FileMode) (a : Answer) :
    Option Inode × Except GoError Inode :=
  match a.hardError with
  | some e => (none, .error e)
  | none =>
    if a.data.length < Disk.sizeInodeCompact then
      (none, .error (errorf "inode %d truncated: %w" [.int nid] .corrupt))
    else
      let format := field a.data 0 2
      match checkInodeFormat nid format with
      | .error e => (none, .error e)
      | .ok _ =>
        match decodeInode sb name nid a.data format with
        | .error e => (none, .error e)
        | .ok ino =>
          -- from here on the handle has the inode
          match checkDecoded ftype ino with
          | .error e => (none, .error e)
          | .ok _ =>
            match finishCall a.data (field a.data 2 2) ino with
            | (ino, .passed) => (some ino, .ok ino)
            | (_, .failed e) => (none, .error e)
            | (ino, .panicked e) => (some ino, .error e)

/-- `finishInfo` is its call, a panic turned into an error. -/
theorem finishCall_result (buf : Bytes) (xcnt : ℕ) (ino : Inode) :
    finishInfo buf xcnt ino = match finishCall buf xcnt ino with
      | (ino, .passed) => .ok ino
      | (_, .failed e) => .error e
      | (_, .panicked e) => .error e := by
  unfold finishInfo finishCall
  cases xattrSize ino.nid xcnt with
  | error e => rfl
  | ok xsize =>
    show (checkChunkFormat { ino with xsize } >>= fun _ =>
      checkFastSymlink buf { ino with xsize } >>= fun _ => _) = _
    dsimp only
    cases checkChunkFormat { ino with xsize } with
    | error e => rfl
    | ok u =>
      show (checkFastSymlink buf { ino with xsize } >>= fun _ => _) = _
      dsimp only
      cases checkFastSymlink buf { ino with xsize } with
      | error e =>
        dsimp only
        split_ifs <;> rfl
      | ok u => rfl

/-- How `finishInfo` ends. -/
theorem finishCall_cases (buf : Bytes) (xcnt : ℕ) (ino : Inode) :
    (∃ e ino', finishCall buf xcnt ino = (ino', .failed e)) ∨
      (∃ ino', finishCall buf xcnt ino = (ino', .passed)) ∨
      ∃ xsize e, finishCall buf xcnt ino = ({ ino with xsize }, .panicked e) ∧
        xattrSize ino.nid xcnt = .ok xsize ∧ checkChunkFormat { ino with xsize } = .ok () ∧
        ({ ino with xsize } : Inode).slicePanics = true := by
  unfold finishCall
  cases xattrSize ino.nid xcnt with
  | error e => exact .inl ⟨e, ino, rfl⟩
  | ok xsize =>
    dsimp only
    cases hchunk : checkChunkFormat { ino with xsize } with
    | error e => exact .inl ⟨e, _, rfl⟩
    | ok u =>
      dsimp only
      cases checkFastSymlink buf { ino with xsize } with
      | ok u' => exact .inr (.inl ⟨_, rfl⟩)
      | error e =>
        dsimp only
        split_ifs with hp
        · exact .inr (.inr ⟨xsize, e, rfl, rfl, hchunk, hp⟩)
        · exact .inl ⟨e, _, rfl⟩

section Judge

variable {sb : SuperBlock} {name : Bytes} {nid : ℕ} {ftype : FileMode} {a : Answer} {ino : Inode}
  {e : GoError}

/-- The verdict is the one of `parseInfo`. -/
theorem judgeInfo_result (sb : SuperBlock) (name : Bytes) (nid : ℕ) (ftype : FileMode)
    (a : Answer) : (judgeInfo sb name nid ftype a).2 = parseInfo sb name nid ftype a := by
  unfold judgeInfo parseInfo
  cases a.hardError with
  | some e => rfl
  | none =>
    dsimp only
    split_ifs
    · rfl
    cases checkInodeFormat nid (field a.data 0 2) with
    | error e => rfl
    | ok u =>
      show _ = (decodeInode sb name nid a.data (field a.data 0 2) >>= fun ino =>
        checkDecoded ftype ino >>= fun _ => finishInfo a.data (field a.data 2 2) ino)
      dsimp only
      cases decodeInode sb name nid a.data (field a.data 0 2) with
      | error e => rfl
      | ok ino =>
        show _ = (checkDecoded ftype ino >>= fun _ => finishInfo a.data (field a.data 2 2) ino)
        dsimp only
        cases checkDecoded ftype ino with
        | error e => rfl
        | ok u =>
          show _ = finishInfo a.data (field a.data 2 2) ino
          rw [finishCall_result]
          dsimp only
          generalize finishCall a.data (field a.data 2 2) ino = r
          obtain ⟨ino', _ | e | e⟩ := r <;> rfl

/-- The bytes are those of a fast symlink whose end wraps, and the checks before the panic pass. -/
structure EndWraps (sb : SuperBlock) (name : Bytes) (nid : ℕ) (ftype : FileMode) (a : Answer)
    (ino : Inode) : Prop where
  read : a.hardError = none
  long : Disk.sizeInodeCompact ≤ a.data.length
  format : checkInodeFormat nid (field a.data 0 2) = .ok ()
  decoded : ∃ decoded xsize, decodeInode sb name nid a.data (field a.data 0 2) = .ok decoded ∧
    checkDecoded ftype decoded = .ok () ∧
    xattrSize decoded.nid (field a.data 2 2) = .ok xsize ∧ ino = { decoded with xsize }
  chunks : checkChunkFormat ino = .ok ()
  symlink : ino.mode.has FileMode.symlink = true
  inline : ino.inodeLayout = .flatInline
  nonempty : ino.size ≠ 0
  wraps : 2 ^ 63 ≤ ino.flatDataOffset + ino.size

theorem checkFastSymlink_panics (h : ino.slicePanics = true) (buf : Bytes) :
    checkFastSymlink buf ino =
      .error (formatError (int64 (ino.flatDataOffset + ino.size : ℕ))) := by
  obtain ⟨⟨⟨hlink, hinline⟩, hsize⟩, hwraps⟩ := Inode.slicePanics_iff.1 h
  unfold checkFastSymlink
  rw [if_neg (by simp [hlink, hinline]), if_neg hsize,
    if_pos (by simpa [Inode.endWraps] using hwraps)]

/-- How a judgement ends: a refusal that leaves no inode, an accepted inode in the handle, or a
panic that leaves the refused inode there. -/
theorem judgeInfo_cases (sb : SuperBlock) (name : Bytes) (nid : ℕ) (ftype : FileMode) (a : Answer) :
    (∃ e, judgeInfo sb name nid ftype a = (none, .error e)) ∨
      (∃ ino, judgeInfo sb name nid ftype a = (some ino, .ok ino)) ∨
      ∃ ino e, judgeInfo sb name nid ftype a = (some ino, .error e) ∧
        EndWraps sb name nid ftype a ino := by
  generalize h : judgeInfo sb name nid ftype a = r
  unfold judgeInfo at h
  cases herr : a.hardError with
  | some e =>
    rw [herr] at h
    exact .inl ⟨e, h.symm⟩
  | none =>
    rw [herr] at h
    dsimp only at h
    split_ifs at h with hlong
    · exact .inl ⟨_, h.symm⟩
    cases hformat : checkInodeFormat nid (field a.data 0 2) with
    | error e =>
      rw [hformat] at h
      exact .inl ⟨e, h.symm⟩
    | ok u =>
      rw [hformat] at h
      dsimp only at h
      cases hdec : decodeInode sb name nid a.data (field a.data 0 2) with
      | error e =>
        rw [hdec] at h
        exact .inl ⟨e, h.symm⟩
      | ok decoded =>
        rw [hdec] at h
        dsimp only at h
        cases hcheck : checkDecoded ftype decoded with
        | error e =>
          rw [hcheck] at h
          exact .inl ⟨e, h.symm⟩
        | ok u' =>
          rw [hcheck] at h
          dsimp only at h
          obtain ⟨e, hf⟩ | ⟨ino, hf⟩ | ⟨xsize, e, hf, hx, hchunk, hp⟩ :=
            finishCall_cases a.data (field a.data 2 2) decoded
          · obtain ⟨ino, hf⟩ := hf
            rw [hf] at h
            exact .inl ⟨e, h.symm⟩
          · rw [hf] at h
            exact .inr (.inl ⟨ino, h.symm⟩)
          · rw [hf] at h
            obtain ⟨⟨⟨hlink, hinline⟩, hsize⟩, hwraps⟩ := Inode.slicePanics_iff.1 hp
            exact .inr (.inr ⟨_, e, h.symm, herr, not_lt.1 hlong, hformat,
              ⟨decoded, xsize, hdec, hcheck, hx, rfl⟩, hchunk, hlink, hinline, hsize, hwraps⟩)

/-- The panic: an error, with the inode in the handle. -/
theorem EndWraps.judgeInfo (h : EndWraps sb name nid ftype a ino) :
    judgeInfo sb name nid ftype a =
      (some ino, .error (formatError (int64 (ino.flatDataOffset + ino.size : ℕ)))) := by
  obtain ⟨decoded, xsize, hdec, hcheck, hx, rfl⟩ := h.decoded
  have hp : ({ decoded with xsize } : Inode).slicePanics = true :=
    Inode.slicePanics_iff.2 ⟨⟨⟨h.symlink, h.inline⟩, h.nonempty⟩, h.wraps⟩
  have hchunk := h.chunks
  unfold Erofs.judgeInfo
  rw [h.read]
  dsimp only
  rw [if_neg (not_lt.2 h.long), h.format]
  dsimp only
  rw [hdec]
  dsimp only
  rw [hcheck]
  dsimp only [finishCall]
  rw [hx]
  dsimp only
  rw [hchunk]
  dsimp only
  rw [checkFastSymlink_panics hp]
  dsimp only
  rw [if_pos hp]

end Judge

/-! ## Calls on a handle -/

namespace OpenFile

variable (img : Image)

/-- `readInfo`: the handle after it and the verdict. -/
def readInfoCall (f : OpenFile) : ReadProg (OpenFile × Except GoError Inode) :=
  match f.info with
  | some ino => .done (f, .ok ino)
  | none =>
    match img.checkNid f.nid with
    | .error e => .done (f, .error e)
    | .ok _ => (readerAt 0 (img.inodeStart f.nid) (img.inodeWindow f.nid)).bind fun a =>
        let r := judgeInfo img.sb f.name f.nid f.ftype a
        .done ({ f with info := r.1 }, r.2)

end OpenFile

namespace Image

/-- A call on a handle.  `Info` of a directory entry is `Stat` of a file. -/
inductive HandleCall
  | stat
  | read (n : ℕ)
  | writeTo (w : OpenFile.Sink)
  | readDir (n : Option ℕ)

variable (img : Image)

/-- A call once the inode is known: the handle after it and its error. -/
def callWith (d : OpenDir) (ino : Inode) : HandleCall → ReadProg (OpenDir × Option GoError)
  | .stat => (img.statWith ino).bind fun r => .done (d, match r with
      | .error e => some e
      | .ok _ => none)
  | .read n => (d.file.readWith img ino n).bind fun r => .done ({ d with file := r.file }, r.err)
  | .writeTo w => (d.file.writeToWith img w ino).bind fun r =>
      .done ({ d with file := r.file }, r.err)
  | .readDir n => (OpenDir.listBlocks img n ino (OpenDir.turns img ino) d []).bind fun r =>
      .done (r.1, r.2.2)

/-- The error a call makes of that of `readInfo`. -/
def HandleCall.infoError (e : GoError) : HandleCall → GoError
  | .readDir _ => e.wrap "readInfo failed: %w" []
  | _ => e

/-- A call. -/
def callOn (d : OpenDir) (c : HandleCall) : ReadProg (OpenDir × Option GoError) :=
  (d.file.readInfoCall img).bind fun r => match r.2 with
    | .error e => .done ({ d with file := r.1 }, some (c.infoError e))
    | .ok ino => img.callWith { d with file := r.1 } ino c

/-- The handle after some calls. -/
def afterCalls (o : Req → Answer) (d : OpenDir) (cs : List HandleCall) : OpenDir :=
  cs.foldl (fun d c => ((img.callOn d c).run o).1) d

/-- The handle `Open` and `ReadDir` make of a dirent. -/
def freshHandle (name : Bytes) (nid : ℕ) (ftype : FileMode) : OpenDir :=
  { file := { name, nid, ftype } }

/-- The verdict on the inode of a handle. -/
def verdict (o : Req → Answer) (d : OpenDir) : Except GoError Inode :=
  ((d.file.readInfoCall img).run o).2

/-- The refusals of a handle are sticky: `readInfo` gives one verdict, a handle whose inode is
refused answers every call with that error, and no inode that is refused stays in the handle. -/
structure Sticky (o : Req → Answer) (d : OpenDir) : Prop where
  verdict : ∀ cs, img.verdict o (img.afterCalls o d cs) = img.verdict o d
  fails : ∀ e, img.verdict o d = .error e → ∀ cs c,
    ((img.callOn (img.afterCalls o d cs) c).run o).2 = some (c.infoError e)
  cached : ∀ cs ino, (img.afterCalls o d cs).file.info = some ino → img.verdict o d = .ok ino

end Image

/-! ## What a call leaves as it is -/

/-- The handles are of one dirent, and have one inode. -/
structure OpenFile.Same (f f' : OpenFile) : Prop where
  name : f'.name = f.name
  nid : f'.nid = f.nid
  ftype : f'.ftype = f.ftype
  info : f'.info = f.info

namespace OpenFile.Same

variable {f f' f'' : OpenFile} {img : Image} {o : Req → Answer} {ino : Inode} {s : Section}

theorem refl (f : OpenFile) : Same f f := ⟨rfl, rfl, rfl, rfl⟩

theorem trans (h : Same f f') (h' : Same f' f'') : Same f f'' :=
  ⟨h'.name.trans h.name, h'.nid.trans h.nid, h'.ftype.trans h.ftype, h'.info.trans h.info⟩

theorem advance (f : OpenFile) (n : ℕ) : Same f (f.advance n) := ⟨rfl, rfl, rfl, rfl⟩

theorem directReader (f : OpenFile) : Same f ((f.directReader img ino).run o).1 := by
  unfold OpenFile.directReader
  cases f.direct with
  | some s => exact refl f
  | none =>
    rw [Prog.run_bind]
    exact ⟨rfl, rfl, rfl, rfl⟩

theorem readDirect (f : OpenFile) (n : ℕ) : Same f ((f.readDirect img ino s n).run o).file := by
  unfold OpenFile.readDirect
  split_ifs
  · exact refl f
  · dsimp only
    rw [Prog.run_bind]
    exact advance f _

theorem readBlocks (fuel n : ℕ) (f : OpenFile) (acc : Bytes) :
    Same f ((readBlocks img ino fuel f n acc).run o).file := by
  induction fuel generalizing f n acc with
  | zero => exact refl f
  | succ fuel ih =>
    rw [OpenFile.readBlocks]
    split_ifs
    · exact refl f
    · exact refl f
    · rw [Prog.run_bind]
      cases (img.loadBlock ino f.offset).run o with
      | error e => exact refl f
      | ok buf => exact (advance f _).trans (ih _ _ _)

theorem readWith (f : OpenFile) (n : ℕ) : Same f ((f.readWith img ino n).run o).file := by
  have hdirect : Same f ((f.directReader img ino).run o).1 := directReader f
  unfold OpenFile.readWith
  rw [Prog.run_bind]
  generalize (f.directReader img ino).run o = r at hdirect
  obtain ⟨f', _ | s⟩ := r
  · exact hdirect.trans (readBlocks _ _ _ _)
  · exact hdirect.trans (readDirect _ _)

theorem copySection (w : Sink) (size fuel : ℕ) (f : OpenFile) (acc : Bytes) :
    Same f ((copySection img w s size fuel f acc).run o).file := by
  induction fuel generalizing f acc with
  | zero => exact refl f
  | succ fuel ih =>
    rw [OpenFile.copySection]
    split_ifs
    · exact refl f
    · rw [Prog.run_bind]
      dsimp only
      generalize (img.readSection s f.offset _).run o = a
      generalize (if a.data = [] then (0, none) else w.write acc.length a.data) = r
      obtain ⟨nw, _ | e⟩ := r
      · dsimp only
        cases a.err with
        | none => exact (advance f nw).trans (ih _ _)
        | some e => exact advance f nw
      · exact advance f nw

theorem writeBlocks (w : Sink) (fuel : ℕ) (f : OpenFile) (acc : Bytes) :
    Same f ((writeBlocks img w ino fuel f acc).run o).file := by
  induction fuel generalizing f acc with
  | zero => exact refl f
  | succ fuel ih =>
    rw [OpenFile.writeBlocks]
    split_ifs
    · exact refl f
    · rw [Prog.run_bind]
      cases (img.loadBlock ino f.offset).run o with
      | error e => exact refl f
      | ok buf =>
        dsimp only
        cases (w.write acc.length buf).2 with
        | none => exact (advance f _).trans (ih _ _)
        | some e => exact advance f _

theorem writeToWith (w : Sink) (f : OpenFile) :
    Same f ((f.writeToWith img w ino).run o).file := by
  unfold OpenFile.writeToWith
  split_ifs
  · exact refl f
  · have hdirect : Same f ((f.directReader img ino).run o).1 := directReader f
    rw [Prog.run_bind]
    generalize (f.directReader img ino).run o = r at hdirect
    obtain ⟨f', _ | s⟩ := r
    · exact hdirect.trans (writeBlocks _ _ _ _)
    · exact hdirect.trans (copySection _ _ _ _ _)

end OpenFile.Same

namespace Image

variable {img : Image} {o : Req → Answer} {d : OpenDir}

theorem callWith_same (d : OpenDir) (ino : Inode) (c : HandleCall) :
    d.file.Same ((img.callWith d ino c).run o).1.file := by
  cases c with
  | stat =>
    rw [callWith, Prog.run_bind]
    exact .refl _
  | read n =>
    rw [callWith, Prog.run_bind]
    exact .readWith _ _
  | writeTo w =>
    rw [callWith, Prog.run_bind]
    exact .writeToWith _ _
  | readDir n =>
    rw [callWith, Prog.run_bind, Prog.run_done]
    dsimp only
    rw [listBlocks_file]
    exact .refl _

/-- A call leaves the handle as `readInfo` leaves it, as far as verdicts go. -/
theorem callOn_same (d : OpenDir) (c : HandleCall) :
    ((d.file.readInfoCall img).run o).1.Same ((img.callOn d c).run o).1.file := by
  rw [callOn, Prog.run_bind]
  generalize (d.file.readInfoCall img).run o = r
  obtain ⟨f, e | ino⟩ := r
  · exact .refl f
  · exact callWith_same { d with file := f } ino c

/-! ## The calls on a handle agree -/

/-- What `readInfo` reads of an inode. -/
def inodeAnswer (img : Image) (o : Req → Answer) (nid : ℕ) : Answer :=
  (readerAt 0 (img.inodeStart nid) (img.inodeWindow nid)).run o

/-- The handle is of the dirent of `d`, and any inode in it is the one accepted for `d`. -/
structure Agrees (img : Image) (o : Req → Answer) (d : OpenDir) (f : OpenFile) : Prop where
  name : f.name = d.file.name
  nid : f.nid = d.file.nid
  ftype : f.ftype = d.file.ftype
  info : ∀ ino, f.info = some ino → img.verdict o d = .ok ino

theorem Agrees.same {f f' : OpenFile} (h : img.Agrees o d f) (hsame : f.Same f') :
    img.Agrees o d f' :=
  ⟨hsame.name.trans h.name, hsame.nid.trans h.nid, hsame.ftype.trans h.ftype,
    fun ino hino => h.info ino (hsame.info ▸ hino)⟩

end Image

namespace OpenFile

variable {img : Image} {o : Req → Answer}

theorem readInfoCall_none {f : OpenFile} (h : f.info = none) (hnid : img.checkNid f.nid = .ok ()) :
    (f.readInfoCall img).run o =
      ({ f with info := (judgeInfo img.sb f.name f.nid f.ftype (img.inodeAnswer o f.nid)).1 },
        (judgeInfo img.sb f.name f.nid f.ftype (img.inodeAnswer o f.nid)).2) := by
  unfold readInfoCall
  rw [h, hnid]
  dsimp only
  rw [Prog.run_bind]
  rfl

theorem readInfoCall_refused {f : OpenFile} {e : GoError} (h : f.info = none)
    (hnid : img.checkNid f.nid = .error e) : (f.readInfoCall img).run o = (f, .error e) := by
  unfold readInfoCall
  rw [h, hnid]
  rfl

theorem readInfoCall_cached {f : OpenFile} {ino : Inode} (h : f.info = some ino) :
    (f.readInfoCall img).run o = (f, .ok ino) := by
  unfold readInfoCall
  rw [h]
  rfl

/-- The verdict is the one of `readInfo`, and so is the handle that keeps an accepted inode. -/
theorem readInfoCall_result (f : OpenFile) :
    (f.readInfo img).run o = match (f.readInfoCall img).run o with
      | (f', .ok ino) => .ok (f', ino)
      | (_, .error e) => .error e := by
  unfold OpenFile.readInfo
  cases hinfo : f.info with
  | some ino =>
    rw [readInfoCall_cached hinfo]
    rfl
  | none =>
    dsimp only
    rw [Prog.tryBind, Prog.run_bind]
    unfold Image.readInfo
    cases hnid : img.checkNid f.nid with
    | error e =>
      rw [readInfoCall_refused hinfo hnid]
      rfl
    | ok u =>
      rw [readInfoCall_none hinfo hnid]
      dsimp only
      rw [Prog.run_bind, Prog.run_done, ← judgeInfo_result]
      rw [← Image.inodeAnswer]
      obtain ⟨e, hj⟩ | ⟨ino, hj⟩ | ⟨ino, e, hj, -⟩ :=
        judgeInfo_cases img.sb f.name f.nid f.ftype (img.inodeAnswer o f.nid)
      all_goals
        rw [hj]
        rfl

end OpenFile

namespace Image

variable {img : Image} {o : Req → Answer} {d : OpenDir}

/-- The inode of a dirent is a fast symlink whose end wraps. -/
def LinkWraps (img : Image) (o : Req → Answer) (name : Bytes) (nid : ℕ) (ftype : FileMode) : Prop :=
  img.checkNid nid = .ok () ∧ ∃ ino, EndWraps img.sb name nid ftype (img.inodeAnswer o nid) ino

section Agreement

variable {name : Bytes} {nid : ℕ} {ftype : FileMode}

theorem Agrees.start :
    img.Agrees o (freshHandle name nid ftype) (freshHandle name nid ftype).file :=
  ⟨rfl, rfl, rfl, fun _ h => nomatch h⟩

/-- The step: `readInfo` of a handle that agrees gives the verdict, and a handle that agrees. -/
theorem Agrees.readInfoCall (hw : ¬ img.LinkWraps o name nid ftype) {f : OpenFile}
    (h : img.Agrees o (freshHandle name nid ftype) f) :
    ((f.readInfoCall img).run o).2 = img.verdict o (freshHandle name nid ftype) ∧
      img.Agrees o (freshHandle name nid ftype) ((f.readInfoCall img).run o).1 := by
  cases hinfo : f.info with
  | some ino =>
    rw [OpenFile.readInfoCall_cached hinfo]
    exact ⟨(h.info ino hinfo).symm, h⟩
  | none =>
    have hname : f.name = name := h.name
    have hnid : f.nid = nid := h.nid
    have hftype : f.ftype = ftype := h.ftype
    cases hcheck : img.checkNid nid with
    | error e =>
      rw [OpenFile.readInfoCall_refused hinfo (hnid ▸ hcheck)]
      refine ⟨?_, h⟩
      rw [verdict, OpenFile.readInfoCall_refused rfl hcheck]
    | ok u =>
      have hverdict : img.verdict o (freshHandle name nid ftype) =
          (judgeInfo img.sb name nid ftype (img.inodeAnswer o nid)).2 := by
        rw [verdict, OpenFile.readInfoCall_none rfl hcheck]
        rfl
      rw [OpenFile.readInfoCall_none hinfo (hnid ▸ hcheck), hname, hnid, hftype]
      refine ⟨hverdict.symm, rfl, rfl, rfl, fun ino hino => ?_⟩
      rw [hverdict]
      change (judgeInfo img.sb name nid ftype (img.inodeAnswer o nid)).1 = some ino at hino
      -- an inode that stays is the accepted one, since no slice panics
      obtain ⟨e, hj⟩ | ⟨ino', hj⟩ | ⟨ino', e, -, hends⟩ :=
        judgeInfo_cases img.sb name nid ftype (img.inodeAnswer o nid)
      · simp [hj] at hino
      · rw [hj] at hino ⊢
        rw [Option.some.inj hino]
      · exact absurd ⟨hcheck, ino', hends⟩ hw

/-- The run: after any calls the handle agrees. -/
theorem Agrees.afterCalls (hw : ¬ img.LinkWraps o name nid ftype) (cs : List HandleCall) :
    img.Agrees o (freshHandle name nid ftype)
      (img.afterCalls o (freshHandle name nid ftype) cs).file := by
  suffices h : ∀ d', img.Agrees o (freshHandle name nid ftype) d'.file →
      img.Agrees o (freshHandle name nid ftype) (img.afterCalls o d' cs).file from h _ .start
  induction cs with
  | nil => exact fun d' h => h
  | cons c cs ih =>
    intro d' h
    exact ih _ ((Agrees.readInfoCall hw h).2.same (callOn_same d' c))

/-- A call on a handle whose inode is refused. -/
theorem callOn_refused {d : OpenDir} {e : GoError} (h : img.verdict o d = .error e)
    (c : HandleCall) : ((img.callOn d c).run o).2 = some (c.infoError e) := by
  rw [verdict] at h
  rw [callOn, Prog.run_bind]
  generalize (d.file.readInfoCall img).run o = r at h
  obtain ⟨f, v⟩ := r
  obtain rfl : v = .error e := h
  rfl

/-- The error of a call is the one that the reader's `readInfo`, which forgets what a panic leaves
behind, leads to on the same handle. -/
theorem callOn_error (d : OpenDir) (c : HandleCall) :
    ((img.callOn d c).run o).2 = match (d.file.readInfo img).run o with
      | .ok (f, ino) => ((img.callWith { d with file := f } ino c).run o).2
      | .error e => some (c.infoError e) := by
  rw [callOn, Prog.run_bind, OpenFile.readInfoCall_result]
  generalize (d.file.readInfoCall img).run o = r
  obtain ⟨f, e | ino⟩ := r
  · rfl
  · rfl

/-- **A refusal is remembered, unless a slice panicked.**  For every image and reader and every
handle as `Open` and `ReadDir` make it, the calls on it agree on its inode just when that is no fast
symlink whose end is beyond `int64`. -/
theorem sticky_iff (img : Image) (o : Req → Answer) (name : Bytes) (nid : ℕ) (ftype : FileMode) :
    img.Sticky o (freshHandle name nid ftype) ↔ ¬ img.LinkWraps o name nid ftype := by
  constructor
  · rintro hs ⟨hcheck, ino, hw⟩
    have hrun : ((freshHandle name nid ftype).file.readInfoCall img).run o =
        ({ (freshHandle name nid ftype).file with info := some ino },
          .error (formatError (int64 (ino.flatDataOffset + ino.size : ℕ)))) := by
      rw [OpenFile.readInfoCall_none rfl hcheck]
      dsimp only [freshHandle]
      rw [hw.judgeInfo]
    have hkept : (img.afterCalls o (freshHandle name nid ftype) [.stat]).file.info = some ino :=
      (callOn_same _ _).info.trans (by rw [hrun])
    have hok := hs.cached [.stat] ino hkept
    rw [verdict, hrun] at hok
    simp at hok
  · intro hw
    have hverdict : ∀ cs, img.verdict o (img.afterCalls o (freshHandle name nid ftype) cs) =
        img.verdict o (freshHandle name nid ftype) := fun cs =>
      (Agrees.readInfoCall hw (.afterCalls hw cs)).1
    exact ⟨hverdict, fun e he cs c => callOn_refused ((hverdict cs).trans he) c,
      fun cs => (Agrees.afterCalls hw cs).info⟩

end Agreement

/-! ## A link whose end wraps -/

/-- The image of `oneFileImage` with a symlink `a` in place of its file: an extended inode,
flat-inline, of 2⁶³ − 1 bytes. -/
def wrapLinkImage : Bytes :=
  zeros 1024
    ++ [0xe2, 0xe1, 0xf5, 0xe0] ++ zeros 8 ++ [9] ++ zeros 23 ++ [5, 0, 0, 0, 3] ++ zeros 471
    ++ [4, 0, 0, 0, 0xed, 0x41, 2, 0, 40] ++ zeros 23
    ++ zeros 8 ++ [36, 0, 2, 0] ++ zeros 8 ++ [37, 0, 2, 0] ++ [4] ++ zeros 7 ++ [39, 0, 7, 0]
    ++ [46, 46, 46, 97] ++ zeros 56
    ++ [5, 0, 0, 0, 0xff, 0xa1, 0, 0, 0xff, 0xff, 0xff, 0xff, 0xff, 0xff, 0xff, 0x7f] ++ zeros 880

/-- The reader of the image. -/
def wrapLinkReader : Req → Answer := holding fun _ => wrapLinkImage

/-- The entry of the link. -/
def wrapLinkEntry : OpenDir := freshHandle oneFilePath 4 FileMode.symlink

/-- `Open` accepts the image and `ReadDir` lists the link; the first `Info` of its entry is an error
and the second succeeds, with an inode of 2⁶³ − 1 bytes. -/
theorem wrapLink_forgotten :
    (openImage 0 fun _ => some 2560).run wrapLinkReader = .ok oneFileFS ∧
      (oneFileFS.readDirAt dot).run wrapLinkReader =
        .ok [⟨oneFilePath, 4, FileMode.symlink⟩] ∧
      ((oneFileFS.callOn wrapLinkEntry .stat).run wrapLinkReader).2 =
        some (formatError (int64 (64 + (2 ^ 63 - 1) : ℕ))) ∧
      ((oneFileFS.callOn (oneFileFS.afterCalls wrapLinkReader wrapLinkEntry [.stat]) .stat).run
        wrapLinkReader).2 = none ∧
      ¬ oneFileFS.Sticky wrapLinkReader wrapLinkEntry := by
  have hsecond : ((oneFileFS.callOn (oneFileFS.afterCalls wrapLinkReader wrapLinkEntry [.stat])
      .stat).run wrapLinkReader).2 = none := by
    decide +kernel
  have hrefused : oneFileFS.verdict wrapLinkReader wrapLinkEntry =
      .error (formatError (int64 (64 + (2 ^ 63 - 1) : ℕ))) := by
    decide +kernel
  refine ⟨by decide +kernel, by decide +kernel, callOn_refused hrefused .stat, hsecond, ?_⟩
  intro hs
  have hfails := hs.fails _ hrefused [.stat] .stat
  rw [hsecond] at hfails
  simp at hfails

end Image

end Erofs
