import Erofs.Reader.Open
import Erofs.Reader.Stored

/-!
# Sessions

A session is any sequence of calls on an opened image: the methods of the file system, `Read`,
`WriteTo`, `Stat` and `ReadDir` of the files and directories `Open` has returned, and `DataRange`
of the `FileInfo`s.  Every offset a session passes to the image's reader is inside the image,
exactly when every chunk entry is that the blocks it comes to load call for: the one read that is
not bounded where its offset is computed is the chunk entry's (`loadBlockAt_asks_iff`).

The main results: `session_inside_iff`, and `exec_sound`, the invariant it rests on, that what the
open files remember is what the image holds and that no directory is past its last block.
-/

namespace Erofs

open GoPath LittleEndian Oracle

namespace Image

/-! ## Calls -/

/-- The handles and the `FileInfo`s a caller holds; of a `FileInfo` the inode its `DataRange`
goes by. -/
structure Session where
  handles : List Handle := []
  infos : List Inode := []

/-- One call.  A handle or a `FileInfo` is named by its place in the session. -/
inductive Call
  | openAt (name : Bytes)
  | statAt (name : Bytes)
  | lstatAt (name : Bytes)
  | readLinkAt (name : Bytes)
  | readFileAt (name : Bytes)
  | listAt (name : Bytes)
  | read (h n : ℕ)
  | writeTo (h : ℕ) (w : OpenFile.Sink)
  | statHandle (h : ℕ)
  | list (h : ℕ) (n : Option ℕ)
  | dataRange (k : ℕ)

/-- The file of a handle. -/
def Handle.openFile : Handle → OpenFile
  | .file f => f
  | .dir d => d.file

namespace Session

/-- The session with a handle replaced. -/
def setHandle (s : Session) (h : ℕ) (x : Handle) : Session :=
  { s with handles := s.handles.set h x }

/-- The session with what a successful `Open` returned. -/
def addHandle (s : Session) : Except GoError Handle → Session
  | .error _ => s
  | .ok x => { s with handles := s.handles ++ [x] }

/-- The session with what a successful `Stat` returned. -/
def addInfo (s : Session) : Except GoError (Inode × FileInfo) → Session
  | .error _ => s
  | .ok r => { s with infos := s.infos ++ [r.1] }

end Session

variable (img : Image)

/-- One call of a session; a handle of the wrong kind has no such method. -/
def exec (s : Session) : Call → ReadProg Session
  | .openAt name => (img.open_ name).bind fun r => .done (s.addHandle r)
  | .statAt name => (img.stat name).bind fun r => .done (s.addInfo r)
  | .lstatAt name => (img.lstat name).bind fun r => .done (s.addInfo r)
  | .readLinkAt name => (img.readLink name).bind fun _ => .done s
  | .readFileAt name => (img.readFile name).bind fun _ => .done s
  | .listAt name => (img.readDirAt name).bind fun _ => .done s
  | .read h n => match s.handles[h]? with
    | some (.file f) => (f.read img n).bind fun r => .done (s.setHandle h (.file r.file))
    | _ => .done s
  | .writeTo h w => match s.handles[h]? with
    | some (.file f) => (f.writeTo img w).bind fun r => .done (s.setHandle h (.file r.file))
    | _ => .done s
  | .statHandle h => match s.handles[h]? with
    | some x => (img.statInfo x.openFile.name x.openFile.nid x.openFile.ftype).bind fun r =>
        .done (s.addInfo r)
    | none => .done s
  | .list h n => match s.handles[h]? with
    | some (.dir d) => (d.readDir img n).bind fun r => .done (s.setHandle h (.dir r.1))
    | _ => .done s
  | .dataRange k => match s.infos[k]? with
    | some ino => (img.loadRanges ino).bind fun _ => .done s
    | none => .done s

/-- The calls of a session, one after the other. -/
def runCalls : Session → List Call → ReadProg Session
  | s, [] => .done s
  | s, c :: cs => (img.exec s c).bind fun s => runCalls s cs

/-! ## What open files remember -/

variable (o : Req → Answer)

/-- An inode that `readInfo` returned. -/
def Held (ino : Inode) : Prop := ∃ name nid ftype, (img.readInfo name nid ftype).run o = .ok ino

/-- A section of the image is inside it. -/
def SectionInside (s : Section) : Prop := s.dev = 0 → 0 ≤ s.base ∧ s.base + s.len ≤ img.size

/-- What a file remembers is what the image holds. -/
structure FileSound (f : OpenFile) : Prop where
  info : ∀ ino, f.info = some ino → img.Held o ino
  direct : ∀ s, f.direct = some (some s) → img.SectionInside s

/-- The block a directory is at is one of its blocks or the end, where positions do not wrap. -/
def CursorInside (d : OpenDir) : Prop :=
  ∀ r, (d.file.readInfo img).run o = .ok r → r.2.size + img.blockSize ≤ 2 ^ 63 →
    d.bn ≤ calculateBlocks img.sb.blkSizeBits r.2.size

/-- The same of a handle. -/
def HandleSound : Handle → Prop
  | .file f => img.FileSound o f
  | .dir d => img.FileSound o d.file ∧ img.CursorInside o d

/-- The same of all a session holds. -/
structure SessionSound (s : Session) : Prop where
  handles : ∀ h ∈ s.handles, img.HandleSound o h
  infos : ∀ ino ∈ s.infos, img.Held o ino

/-- Every chunk entry that the blocks `x` comes to load call for is inside the image. -/
def LoadsInside {α : Type} (x : ReadProg α) : Prop :=
  ∀ ino pos, img.Held o ino → x.Comes o (img.loadBlockAt ino pos) → img.ReadsEntryAt ino pos →
    img.EntryInsideAt ino pos

/-- `x` asks inside the image if its chunk entries are there. -/
structure StaysIn {α : Type} (x : ReadProg α) : Prop where
  asks : img.LoadsInside o x → x.Asks o img.InImage

variable {img o} {ino : Inode} {f : OpenFile} {s : Section} {pos : ℕ}

theorem checkImageRange_section (hs : 0 < img.size) {base : Int} {n : ℕ}
    (h : img.checkImageRange base n = .ok ()) : img.SectionInside ⟨0, base, n⟩ := by
  obtain ⟨h0, -, hend⟩ := checkImageRange_ok h
  exact fun _ => ⟨h0, hend hs⟩

theorem openPlain_inside (hs : 0 < img.size) (h : img.openPlain ino = some s) :
    img.SectionInside s := by
  unfold openPlain locateStart at h
  split_ifs at h
  cases hb : img.blockAddr ino.nid ino.startBlock with
  | error e => simp [hb] at h
  | ok pa =>
    rw [hb] at h
    dsimp only at h
    cases hl : img.locateRange pa ino.size with
    | error e => simp [hl] at h
    | ok p =>
      rw [hl] at h
      cases h
      rintro (hdev : p.1 = 0)
      obtain ⟨h0, -, ⟨-, -, hend⟩ | ⟨hlt, -⟩⟩ := locateRange_ok hl
      · exact ⟨h0, hend hs⟩
      · omega

theorem openInline_inside (hs : 0 < img.size) (h : img.openInline ino = some s) :
    img.SectionInside s := by
  unfold openInline at h
  dsimp only at h
  split_ifs at h
  cases hc : img.checkImageRange (img.trailingAddr ino) ino.size with
  | error e => simp [hc] at h
  | ok u =>
    rw [hc] at h
    cases h
    exact checkImageRange_section hs hc

theorem runSection_inside (hs : 0 < img.size) {c : ChunkEntry}
    (h : img.runSection ino c = some s) : img.SectionInside s := by
  unfold runSection at h
  cases ha : img.chunkAddr c.block with
  | error e => simp [ha] at h
  | ok addr =>
    rw [ha] at h
    dsimp only at h
    cases hl : img.locate c.device addr with
    | error e => simp [hl] at h
    | ok p =>
      obtain ⟨dev, mapped⟩ := p
      rw [hl] at h
      dsimp only at h
      cases hb : img.boundOnDevice dev mapped ino.size with
      | error e => simp [hb] at h
      | ok u =>
        rw [hb] at h
        cases h
        rintro rfl
        exact checkImageRange_section hs hb rfl

theorem openChunks_inside (hs : 0 < img.size) (h : (img.openChunks ino).run o = some s) :
    img.SectionInside s := by
  unfold openChunks at h
  dsimp only at h
  split_ifs at h
  · cases h
  · rw [Prog.run_bind, Prog.run_done] at h
    split at h
    · cases h
    · obtain ⟨c, -, hc⟩ := Option.bind_eq_some_iff.1 h
      exact runSection_inside hs hc

/-- The section `openDirect` offers is inside the image when it is one of the image. -/
theorem openDirect_inside (hs : 0 < img.size) (h : (img.openDirect ino).run o = some s) :
    img.SectionInside s := by
  unfold openDirect at h
  split_ifs at h
  · cases h
  · cases hl : ino.inodeLayout with
    | flatPlain => rw [hl] at h; exact openPlain_inside hs h
    | flatInline => rw [hl] at h; exact openInline_inside hs h
    | chunkBased => rw [hl] at h; exact openChunks_inside hs h
    | compressedFull => rw [hl] at h; cases h
    | compressedCompact => rw [hl] at h; cases h
    | unknown n => rw [hl] at h; cases h

/-! ## Files -/

theorem FileSound.advance (hf : img.FileSound o f) (n : ℕ) : img.FileSound o (f.advance n) :=
  ⟨hf.info, hf.direct⟩

/-- A file that has not been read yet remembers nothing. -/
theorem FileSound.fresh {name : Bytes} {nid offset : ℕ} {ftype : FileMode} :
    img.FileSound o { name, nid, ftype, offset } := by
  constructor <;> simp

theorem chunkIndexFits_ok {off : Int} {needed : ℕ} (hs : 0 < img.size)
    (h : img.chunkIndexFits off needed = true) : 0 ≤ off ∧ off + needed ≤ img.size := by
  simp only [chunkIndexFits, Bool.and_eq_true, Bool.or_eq_true, decide_eq_true_eq] at h
  omega

section Asks

variable (hs : 0 < img.size)

include hs

theorem openChunks_asks : (img.openChunks ino).Asks o img.InImage := by
  unfold openChunks
  dsimp only
  split_ifs with h
  · exact Prog.asks_done
  · simp only [Bool.or_eq_true, Bool.not_eq_true', not_or, Bool.not_eq_false] at h
    obtain ⟨h0, hend⟩ := chunkIndexFits_ok hs h.2
    exact Prog.asks_bind (readerAt_asks (inImage_of h0 (by omega))) Prog.asks_done

theorem openDirect_asks : (img.openDirect ino).Asks o img.InImage := by
  unfold openDirect
  split_ifs
  · exact Prog.asks_done
  · cases ino.inodeLayout with
    | chunkBased => exact openChunks_asks hs
    | _ => exact Prog.asks_done

theorem buildChunkDataRanges_asks : (img.buildChunkDataRanges ino).Asks o img.InImage := by
  unfold buildChunkDataRanges
  dsimp only
  split_ifs with h₁ h₂
  · exact Prog.asks_done
  · exact Prog.asks_done
  · obtain ⟨h0, hend⟩ := chunkIndexFits_ok hs (by simpa using h₂)
    exact Prog.asks_bind (readerAt_asks (inImage_of h0 (by omega))) Prog.asks_done

/-- `readInfo` of a file asks inside the image. -/
theorem fileInfo_asks : (f.readInfo img).Asks o img.InImage := by
  unfold OpenFile.readInfo
  cases f.info with
  | some ino => exact Prog.asks_done
  | none => exact Prog.asks_tryBind (readInfo_asks hs) fun _ _ => Prog.asks_done

theorem directReader_asks : (f.directReader img ino).Asks o img.InImage := by
  unfold OpenFile.directReader
  cases f.direct with
  | some s => exact Prog.asks_done
  | none => exact Prog.asks_bind (openDirect_asks hs) Prog.asks_done

end Asks

/-- The inode a file gives is one the image holds, and the file remembers it. -/
theorem FileSound.readInfo (hf : img.FileSound o f) {r : OpenFile × Inode}
    (h : (f.readInfo img).run o = .ok r) : img.FileSound o r.1 ∧ img.Held o r.2 := by
  unfold OpenFile.readInfo at h
  cases hi : f.info with
  | some ino =>
    rw [hi] at h
    cases h
    exact ⟨hf, hf.info _ hi⟩
  | none =>
    rw [hi] at h
    obtain ⟨ino, hr, h⟩ := Prog.exec_bind_ok h
    cases h
    have hheld : img.Held o ino := ⟨_, _, _, hr⟩
    refine ⟨⟨?_, hf.direct⟩, hheld⟩
    rintro ino' (⟨⟩ : some ino = some ino')
    exact hheld

/-- A file that has read its inode gives the same one again. -/
theorem readInfo_again {f' : OpenFile} (h : (f.readInfo img).run o = .ok (f', ino))
    {r : OpenFile × Inode} (h' : (f'.readInfo img).run o = .ok r) : r.2 = ino := by
  unfold OpenFile.readInfo at h
  cases hi : f.info with
  | some ino' =>
    rw [hi] at h
    cases h
    rw [OpenFile.readInfo, hi] at h'
    cases h'
    rfl
  | none =>
    rw [hi] at h
    obtain ⟨ino', -, h⟩ := Prog.exec_bind_ok h
    cases h
    cases h'
    rfl

/-- The section a file reads through is inside the image, and the file remembers it. -/
theorem FileSound.directReader (hs : 0 < img.size) (hf : img.FileSound o f) (ino : Inode) :
    img.FileSound o ((f.directReader img ino).run o).1 ∧
      ∀ s, ((f.directReader img ino).run o).2 = some s → img.SectionInside s := by
  unfold OpenFile.directReader
  cases hd : f.direct with
  | some s => exact ⟨hf, fun t ht => hf.direct t (hd.trans (congrArg some ht))⟩
  | none =>
    rw [Prog.run_bind, Prog.run_done]
    have hin : ∀ t, (img.openDirect ino).run o = some t → img.SectionInside t :=
      fun t ht => openDirect_inside hs ht
    refine ⟨⟨hf.info, fun t ht => hin t ?_⟩, hin⟩
    exact Option.some.inj ht

section Calls

variable (hs : 0 < img.size) (hw : img.WindowsFit)

include hw in
theorem readSection_asks (h : img.SectionInside s) (off : Int) (n : ℕ) :
    (img.readSection s off n).Asks o img.InImage := by
  refine sectionReadAt_asks fun h0 hlim j => deviceReader_asks hw fun hdev => ?_
  obtain ⟨hb, hend⟩ := h hdev
  have hle : off + s.base < s.base + s.len := by
    unfold sectionLimit at hlim
    split_ifs at hlim <;> omega
  omega

section StaysIn

variable {α β : Type}

theorem StaysIn.of_asks {x : ReadProg α} (h : x.Asks o img.InImage) : img.StaysIn o x :=
  ⟨fun _ => h⟩

theorem StaysIn.done {a : α} : img.StaysIn o (.done a) := ⟨fun _ => Prog.asks_done⟩

theorem StaysIn.bind {x : ReadProg α} {k : α → ReadProg β} (hx : img.StaysIn o x)
    (hk : img.StaysIn o (k (x.run o))) : img.StaysIn o (x.bind k) := by
  refine ⟨fun h => ?_⟩
  refine Prog.asks_bind (hx.asks fun ino pos hheld hc => ?_) (hk.asks fun ino pos hheld hc => ?_)
  · exact h ino pos hheld (hc.bind k)
  · exact h ino pos hheld hc.after

theorem StaysIn.tryBind {x : Fallible α} {k : α → Fallible β} (hx : img.StaysIn o x)
    (hk : ∀ a, x.run o = .ok a → img.StaysIn o (k a)) : img.StaysIn o (x.tryBind k) := by
  refine hx.bind ?_
  cases h : x.run o with
  | error e => exact StaysIn.done
  | ok a => exact hk a h

include hs hw

/-- A program that loads a block and goes on with it. -/
theorem StaysIn.load {k : Except GoError Bytes → ReadProg β} {pos : Int} (h : img.Held o ino)
    (hwrap : pos < 0 → 2 ^ 63 < ino.size + img.blockSize)
    (hk : img.StaysIn o (k ((img.loadBlockAt ino pos).run o))) :
    img.StaysIn o ((img.loadBlockAt ino pos).bind k) := by
  refine ⟨fun hin => ?_⟩
  have hload : (img.loadBlockAt ino pos).Asks o img.InImage :=
    (loadBlockAt_asks_iff hs hw hwrap).2 (hin ino pos h (Prog.comes_first k))
  exact Prog.asks_bind hload (hk.asks fun ino pos hheld hc => hin ino pos hheld hc.after)

theorem StaysIn.loadBlock {k : Except GoError Bytes → ReadProg β} (h : img.Held o ino)
    (hk : img.StaysIn o (k ((img.loadBlock ino pos).run o))) :
    img.StaysIn o ((img.loadBlock ino pos).bind k) := by
  rw [← loadBlockAt_natCast] at hk ⊢
  exact StaysIn.load hs hw h (fun hneg => absurd hneg (by omega)) hk

end StaysIn

variable (img o) in
/-- A call on a file that asks inside the image if its chunk entries are there, and leaves a file
that remembers the truth. -/
def Good (x : ReadProg ReadResult) : Prop := img.StaysIn o x ∧ img.FileSound o (x.run o).file

theorem good_done {r : ReadResult} (h : img.FileSound o r.file) : img.Good o (.done r) :=
  ⟨StaysIn.done, h⟩

theorem good_bind {α : Type} {x : ReadProg α} {k : α → ReadProg ReadResult}
    (hx : x.Asks o img.InImage) (hk : img.Good o (k (x.run o))) : img.Good o (x.bind k) := by
  refine ⟨(StaysIn.of_asks hx).bind hk.1, ?_⟩
  rw [Prog.run_bind]
  exact hk.2

include hs hw in
theorem good_load {k : Except GoError Bytes → ReadProg ReadResult} (h : img.Held o ino)
    (hk : img.Good o (k ((img.loadBlock ino pos).run o))) :
    img.Good o ((img.loadBlock ino pos).bind k) := by
  refine ⟨StaysIn.loadBlock hs hw h hk.1, ?_⟩
  rw [Prog.run_bind]
  exact hk.2

include hw in
theorem readDirect_good (hf : img.FileSound o f) (h : img.SectionInside s) (n : ℕ) :
    img.Good o (f.readDirect img ino s n) := by
  unfold OpenFile.readDirect
  dsimp only
  split_ifs
  · exact good_done hf
  · exact good_bind (readSection_asks hw h _ _) (good_done (hf.advance _))

include hw in
theorem copySection_good {w : OpenFile.Sink} {size fuel : ℕ} {acc : Bytes}
    (hf : img.FileSound o f) (h : img.SectionInside s) :
    img.Good o (OpenFile.copySection img w s size fuel f acc) := by
  induction fuel generalizing f acc with
  | zero => exact good_done hf
  | succ fuel ih =>
    rw [OpenFile.copySection]
    split_ifs
    · exact good_done hf
    · refine good_bind (readSection_asks hw h _ _) ?_
      dsimp only
      split
      · exact good_done (hf.advance _)
      · split
        · exact ih (hf.advance _)
        · exact good_done (hf.advance _)

include hs in
/-- Whatever a file does once its inode is known, through a section or block by block. -/
theorem viaDirect_good {k : OpenFile × Option Section → ReadProg ReadResult}
    (hf : img.FileSound o f)
    (hsec : ∀ f s, img.FileSound o f → img.SectionInside s → img.Good o (k (f, some s)))
    (hblk : ∀ f, img.FileSound o f → img.Good o (k (f, none))) :
    img.Good o ((f.directReader img ino).bind k) := by
  obtain ⟨hf', hin⟩ := hf.directReader hs ino
  refine good_bind (directReader_asks hs) ?_
  generalize (f.directReader img ino).run o = r at hf' hin
  obtain ⟨f', d⟩ := r
  cases d with
  | none => exact hblk f' hf'
  | some s => exact hsec f' s hf' (hin s rfl)

include hs in
/-- A call that starts with the file's inode. -/
theorem viaInfo_good {k : OpenFile → Inode → ReadProg ReadResult} (hf : img.FileSound o f)
    (hk : ∀ f ino, img.FileSound o f → img.Held o ino → img.Good o (k f ino)) :
    img.Good o ((f.readInfo img).bind fun r => match r with
      | .error e => .done ⟨f, [], some e⟩
      | .ok (f, ino) => k f ino) := by
  refine good_bind (fileInfo_asks hs) ?_
  cases hr : (f.readInfo img).run o with
  | error e => exact good_done hf
  | ok p =>
    obtain ⟨f', ino⟩ := p
    obtain ⟨hf', hheld⟩ := hf.readInfo hr
    exact hk f' ino hf' hheld

include hs hw

theorem readBlocks_good {fuel n : ℕ} {acc : Bytes} (h : img.Held o ino) (hf : img.FileSound o f) :
    img.Good o (OpenFile.readBlocks img ino fuel f n acc) := by
  induction fuel generalizing f n acc with
  | zero => exact good_done hf
  | succ fuel ih =>
    rw [OpenFile.readBlocks]
    split_ifs
    · exact good_done hf
    · exact good_done hf
    · refine good_load hs hw h ?_
      cases (img.loadBlock ino f.offset).run o with
      | error e => exact good_done hf
      | ok buf => exact ih (hf.advance _)

theorem writeBlocks_good {w : OpenFile.Sink} {fuel : ℕ} {acc : Bytes} (h : img.Held o ino)
    (hf : img.FileSound o f) : img.Good o (OpenFile.writeBlocks img w ino fuel f acc) := by
  induction fuel generalizing f acc with
  | zero => exact good_done hf
  | succ fuel ih =>
    rw [OpenFile.writeBlocks]
    split_ifs
    · exact good_done hf
    · refine good_load hs hw h ?_
      cases (img.loadBlock ino f.offset).run o with
      | error e => exact good_done hf
      | ok buf =>
        dsimp only
        split
        · exact good_done (hf.advance _)
        · exact ih (hf.advance _)

theorem readWith_good (h : img.Held o ino) (hf : img.FileSound o f) (n : ℕ) :
    img.Good o (f.readWith img ino n) :=
  viaDirect_good hs hf (fun _ _ hf' hin => readDirect_good hw hf' hin n)
    fun _ hf' => readBlocks_good hs hw h hf'

theorem writeToWith_good (w : OpenFile.Sink) (h : img.Held o ino) (hf : img.FileSound o f) :
    img.Good o (f.writeToWith img w ino) := by
  unfold OpenFile.writeToWith
  split_ifs
  · exact good_done hf
  · exact viaDirect_good hs hf (fun _ _ hf' hin => copySection_good hw hf' hin)
      fun _ hf' => writeBlocks_good hs hw h hf'

theorem read_good (hf : img.FileSound o f) (n : ℕ) : img.Good o (f.read img n) :=
  viaInfo_good hs hf fun _ _ hf' h => readWith_good hs hw h hf' n

theorem writeTo_good (w : OpenFile.Sink) (hf : img.FileSound o f) : img.Good o (f.writeTo img w) :=
  viaInfo_good hs hf fun _ _ hf' h => writeToWith_good hs hw w h hf'

theorem readFull_staysIn {size fuel n : ℕ} {acc : Bytes} (hf : img.FileSound o f) :
    img.StaysIn o (img.readFull size fuel f n acc) := by
  induction fuel generalizing f n acc with
  | zero => exact StaysIn.done
  | succ fuel ih =>
    obtain ⟨hasks, hsound⟩ := read_good hs hw hf n
    rw [readFull]
    refine hasks.bind ?_
    split_ifs
    · exact StaysIn.done
    · split
      · exact ih hsound
      · exact StaysIn.done

theorem readAll_staysIn (hf : img.FileSound o f) (n : ℕ) : img.StaysIn o (img.readAll f n) := by
  unfold readAll
  split_ifs
  · exact StaysIn.done
  · exact readFull_staysIn hs hw hf

theorem linkTarget_staysIn (nid : ℕ) (name : Bytes) :
    img.StaysIn o (img.linkTarget nid name) := by
  refine (StaysIn.of_asks (fileInfo_asks hs)).tryBind fun r hr => ?_
  obtain ⟨hf, -⟩ := FileSound.fresh.readInfo hr
  split_ifs
  · exact StaysIn.done
  · exact StaysIn.done
  · exact (readAll_staysIn hs hw hf _).tryBind fun _ _ => StaysIn.done

end Calls

/-! ## The cursor of a directory -/

section Cursor

variable {n : Option ℕ} {buf : Bytes} {entryN fuel k i nid : ℕ} {d : OpenDir}
  {ents : List DirEntry}

theorem listEntries_file :
    (OpenDir.listEntries n buf entryN k i d ents).dir.file = d.file := by
  induction k generalizing i d ents with
  | zero => rfl
  | succ k ih =>
    rw [OpenDir.listEntries]
    cases listedName buf entryN i with
    | error e => rfl
    | ok name =>
      dsimp only
      split_ifs
      · exact ih
      · rfl
      · rfl
      · exact ih

theorem listBlock_file : (OpenDir.listBlock n nid buf d ents).dir.file = d.file := by
  unfold OpenDir.listBlock
  cases checkDirBlock nid buf with
  | error e => rfl
  | ok entryN => exact listEntries_file

/-- A walk over the dirents moves on to the next block only with a full page. -/
theorem listEntries_bn :
    let l := OpenDir.listEntries n buf entryN k i d ents
    l.dir.bn = d.bn ∨ l.ended = .full ∧ l.dir.bn = d.bn + 1 := by
  induction k generalizing i d ents with
  | zero => exact .inl rfl
  | succ k ih =>
    rw [OpenDir.listEntries]
    cases listedName buf entryN i with
    | error e => exact .inl rfl
    | ok name =>
      dsimp only
      split_ifs
      · exact ih
      · exact .inr ⟨rfl, rfl⟩
      · exact .inl rfl
      · exact ih

theorem listBlock_bn :
    let l := OpenDir.listBlock n nid buf d ents
    l.dir.bn = d.bn ∨ l.ended = .full ∧ l.dir.bn = d.bn + 1 := by
  unfold OpenDir.listBlock
  cases checkDirBlock nid buf with
  | error e => exact .inl rfl
  | ok entryN => exact listEntries_bn

/-- What becomes of the file and the cursor in a turn of the listing whose block is loaded: the
file stays, and the cursor stays at the block or goes on to the next. -/
theorem listLoaded_rule (P : OpenDir → Prop) {next : OpenDir → List DirEntry →
      ReadProg (OpenDir × List DirEntry × Option GoError)}
    (hstay : ∀ d' : OpenDir, d'.file = d.file → d'.bn = d.bn → P d')
    (hgo : ∀ d' : OpenDir, d'.file = d.file → d'.bn = d.bn + 1 → P d')
    (hnext : ∀ d' ents', d'.file = d.file → d'.bn = d.bn + 1 → P ((next d' ents').run o).1)
    (r : Except GoError Bytes) : P ((OpenDir.listLoaded n nid next d ents r).run o).1 := by
  cases r with
  | error e =>
    rw [OpenDir.listLoaded]
    split_ifs
    · exact hstay d rfl rfl
    · exact hstay d rfl rfl
  | ok buf =>
    have hfile := @listBlock_file n buf nid d ents
    have hbn := @listBlock_bn n buf nid d ents
    unfold OpenDir.listLoaded
    dsimp only at hbn ⊢
    generalize OpenDir.listBlock n nid buf d ents = l at hfile hbn
    cases hended : l.ended with
    | failed e =>
      obtain hbn | ⟨hfull, -⟩ := hbn
      · exact hstay l.dir hfile hbn
      · cases hended.symm.trans hfull
    | full =>
      obtain hbn | ⟨-, hbn⟩ := hbn
      · exact hstay l.dir hfile hbn
      · exact hgo l.dir hfile hbn
    | whole =>
      obtain hbn | ⟨hfull, -⟩ := hbn
      · exact hnext _ _ hfile (congrArg (· + 1) hbn)
      · cases hended.symm.trans hfull

/-- Listing a directory leaves its file as it was. -/
theorem listBlocks_file :
    ((OpenDir.listBlocks img n ino fuel d ents).run o).1.file = d.file := by
  induction fuel generalizing d ents with
  | zero => rfl
  | succ fuel ih =>
    rw [OpenDir.listBlocks]
    split_ifs
    · rfl
    · rw [Prog.run_bind]
      refine listLoaded_rule (fun d' => d'.file = d.file) ?_ ?_ ?_ _
      · exact fun _ hf _ => hf
      · exact fun _ hf _ => hf
      · exact fun d' ents' hf _ => ih.trans hf

/-- At a block of the directory, where positions do not wrap, the position is that block's. -/
theorem lt_of_pos (hsize : ino.size + img.blockSize ≤ 2 ^ 63)
    (hbn : d.bn ≤ calculateBlocks img.sb.blkSizeBits ino.size) :
    0 ≤ d.pos img ∧
      (¬ ino.size ≤ d.pos img → d.bn < calculateBlocks img.sb.blkSizeBits ino.size) := by
  have hle : d.bn * img.blockSize < ino.size + img.blockSize := mul_lt_of_le_calculateBlocks hbn
  rw [OpenDir.pos_eq (by omega)]
  exact ⟨Int.natCast_nonneg _, fun hlt => lt_calculateBlocks_iff.2 (by rw [← blockSize]; omega)⟩

/-- The listing stops after the last block, where positions do not wrap. -/
theorem listBlocks_bn (hsize : ino.size + img.blockSize ≤ 2 ^ 63)
    (hbn : d.bn ≤ calculateBlocks img.sb.blkSizeBits ino.size) :
    ((OpenDir.listBlocks img n ino fuel d ents).run o).1.bn ≤
      calculateBlocks img.sb.blkSizeBits ino.size := by
  induction fuel generalizing d ents with
  | zero => exact hbn
  | succ fuel ih =>
    rw [OpenDir.listBlocks]
    by_cases hend : ino.size ≤ d.pos img
    · rw [if_pos hend]
      exact hbn
    · have hlt := (lt_of_pos hsize hbn).2 hend
      rw [if_neg hend, Prog.run_bind]
      refine listLoaded_rule (fun d' => d'.bn ≤ calculateBlocks img.sb.blkSizeBits ino.size)
        ?_ ?_ ?_ _
      · intro d' _ h
        omega
      · intro d' _ h
        omega
      · intro d' ents' _ h
        exact ih (by omega)

end Cursor

theorem readDir_failed {n : Option ℕ} {d : OpenDir} {e : GoError}
    (h : (d.file.readInfo img).run o = .error e) : ((d.readDir img n).run o).1 = d := by
  rw [OpenDir.readDir, Prog.run_bind, h]
  rfl

theorem FileSound.readDir {n : Option ℕ} {d : OpenDir} (hf : img.FileSound o d.file) :
    img.FileSound o ((d.readDir img n).run o).1.file := by
  cases hr : (d.file.readInfo img).run o with
  | error e => rwa [readDir_failed hr]
  | ok r =>
    rw [OpenDir.readDir_run hr, listBlocks_file]
    exact (hf.readInfo hr).1

theorem cursorInside_start {f : OpenFile} : img.CursorInside o { file := f } :=
  fun _ _ _ => Nat.zero_le _

theorem CursorInside.readDir {n : Option ℕ} {d : OpenDir} (h : img.CursorInside o d) :
    img.CursorInside o ((d.readDir img n).run o).1 := by
  cases hr : (d.file.readInfo img).run o with
  | error e => rwa [readDir_failed hr]
  | ok r =>
    obtain ⟨f, ino⟩ := r
    intro r hr' hsize
    rw [OpenDir.readDir_run hr] at hr' ⊢
    rw [listBlocks_file] at hr'
    have hsame : r.2 = ino := readInfo_again hr hr'
    rw [hsame] at hsize ⊢
    exact listBlocks_bn hsize (h _ hr hsize)

section Paths

variable (hs : 0 < img.size) (hw : img.WindowsFit)

include hs hw

/-! ## Directories and paths -/

theorem listBlocks_staysIn {n : Option ℕ} {fuel : ℕ} {d : OpenDir} {ents : List DirEntry}
    (h : img.Held o ino) (hcur : ino.size + img.blockSize ≤ 2 ^ 63 →
      d.bn ≤ calculateBlocks img.sb.blkSizeBits ino.size) :
    img.StaysIn o (OpenDir.listBlocks img n ino fuel d ents) := by
  induction fuel generalizing d ents with
  | zero => exact StaysIn.done
  | succ fuel ih =>
    rw [OpenDir.listBlocks]
    split_ifs with hend
    · exact StaysIn.done
    · refine StaysIn.load hs hw h (fun hneg => ?_) ?_
      · by_contra hwide
        exact absurd hneg (not_lt.2 (lt_of_pos (not_lt.1 hwide) (hcur (not_lt.1 hwide))).1)
      cases (img.loadBlockAt ino (d.pos img)).run o with
      | error e =>
        rw [OpenDir.listLoaded]
        split_ifs <;> exact StaysIn.done
      | ok buf =>
        unfold OpenDir.listLoaded
        dsimp only
        split
        · exact StaysIn.done
        · exact StaysIn.done
        · next hwhole =>
          refine ih fun hsize => ?_
          obtain hbn | ⟨hfull, -⟩ := @listBlock_bn n buf ino.nid d ents
          · have hlt := (lt_of_pos hsize (hcur hsize)).2 hend
            show _ + 1 ≤ _
            omega
          · cases hwhole.symm.trans hfull

theorem readDir_staysIn {n : Option ℕ} {d : OpenDir} (hf : img.FileSound o d.file)
    (hcur : img.CursorInside o d) : img.StaysIn o (d.readDir img n) := by
  refine (StaysIn.of_asks (fileInfo_asks hs)).bind ?_
  cases hr : (d.file.readInfo img).run o with
  | error e => exact StaysIn.done
  | ok r => exact listBlocks_staysIn hs hw (hf.readInfo hr).2 (hcur r hr)

theorem searchBlocks_staysIn {target : Bytes} {fuel lo hi : ℕ} {last : Option Bytes}
    (h : img.Held o ino) : img.StaysIn o (searchBlocks img ino target fuel lo hi last) := by
  induction fuel generalizing lo hi last with
  | zero => exact StaysIn.done
  | succ fuel ih =>
    rw [searchBlocks]
    split_ifs
    · exact StaysIn.done
    · dsimp only
      refine StaysIn.loadBlock hs hw h ?_
      cases (img.loadBlock ino ((lo + (hi - lo) / 2) * img.blockSize)).run o with
      | error e =>
        dsimp only
        split_ifs
        · exact ih
        · exact StaysIn.done
      | ok buf =>
        dsimp only
        cases blockFirstName buf with
        | error e => exact StaysIn.done
        | ok first =>
          dsimp only
          split_ifs <;> exact ih

theorem lookupIn_staysIn (name : Bytes) (nid : ℕ) (ftype : FileMode) (target : Bytes) :
    img.StaysIn o (lookupIn img name nid ftype target) := by
  refine (StaysIn.of_asks (readInfo_asks hs)).bind ?_
  cases hr : (img.readInfo name nid ftype).run o with
  | error e => exact StaysIn.done
  | ok fi =>
    exact (searchBlocks_staysIn hs hw ⟨_, _, _, hr⟩).tryBind fun _ _ => StaysIn.done

theorem resolveStep_staysIn (follow : Bool) (w : Walk) (name : Bytes) :
    img.StaysIn o (img.resolveStep follow w name) := by
  unfold resolveStep
  dsimp only
  by_cases hdir : w.ftype ≠ FileMode.dir
  · rw [if_pos hdir]
    exact StaysIn.done
  · rw [if_neg hdir]
    refine (lookupIn_staysIn hs hw ..).tryBind fun r _ => ?_
    split_ifs
    · exact StaysIn.done
    · exact (linkTarget_staysIn hs hw ..).tryBind fun _ _ => StaysIn.done
    · exact StaysIn.done

theorem resolveLoop_staysIn (follow : Bool) (k : ℕ) (w : Walk) (name : Bytes) :
    img.StaysIn o (img.resolveLoop follow k w name) := by
  induction k generalizing w name with
  | zero =>
    rw [resolveLoop]
    split_ifs <;> exact StaysIn.done
  | succ k ih =>
    rw [resolveLoop]
    split_ifs
    · exact StaysIn.done
    · exact (resolveStep_staysIn hs hw ..).tryBind fun _ _ => ih ..

theorem resolve_staysIn (op : String) (name : Bytes) (follow : Bool) :
    img.StaysIn o (img.resolve op name follow) := by
  unfold resolve
  dsimp only
  split_ifs
  all_goals first
    | exact StaysIn.done
    | exact (resolveLoop_staysIn hs hw ..).bind StaysIn.done

end Paths

/-! ## `Stat` -/

section Stat

variable (hs : 0 < img.size) {nid addr xsize : ℕ}

include hs

theorem loadBody_asks (pos : ℕ) : (img.loadBody nid addr xsize pos).Asks o img.InImage :=
  Prog.asks_bind (loadAt_asks hs _ _) Prog.asks_done

theorem sharedXattrs_asks {k i : ℕ} {xb : Bytes} {xs : Xattrs} :
    (img.sharedXattrs nid addr xsize k i xb xs).Asks o img.InImage := by
  induction k generalizing i xb xs with
  | zero => exact Prog.asks_done
  | succ k ih =>
    rw [sharedXattrs]
    refine Prog.asks_tryBind ?_ fun xb _ => ?_
    · split_ifs
      · exact Prog.asks_done
      · exact Prog.asks_tryBind (loadBody_asks hs _) fun _ _ => Prog.asks_done
    · refine Prog.asks_tryBind (Prog.asks_bind (loadAt_asks hs _ _) Prog.asks_done) fun sb _ => ?_
      cases img.sharedXattr nid sb xs with
      | error e => exact Prog.asks_done
      | ok xs => exact ih

theorem loadXattrs_asks : (img.loadXattrs ino).Asks o img.InImage := by
  refine Prog.asks_tryBind (loadBody_asks hs _) fun xb _ => ?_
  dsimp only
  split_ifs
  · exact Prog.asks_done
  · exact Prog.asks_done
  · exact Prog.asks_tryBind (sharedXattrs_asks hs) fun _ _ =>
      inlineXattrs_asks (loadBody_asks hs)

theorem statRanges_asks : (img.statRanges ino).Asks o img.InImage := by
  unfold statRanges
  split_ifs with h₁ h₂
  · exact Prog.asks_done
  · exact buildChunkDataRanges_asks hs
  · refine Prog.asks_bind ?_ Prog.asks_done
    unfold buildDataRanges
    cases hl : ino.inodeLayout with
    | chunkBased => exact absurd hl h₂
    | _ => exact Prog.asks_done

theorem statInfo_asks (name : Bytes) (nid : ℕ) (ftype : FileMode) :
    (img.statInfo name nid ftype).Asks o img.InImage := by
  refine Prog.asks_tryBind (readInfo_asks hs) fun ino _ => ?_
  refine Prog.asks_tryBind ?_ fun _ _ => Prog.asks_done
  unfold statWith
  refine Prog.asks_tryBind ?_ fun _ _ => ?_
  · split_ifs
    · exact loadXattrs_asks hs
    · exact Prog.asks_done
  · exact Prog.asks_tryBind (statRanges_asks hs) fun _ _ => Prog.asks_done

end Stat

theorem statInfo_held {name : Bytes} {nid : ℕ} {ftype : FileMode} {r : Inode × FileInfo}
    (h : (img.statInfo name nid ftype).run o = .ok r) : img.Held o r.1 := by
  obtain ⟨ino, hr, h⟩ := Prog.exec_bind_ok h
  obtain ⟨fi, -, h⟩ := Prog.exec_bind_ok h
  cases h
  exact ⟨name, nid, ftype, hr⟩

/-! ## Sessions -/

namespace SessionSound

variable {ss : Session} {h : ℕ} {x : Handle}

theorem setHandle (hss : img.SessionSound o ss) (hx : img.HandleSound o x) :
    img.SessionSound o (ss.setHandle h x) := by
  refine ⟨fun y hy => ?_, hss.infos⟩
  rcases List.mem_or_eq_of_mem_set hy with hmem | rfl
  · exact hss.handles y hmem
  · exact hx

theorem addInfo (hss : img.SessionSound o ss) {r : Except GoError (Inode × FileInfo)}
    (hr : ∀ p, r = .ok p → img.Held o p.1) : img.SessionSound o (ss.addInfo r) := by
  cases r with
  | error e => exact hss
  | ok p =>
    refine ⟨hss.handles, fun ino hino => ?_⟩
    rcases List.mem_append.1 hino with hmem | hmem
    · exact hss.infos ino hmem
    · rw [List.mem_singleton.1 hmem]
      exact hr p rfl

theorem addHandle (hss : img.SessionSound o ss) {r : Except GoError Handle}
    (hr : ∀ y, r = .ok y → img.HandleSound o y) : img.SessionSound o (ss.addHandle r) := by
  cases r with
  | error e => exact hss
  | ok y =>
    refine ⟨fun z hz => ?_, hss.infos⟩
    rcases List.mem_append.1 hz with hmem | hmem
    · exact hss.handles z hmem
    · rw [List.mem_singleton.1 hmem]
      exact hr y rfl

theorem handle (hss : img.SessionSound o ss) (hx : ss.handles[h]? = some x) :
    img.HandleSound o x := hss.handles x (List.mem_of_getElem? hx)

end SessionSound

/-- `Open` returns a file that has not been read yet. -/
theorem open_sound {name : Bytes} {y : Handle} (h : (img.open_ name).run o = .ok y) :
    img.HandleSound o y := by
  obtain ⟨w, -, h⟩ := Prog.exec_bind_ok h
  simp only [Prog.run_done, Except.ok.injEq] at h
  rw [← h]
  split_ifs
  · exact ⟨FileSound.fresh, cursorInside_start⟩
  · exact FileSound.fresh

section Run

variable (hs : 0 < img.size) (hw : img.WindowsFit) {ss : Session}

include hs hw

theorem viaResolve_staysIn {α : Type} {op : String} {name : Bytes} {follow : Bool}
    {k : Walk → Fallible α} (hk : ∀ w, img.StaysIn o (k w)) :
    img.StaysIn o ((img.resolve op name follow).tryBind k) :=
  (resolve_staysIn hs hw ..).tryBind fun w _ => hk w

theorem readFile_staysIn (name : Bytes) : img.StaysIn o (img.readFile name) := by
  refine viaResolve_staysIn hs hw fun w => ?_
  split_ifs
  · exact StaysIn.done
  · refine (StaysIn.of_asks (fileInfo_asks hs)).tryBind fun r hr => ?_
    obtain ⟨hf, -⟩ := FileSound.fresh.readInfo hr
    split_ifs
    · exact StaysIn.done
    · exact (readAll_staysIn hs hw hf _).bind StaysIn.done

theorem readLink_staysIn (name : Bytes) : img.StaysIn o (img.readLink name) := by
  refine viaResolve_staysIn hs hw fun w => ?_
  split_ifs
  · exact linkTarget_staysIn hs hw ..
  · exact StaysIn.done

theorem readDirAt_staysIn (name : Bytes) : img.StaysIn o (img.readDirAt name) := by
  refine viaResolve_staysIn hs hw fun w => ?_
  split_ifs
  · exact StaysIn.done
  · exact (readDir_staysIn hs hw FileSound.fresh cursorInside_start).bind StaysIn.done

/-- One call asks inside the image if its chunk entries are there. -/
theorem exec_staysIn (hss : img.SessionSound o ss) (c : Call) :
    img.StaysIn o (img.exec ss c) := by
  cases c with
  | openAt name =>
    exact (viaResolve_staysIn hs hw fun _ => StaysIn.done).bind StaysIn.done
  | statAt name =>
    exact (viaResolve_staysIn hs hw fun _ => .of_asks (statInfo_asks hs ..)).bind StaysIn.done
  | lstatAt name =>
    exact (viaResolve_staysIn hs hw fun _ => .of_asks (statInfo_asks hs ..)).bind StaysIn.done
  | readLinkAt name => exact (readLink_staysIn hs hw name).bind StaysIn.done
  | readFileAt name => exact (readFile_staysIn hs hw name).bind StaysIn.done
  | listAt name => exact (readDirAt_staysIn hs hw name).bind StaysIn.done
  | read h n =>
    rw [exec]
    split
    · next f hf => exact (read_good hs hw (hss.handle hf) n).1.bind StaysIn.done
    · exact StaysIn.done
  | writeTo h w =>
    rw [exec]
    split
    · next f hf => exact (writeTo_good hs hw w (hss.handle hf)).1.bind StaysIn.done
    · exact StaysIn.done
  | statHandle h =>
    rw [exec]
    split
    · exact (StaysIn.of_asks (statInfo_asks hs ..)).bind StaysIn.done
    · exact StaysIn.done
  | list h n =>
    rw [exec]
    split
    · next d hd =>
      obtain ⟨hf, hcur⟩ := hss.handle hd
      exact (readDir_staysIn hs hw hf hcur).bind StaysIn.done
    · exact StaysIn.done
  | dataRange k =>
    rw [exec]
    split
    · refine StaysIn.bind (.of_asks (Prog.asks_bind ?_ Prog.asks_done)) StaysIn.done
      exact buildChunkDataRanges_asks hs
    · exact StaysIn.done

/-- One call leaves a session that holds the truth. -/
theorem exec_sound (hss : img.SessionSound o ss) (c : Call) :
    img.SessionSound o ((img.exec ss c).run o) := by
  cases c with
  | openAt name => rw [exec, Prog.run_bind]; exact hss.addHandle fun y hy => open_sound hy
  | statAt name =>
    rw [exec, Prog.run_bind]
    refine hss.addInfo fun p hp => ?_
    obtain ⟨w, -, h⟩ := Prog.exec_bind_ok hp
    exact statInfo_held h
  | lstatAt name =>
    rw [exec, Prog.run_bind]
    refine hss.addInfo fun p hp => ?_
    obtain ⟨w, -, h⟩ := Prog.exec_bind_ok hp
    exact statInfo_held h
  | readLinkAt name => rw [exec, Prog.run_bind]; exact hss
  | readFileAt name => rw [exec, Prog.run_bind]; exact hss
  | listAt name => rw [exec, Prog.run_bind]; exact hss
  | read h n =>
    rw [exec]
    split
    · next f hf =>
      rw [Prog.run_bind]
      exact hss.setHandle (read_good hs hw (hss.handle hf) n).2
    · exact hss
  | writeTo h w =>
    rw [exec]
    split
    · next f hf =>
      rw [Prog.run_bind]
      exact hss.setHandle (writeTo_good hs hw w (hss.handle hf)).2
    · exact hss
  | statHandle h =>
    rw [exec]
    split
    · rw [Prog.run_bind]
      exact hss.addInfo fun p hp => statInfo_held hp
    · exact hss
  | list h n =>
    rw [exec]
    split
    · next d hd =>
      rw [Prog.run_bind]
      obtain ⟨hf, hcur⟩ := hss.handle hd
      exact hss.setHandle ⟨hf.readDir, hcur.readDir⟩
    · exact hss
  | dataRange k =>
    rw [exec]
    split
    · rw [Prog.run_bind]
      exact hss
    · exact hss

theorem runCalls_staysIn (hss : img.SessionSound o ss) (cs : List Call) :
    img.StaysIn o (img.runCalls ss cs) := by
  induction cs generalizing ss with
  | nil => exact StaysIn.done
  | cons c cs ih => exact (exec_staysIn hs hw hss c).bind (ih (exec_sound hs hw hss c))

end Run

theorem SessionSound.start : img.SessionSound o {} := by constructor <;> simp

/-- **Offsets stay inside the image** in a session exactly when the chunk entries do that the
blocks it comes to load call for. -/
theorem session_inside_iff (hs : 0 < img.size) (hw : img.WindowsFit) (cs : List Call) :
    (img.runCalls {} cs).Asks o img.InImage ↔
      ∀ ino pos, img.Held o ino → (img.runCalls {} cs).Comes o (img.loadBlockAt ino pos) →
        img.ReadsEntryAt ino pos → img.EntryInsideAt ino pos := by
  constructor
  · intro h ino pos _ hcomes hread
    have hwrap : pos < 0 → 2 ^ 63 < ino.size + img.blockSize := by
      rcases hread with ⟨h0, -⟩ | ⟨-, hwide, -⟩
      · omega
      · exact fun _ => hwide
    exact (loadBlockAt_asks_iff hs hw hwrap).1 (hcomes.asks h) hread
  · exact (runCalls_staysIn hs hw SessionSound.start cs).asks

/-! ## An image whose chunk map is outside it -/

/-- `n` zero bytes. -/
def zeros (n : ℕ) : Bytes := List.replicate n nulByte

/-- An image of five blocks of 512 bytes: a superblock, and in the metadata block a root directory
with one entry `a` whose inode is number 4, with `xcnt` as its `i_xattr_icount`. -/
def oneFileImage (xcnt : List Byte) : Bytes :=
  zeros 1024
    -- the superblock: block size bits 9, five blocks, metadata at block 3
    ++ [0xe2, 0xe1, 0xf5, 0xe0] ++ zeros 8 ++ [9] ++ zeros 23 ++ [5, 0, 0, 0, 3] ++ zeros 471
    -- inode 0: compact, flat-inline, a directory of 40 bytes
    ++ [4, 0, 0, 0, 0xed, 0x41, 2, 0, 40] ++ zeros 23
    -- its dirents ".", ".." and "a"
    ++ zeros 8 ++ [36, 0, 2, 0] ++ zeros 8 ++ [37, 0, 2, 0] ++ [4] ++ zeros 7 ++ [39, 0, 1, 0]
    ++ [46, 46, 46, 97] ++ zeros 56
    -- inode 4: compact, chunk-based, a regular file of one byte
    ++ [8, 0] ++ xcnt ++ [0xa4, 0x81, 1, 0, 1] ++ zeros 887

/-- What `Open` makes of it. -/
def oneFileFS : Image where
  sb := { blkSizeBits := 9, rootNid := 0, blocks := 5, metaBlkAddr := 3 }
  size := 2560

/-- The path of its file. -/
def oneFilePath : Bytes := [97]

/-- The readers of the image. -/
def oneFileReader (xcnt : List Byte) : Req → Answer := holding fun _ => oneFileImage xcnt

/-- With an `i_xattr_icount` of 65535 the chunk map is said to start 262148 bytes after the inode:
`Open` accepts the image of 2560 bytes, and `Read` of its file reads at 263844. -/
theorem chunkEntry_outside :
    (openImage 0 fun _ => some 2560).run (oneFileReader [0xff, 0xff]) = .ok oneFileFS ∧
      0 < oneFileFS.size ∧
      ¬ (oneFileFS.runCalls {} [.openAt oneFilePath, .read 0 1]).Asks
        (oneFileReader [0xff, 0xff]) oneFileFS.InImage := by
  decide +kernel

/-- The bytes `readInfo` has for the inode `nid`. -/
def oneFileInode (nid : ℕ) : Bytes :=
  ((oneFileImage [0, 0]).drop (1536 + nid * 32)).take (oneFileFS.inodeWindow nid)

/-- Inode 4 is the one chunk-based inode, with its chunk map right after it. -/
theorem oneFileInode_chunked :
    (∀ nid < 32, Layout.ofNat ((field (oneFileInode nid) 0 2 &&& 0xe) / 2) = .chunkBased →
      nid = 4) ∧
      field (oneFileInode 4) 0 2 = 8 ∧ field (oneFileInode 4) 2 2 = 0 ∧
      field (oneFileInode 4) 8 4 = 1 ∧ field (oneFileInode 4) 16 4 = 0 := by
  decide +kernel

theorem oneFile_inodeStart (nid : ℕ) : oneFileFS.inodeStart nid = 1536 + nid * 32 := rfl

theorem oneFile_read (nid : ℕ) :
    ((readerAt 0 (oneFileFS.inodeStart nid) (oneFileFS.inodeWindow nid)).run
      (oneFileReader [0, 0])).data = oneFileInode nid := by
  rw [oneFileReader, run_readerAt_holding, holding_nat]
  rfl

/-- A chunk-based inode of the image is its file's. -/
theorem oneFile_chunked {ino : Inode} (hheld : oneFileFS.Held (oneFileReader [0, 0]) ino)
    (hlay : ino.inodeLayout = .chunkBased) :
    ino.nid = 4 ∧ ino.icsize = 32 ∧ ino.size = 1 ∧ ino.inodeData = 0 ∧ ino.xsize = 0 := by
  obtain ⟨name, nid, ftype, hr⟩ := hheld
  obtain ⟨a, ha, hp⟩ := readInfo_parse hr
  have hdata : a.data = oneFileInode nid := ha ▸ oneFile_read nid
  obtain ⟨hl, hic, hx, hu, hsize⟩ := parseInfo_fields hp
  obtain ⟨honly, hformat, hxcnt, hone, hraw⟩ := oneFileInode_chunked
  have hend := (checkNid_ok (readInfo_ok hr).1).2 (by decide)
  rw [hdata] at hl hic hx hu hsize
  obtain rfl : nid = 4 := by
    refine honly nid ?_ (hl ▸ hlay)
    rw [oneFile_inodeStart] at hend
    simp only [oneFileFS, Disk.sizeInodeCompact] at hend
    omega
  rw [hformat] at hic hsize
  rw [hxcnt] at hx
  exact ⟨(readInfo_ok hr).2.nid_eq, hic, hsize.trans hone, hu.trans hraw, (Except.ok.inj hx).symm⟩

/-- Its chunk map is inside the image. -/
theorem oneFile_entryInside {ino : Inode} (hheld : oneFileFS.Held (oneFileReader [0, 0]) ino)
    {pos : Int} (hread : oneFileFS.ReadsEntryAt ino pos) : oneFileFS.EntryInsideAt ino pos := by
  obtain ⟨hpos, hblk, hlay, -⟩ | ⟨-, hwide, hlay, -⟩ := hread
  · obtain ⟨hnid, hic, hsize, hu, hx⟩ := oneFile_chunked hheld hlay
    obtain ⟨p, rfl⟩ := Int.eq_ofNat_of_zero_le hpos
    rw [Int.toNat_natCast, hsize] at hblk
    have hone : calculateBlocks oneFileFS.sb.blkSizeBits 1 = 1 := by decide
    have hp : p / 2 ^ 9 = 0 := Nat.lt_one_iff.1 (hone ▸ hblk)
    have hbits : oneFileFS.chunkBits ino = 9 := by
      simp [chunkBits, oneFileFS, Inode.chunkFormat, hu]
    have hentry : oneFileFS.entryPos ino (p / 2 ^ oneFileFS.chunkBits ino) = 1696 := by
      rw [hbits, hp]
      simp [entryPos, chunkMapStart, trailingAddr, oneFile_inodeStart, hnid, Inode.flatDataOffset,
        hic, hx, Inode.chunkIndexed, Inode.chunkFormat, hu, int64]
    exact entryInsideAt_natCast.2 ⟨by rw [hentry]; decide, by rw [hentry]; decide⟩
  · obtain ⟨-, -, hsize, -⟩ := oneFile_chunked hheld hlay
    have hbs : oneFileFS.blockSize = 512 := by decide
    rw [hsize, hbs] at hwide
    omega

/-- With no extended attributes the chunk map is inside the image, and so is every offset of every
session. -/
theorem oneFile_session_inside :
    0 < oneFileFS.size ∧ oneFileFS.WindowsFit ∧
      ∀ cs, (oneFileFS.runCalls {} cs).Asks (oneFileReader [0, 0]) oneFileFS.InImage := by
  have hsize : 0 < oneFileFS.size := by decide
  have hfit : oneFileFS.WindowsFit := by simp [WindowsFit, oneFileFS]
  exact ⟨hsize, hfit, fun cs => (session_inside_iff hsize hfit cs).2
    fun _ _ hheld _ hread => oneFile_entryInside hheld hread⟩

end Image

end Erofs
