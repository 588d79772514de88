import Erofs.Writer.CopiedDirs
import Erofs.Writer.SafeCopy

/-!
# One turn of the image copy

The loop of `copyFromImage` takes an entry off its queue and erases, adds a name, or decodes an
inode and places it.  `copyStep_to` says which, once and for all; what the copy does to the tree, to
the queue and to the hardlinks is read off it.

The main results:

* `copyStep_to` — the outcome of a turn;
* `WellFormed.copyImage_fits` — a copy keeps a Writer well formed, if what it puts fits and hangs
  under a directory that is there.
-/

namespace Erofs

open GoPath PathTree Oracle DirBlock

/-! ## The directory decoder's entries -/

theorem isName_of_valid {n : Bytes} (h : ValidName n) (hd : ¬ (n = dot ∨ n = dotdot)) : IsName n :=
  ⟨⟨h.nonempty, h.noSlash⟩, fun e => hd (.inl e), fun e => hd (.inr e)⟩

theorem copiedBlock_mem {parent : Path} {buf : Bytes} {q : List ImgQEntry}
    (h : copiedBlock parent buf = .ok q) {x : ImgQEntry} (hx : x ∈ q) :
    ∃ n, x.path = parent ++ [n] ∧ ValidName n ∧ IsName n ∧ PathFits parent n := by
  obtain ⟨⟨hs, hfit⟩, rfl⟩ := copiedBlock_iff.1 h
  simp only [queuedFrom, List.mem_flatMap, List.mem_range'_1] at hx
  obtain ⟨j, hj, hx⟩ := hx
  split_ifs at hx with hh
  · cases hx
  obtain rfl := List.mem_singleton.1 hx
  have hj : j < count buf := by omega
  have hv := (hs.entry j hj).valid
  refine ⟨name buf j, rfl, hv, isName_of_valid hv hh, hfit _ (mem_below.2 ⟨j, ?_, hh, rfl⟩)⟩
  exact (sound_iff.1 hs).2.symm ▸ hj

/-- What `parseDirBlock` queues lies one name below the directory. -/
theorem parseDirBlock_mem {parent : Path} {blockSize fuel : ℕ} {data : Bytes} {q : List ImgQEntry}
    (h : parseDirBlock parent blockSize fuel data = .ok q) {x : ImgQEntry} (hx : x ∈ q) :
    ∃ n, x.path = parent ++ [n] ∧ ValidName n ∧ IsName n ∧ PathFits parent n := by
  induction fuel generalizing data q with
  | zero =>
    obtain rfl := Except.ok.inj h
    cases hx
  | succ fuel ih =>
    rw [parseDirBlock] at h
    split_ifs at h
    · obtain rfl := Except.ok.inj h
      cases hx
    · obtain ⟨ents, he, h⟩ := except_bind_ok h
      obtain ⟨rest, hr, h⟩ := except_bind_ok h
      obtain rfl := Except.ok.inj h
      rcases List.mem_append.1 hx with hx | hx
      · exact copiedBlock_mem he hx
      · exact ih hr hx

/-- The dirent says that the entry is a directory; the root is one. -/
def ImgQEntry.isDir (cur : ImgQEntry) : Bool := cur.path = [] || cur.ftype == 2

theorem modeToFileType_eq_two {m : Mode} : modeToFileType m = 2 ↔ m.typ = Mode.dir := by
  unfold modeToFileType
  have hne : Mode.reg ≠ Mode.dir := by decide
  split_ifs <;> simp_all

namespace Image

variable {img : Image} {o : Req → Answer} {metaBuf : Option Bytes} {cur : ImgQEntry} {ino : Inode}

/-- What `copyFromImage` knows of an inode it decoded. -/
structure Typed (cur : ImgQEntry) (ino : Inode) : Prop where
  known : modeToFileType ino.rawMode ≠ 0
  root : cur.path = [] → modeToFileType ino.rawMode = 2
  dirent : cur.path ≠ [] → cur.ftype = modeToFileType ino.rawMode
  size : ino.size < 2 ^ 63

theorem Typed.isDir (h : Typed cur ino) : cur.isDir = Writer.modeIsDir ino.rawMode := by
  have htwo : (modeToFileType ino.rawMode == 2) = Writer.modeIsDir ino.rawMode := by
    rw [Bool.eq_iff_iff, beq_iff_eq, modeToFileType_eq_two, Writer.modeIsDir, beq_iff_eq]
  unfold ImgQEntry.isDir
  by_cases hp : cur.path = []
  · simp [hp, ← htwo, h.root hp]
  · simp [hp, ← htwo, h.dirent hp]

theorem checkCopied_ok {format xcnt : ℕ} (h : checkCopied cur format xcnt ino = .ok ()) :
    Typed cur ino := by
  unfold checkCopied at h
  obtain ⟨_, -, h⟩ := except_bind_ok h
  obtain ⟨_, -, h⟩ := except_bind_ok h
  -- the size of the attributes is checked only if there are any
  by_cases hx : 0 < xcnt
  all_goals
    first | rw [if_pos hx] at h | rw [if_neg hx] at h
    try obtain ⟨_, -, h⟩ := except_bind_ok h
    obtain ⟨h₁, h⟩ := guard_ok h
    obtain ⟨h₂, h⟩ := guard_ok h
    obtain ⟨h₃, h⟩ := guard_ok h
    split_ifs at h with h₄
    exact ⟨h₁, fun hp => not_not.1 fun hne => h₂ ⟨hp, hne⟩,
      fun hp => not_not.1 fun hne => h₃ ⟨hp, hne⟩, not_le.1 h₄⟩

/-- What is known of the inode of a queue entry. -/
structure Decoded (img : Image) (cur : ImgQEntry) (ino : Inode) : Prop extends Typed cur ino where
  nid : ino.nid = cur.nid
  range : cur.nid ≤ (img.totalBytes - img.metaStartPos) / Disk.sizeInodeCompact

/-- An inode that was read has passed the checks. -/
theorem readCopied_ok {xattrs : Xattrs}
    (h : (img.readCopied metaBuf cur).run o = .ok (ino, xattrs)) : Decoded img cur ino := by
  unfold readCopied at h
  split_ifs at h with hrange
  · cases h
  have hrange := not_lt.1 hrange
  rw [Prog.run_bind] at h
  dsimp only at h
  generalize (img.metaAt metaBuf (img.inodeStart cur.nid)).run o = buf at h
  cases hd : (img.copyInode cur.nid buf).bind fun ino =>
      (checkCopied cur (LittleEndian.field buf 0 2) (LittleEndian.field buf 2 2) ino).map
        fun _ => ino with
  | error e =>
    rw [hd] at h
    cases h
  | ok ino₀ =>
    have htyped : Typed cur ino₀ ∧ ino₀.nid = cur.nid := by
      obtain ⟨ino₁, hino, hc⟩ := except_bind_ok hd
      have hnid : ino₁.nid = cur.nid := by
        unfold copyInode at hino
        dsimp only at hino
        split_ifs at hino <;> cases hino <;> rfl
      cases hcheck : checkCopied cur (LittleEndian.field buf 0 2) (LittleEndian.field buf 2 2)
          ino₁ with
      | error e =>
        rw [hcheck] at hc
        cases hc
      | ok u =>
        rw [hcheck] at hc
        obtain rfl := Except.ok.inj hc
        exact ⟨checkCopied_ok hcheck, hnid⟩
    rw [hd] at h
    dsimp only at h
    split_ifs at h
    · cases h
      exact ⟨htyped.1, htyped.2, hrange⟩
    · obtain ⟨xs, -, h⟩ := Prog.exec_bind_ok h
      cases h
      obtain ⟨⟨hknown, hroot, hdirent, hsize⟩, hnid⟩ := htyped
      exact ⟨⟨hknown, hroot, hdirent, hsize⟩, hnid, hrange⟩

end Image

namespace Writer

variable {w w' : Writer} {img : Image} {o : Req → Answer} {metaBuf : Option Bytes}
  {s : CopyState} {cur : ImgQEntry}

/-! ## The outcome of a turn -/

/-- The entry is one that the image route takes for a marker. -/
def isImageMarker (w : Writer) (p : Path) : Bool :=
  w.copyMerge && p ≠ [] && isImageWhiteout (base p)

/-- The state after a turn that placed an entry. -/
def CopyState.placed (s : CopyState) (img : Image) (cur : ImgQEntry) (ino : Inode) (fe : FsEntry)
    (ents : List ImgQEntry) : CopyState :=
  ⟨s.w.registerCopied cur.nid (sharesNid ino) fe, s.queue ++ ents,
    if ino.rawMode.typ = Mode.dir then img.inodeStart ino.nid :: s.expanded else s.expanded⟩

/-- What a turn of the loop comes to, for the entry `cur` taken off the queue. -/
inductive StepTo (o : Req → Answer) (img : Image) (metaBuf : Option Bytes) (s : CopyState)
    (cur : ImgQEntry) : CopyState × Option GoError → Prop
  | marker (hm : s.w.isImageMarker cur.path = true) :
      StepTo o img metaBuf s cur ({ s with w := s.w.applyMarker cur.path }, none)
  | failed (e : GoError) : StepTo o img metaBuf s cur (s, some e)
  | name (hm : s.w.isImageMarker cur.path = false) {ino : Inode} {xattrs : Xattrs}
      (hread : (img.readCopied metaBuf cur).run o = .ok (ino, xattrs))
      (hshare : sharesNid ino = true) {prior : EntryId}
      (hprior : s.w.priorName ⟨0, cur.nid⟩ = some prior) {w' : Writer}
      (hw : s.w.addAlias cur.path prior = .ok w') :
      StepTo o img metaBuf s cur ({ s with w := w' }, none)
  | entry (hm : s.w.isImageMarker cur.path = false) {ino : Inode} {xattrs : Xattrs}
      (hread : (img.readCopied metaBuf cur).run o = .ok (ino, xattrs))
      (hfirst : sharesNid ino = true → s.w.priorName ⟨0, cur.nid⟩ = none)
      (hextent : img.checkExtent ino = .ok ()) {fe : FsEntry} {ents : List ImgQEntry}
      (hcontent : (s.w.copiedContent img metaBuf s.expanded
        (s.w.copiedEntry cur.path ino xattrs) ino).run o = .ok (fe, ents)) :
      StepTo o img metaBuf s cur (s.placed img cur ino fe ents, none)

theorem copyStep_to (o : Req → Answer) (img : Image) (metaBuf : Option Bytes) (s : CopyState)
    (cur : ImgQEntry) : StepTo o img metaBuf s cur ((copyStep img metaBuf s cur).run o) := by
  unfold copyStep
  by_cases hm : s.w.copyMerge = true ∧ cur.path ≠ [] ∧ isImageWhiteout (base cur.path) = true
  · rw [if_pos hm]
    exact .marker (by simpa [isImageMarker, and_assoc] using hm)
  have hm' : s.w.isImageMarker cur.path = false := by
    simpa [isImageMarker, and_assoc] using hm
  rw [if_neg hm, Prog.run_bind]
  cases hread : (img.readCopied metaBuf cur).run o with
  | error e => exact .failed e
  | ok r =>
    obtain ⟨ino, xattrs⟩ := r
    dsimp only
    unfold copyDecoded
    cases hprior : (if sharesNid ino then s.w.priorName ⟨0, cur.nid⟩ else none) with
    | some prior =>
      split_ifs at hprior with hshare
      cases hw : s.w.addAlias cur.path prior with
      | error e =>
        simp only [hw]
        exact .failed e
      | ok w' =>
        simp only [hw]
        exact .name hm' hread hshare hprior hw
    | none =>
      cases hextent : img.checkExtent ino with
      | error e => exact .failed e
      | ok u =>
        dsimp only
        rw [Prog.run_bind]
        cases hcontent : (s.w.copiedContent img metaBuf s.expanded
            (s.w.copiedEntry cur.path ino xattrs) ino).run o with
        | error e => exact .failed e
        | ok r =>
          obtain ⟨fe, ents⟩ := r
          refine .entry hm' hread (fun hshare => ?_) hextent hcontent
          rw [if_pos hshare] at hprior
          exact hprior

/-! ## The entry that is placed -/

/-- `fe'` is `fe` with its content. -/
def WithContent (fe fe' : FsEntry) : Prop :=
  fe' = { fe with
    linkTarget := fe'.linkTarget, chunks := fe'.chunks, contiguous := fe'.contiguous
    tail := fe'.tail, rdev := fe'.rdev }

/-- A directory that is expanded was not before, and its entries are what its content parses to. -/
theorem copiedDir_ok {expanded : List ℕ} {p : Path} {ino : Inode} {ents : List ImgQEntry}
    (h : (copiedDir img metaBuf expanded p ino).run o = .ok ents) :
    img.inodeStart ino.nid ∉ expanded ∧ (ents = [] ∨ ∃ data,
      (img.inlineData metaBuf ino).run o = .ok data ∧
        parseDirBlock p img.blockSize data.length data = .ok ents) := by
  unfold copiedDir at h
  split_ifs at h with hexp hsize
  · cases h
  · cases h
    exact ⟨hexp, .inl rfl⟩
  · obtain ⟨data, hdata, h⟩ := Prog.exec_bind_ok h
    rw [Prog.run_bind, Prog.run_done] at hdata
    rw [Prog.run_done] at h
    refine ⟨hexp, .inr ⟨data, ?_, ?_⟩⟩
    · cases hd : (img.inlineData metaBuf ino).run o with
      | error e =>
        rw [hd] at hdata
        cases hdata
      | ok data' =>
        rw [hd] at hdata
        exact congrArg Except.ok (Except.ok.inj hdata)
    · cases hparse : parseDirBlock p img.blockSize data.length data with
      | error e =>
        rw [hparse] at h
        cases h
      | ok q =>
        rw [hparse] at h
        exact congrArg Except.ok (Except.ok.inj h)

/-- The switch over the type fills in the content, and queues what lies in a directory. -/
theorem copiedContent_cases {expanded : List ℕ} {fe fe' : FsEntry} {ino : Inode}
    {ents : List ImgQEntry}
    (h : (w.copiedContent img metaBuf expanded fe ino).run o = .ok (fe', ents)) :
    WithContent fe fe' ∧ if fe.mode.typ = Mode.dir then
      (copiedDir img metaBuf expanded fe.path ino).run o = .ok ents else ents = [] := by
  unfold copiedContent at h
  split_ifs at h with hdir hlink hreg hdev
  · obtain ⟨ents', hents, h⟩ := Prog.exec_bind_ok h
    cases h
    exact ⟨rfl, by rwa [if_pos hdir]⟩
  · obtain ⟨target, -, h⟩ := Prog.exec_bind_ok h
    cases h
    exact ⟨rfl, if_neg hdir ▸ rfl⟩
  · obtain ⟨d, -, h⟩ := Prog.exec_bind_ok h
    cases h
    exact ⟨rfl, if_neg hdir ▸ rfl⟩
  · cases h
    exact ⟨rfl, if_neg hdir ▸ rfl⟩
  · cases h
    exact ⟨rfl, if_neg hdir ▸ rfl⟩

/-- What is queued lies one name below the entry. -/
theorem copiedContent_ok {expanded : List ℕ} {fe fe' : FsEntry} {ino : Inode}
    {ents : List ImgQEntry}
    (h : (w.copiedContent img metaBuf expanded fe ino).run o = .ok (fe', ents)) :
    WithContent fe fe' ∧
      ∀ x ∈ ents, ∃ n, x.path = fe.path ++ [n] ∧ ValidName n ∧ IsName n ∧ PathFits fe.path n := by
  obtain ⟨hfe, hents⟩ := copiedContent_cases h
  refine ⟨hfe, fun x hx => ?_⟩
  split_ifs at hents with hdir
  · obtain rfl | ⟨data, -, hparse⟩ := (copiedDir_ok hents).2
    · cases hx
    · exact parseDirBlock_mem hparse hx
  · rw [hents] at hx
    cases hx

/-! ## Turns that keep a Writer well formed -/

/-- The turn can deal with the entry: a marker does not name the root, anything else fits at its
path and hangs under a directory that is there. -/
def StepFits (w : Writer) (cur : ImgQEntry) : Prop :=
  if w.isImageMarker cur.path then
    base cur.path ≠ opaqueWhiteout → joinElem (dir cur.path) (markedName cur.path) ≠ []
  else EntryFits w cur.path cur.isDir ∧
    (cur.path ≠ [] → ∃ d, w.byPath cur.path.dropLast = some d ∧ (w.ent d).isDir = true)

theorem Tidy.registerCopied (h : Tidy w) {fe : FsEntry} (hfresh : Fresh fe) (hl : fe.linkTo = none)
    (hfit : EntryFits w fe.path fe.isDir)
    (hparent : fe.path ≠ [] → ∃ d, w.byPath fe.path.dropLast = some d ∧ (w.ent d).isDir = true)
    {share : Bool} (hshare : share = true → fe.isDir = false) (nid : ℕ) :
    Tidy (w.registerCopied nid share fe) := by
  unfold Writer.registerCopied
  split_ifs with hroot
  · exact h.sameCopy (h.wellFormed.sameCopy_setRoot (hfit.root hroot))
  · exact (h.placeItem hfresh hl ⟨hfit, hroot, hparent hroot⟩ hshare _).tidy

theorem Tidy.copyStep (h : Tidy s.w) (hfit : StepFits s.w cur) :
    Tidy ((copyStep img metaBuf s cur).run o).1.w := by
  unfold StepFits at hfit
  have hto := copyStep_to o img metaBuf s cur
  generalize (Writer.copyStep img metaBuf s cur).run o = r at hto
  cases hto with
  | marker hm =>
    rw [if_pos hm] at hfit
    exact (h.applyMarker hfit).1
  | failed e => exact h
  | name hm hread hshare hprior hw =>
    rw [if_neg (by simp [hm])] at hfit
    have hfile : cur.isDir = false := by
      rw [(Image.readCopied_ok hread).isDir]
      simp only [sharesNid, Bool.and_eq_true, bne_iff_ne, ne_eq] at hshare
      simpa [modeIsDir] using hshare.1
    have hne : cur.path ≠ [] := fun hp => by
      have := hfit.1.root hp
      rw [hfile] at this
      cases this
    exact (h.addAlias ⟨hfile ▸ hfit.1, hne, hfit.2 hne⟩ (priorName_some hprior) hw).1
  | @entry hm ino xattrs hread hfirst hextent fe ents hcontent =>
    rw [if_neg (by simp [hm])] at hfit
    have hfe := (copiedContent_ok hcontent).1
    have hdir : cur.isDir = fe.isDir := by
      rw [(Image.readCopied_ok hread).isDir, hfe]
      rfl
    have hpath : fe.path = cur.path := by
      rw [hfe]
      rfl
    refine h.registerCopied ?_ ?_ (hpath ▸ hdir ▸ hfit.1) (hpath ▸ hfit.2) (fun hshare => ?_) _
    · rw [hfe]
      exact ⟨rfl, rfl, rfl⟩
    · rw [hfe]
      rfl
    · rw [hfe]
      simp only [sharesNid, Bool.and_eq_true, bne_iff_ne, ne_eq] at hshare
      simpa [FsEntry.isDir, copiedEntry] using hshare.1

/-- The turns of the loop: the state each begins with, and the entry it takes off the queue. -/
def turns (o : Req → Answer) (img : Image) (metaBuf : Option Bytes) :
    ℕ → CopyState → List (CopyState × ImgQEntry)
  | 0, _ => []
  | fuel + 1, s =>
    match s.queue with
    | [] => []
    | cur :: queue =>
      let r := (copyStep img metaBuf { s with queue } cur).run o
      ({ s with queue }, cur) :: if r.2.isNone then turns o img metaBuf fuel r.1 else []

/-- The first turn, and what comes of it. -/
theorem copyLoop_cons {fuel : ℕ} {queue : List ImgQEntry} {r : CopyState × Option GoError}
    (hq : s.queue = cur :: queue) (hr : (copyStep img metaBuf { s with queue } cur).run o = r) :
    (copyLoop img metaBuf (fuel + 1) s).run o =
        (if r.2.isNone then (copyLoop img metaBuf fuel r.1).run o else (r.1.w, r.2)) ∧
      turns o img metaBuf (fuel + 1) s =
        ({ s with queue }, cur) :: if r.2.isNone then turns o img metaBuf fuel r.1 else [] := by
  refine ⟨?_, by rw [turns, hq]; simp only [hr]⟩
  rw [copyLoop, hq]
  dsimp only
  rw [Prog.run_bind, hr]
  obtain ⟨s', _ | e⟩ := r
  · rfl
  · rfl

theorem copyLoop_nil (fuel : ℕ) (hq : s.queue = []) :
    (copyLoop img metaBuf fuel s).run o = (s.w, none) ∧ turns o img metaBuf fuel s = [] := by
  cases fuel with
  | zero => exact ⟨rfl, rfl⟩
  | succ fuel =>
    rw [copyLoop, turns, hq]
    exact ⟨rfl, rfl⟩

theorem Tidy.copyLoop {fuel : ℕ} (h : Tidy s.w)
    (hfits : ∀ t ∈ turns o img metaBuf fuel s, StepFits t.1.w t.2) :
    Tidy ((copyLoop img metaBuf fuel s).run o).1 := by
  induction fuel generalizing s with
  | zero => exact h
  | succ fuel ih =>
    cases hq : s.queue with
    | nil =>
      rw [(copyLoop_nil (fuel + 1) hq).1]
      exact h
    | cons cur queue =>
      obtain ⟨hloop, hturns⟩ := @copyLoop_cons img o metaBuf s cur fuel queue _ hq rfl
      rw [hturns] at hfits
      have h₁ : Tidy ((Writer.copyStep img metaBuf { s with queue } cur).run o).1.w :=
        Tidy.copyStep (s := { s with queue }) h (hfits _ List.mem_cons_self)
      rw [hloop]
      split_ifs with hok
      · rw [if_pos hok] at hfits
        exact ih h₁ fun t ht => hfits t (List.mem_cons_of_mem _ ht)
      · exact h₁

/-- The state the loop starts from, if the copy comes to it. -/
def imageStart (w : Writer) (img : Image) (merge : Bool) : Except GoError Writer := do
  let w ← (w.beginCopy { metadataOnly := true, merge }).setBlockSize img.blockSize
  (w.sourceBuildTime (some img.sb.buildTime)).imageDevices img

/-- The state of the loop before its first turn. -/
def copyStart (w : Writer) (img : Image) : CopyState := ⟨w, [⟨img.sb.rootNid, [], 0⟩], []⟩

/-- The turns of `copyFromImage`. -/
def copyTurns (o : Req → Answer) (w : Writer) (img : Image) : List (CopyState × ImgQEntry) :=
  turns o img (img.readMeta.run o) (queueBound img) (w.copyStart img)

/-- Every entry that the copy of an image takes off its queue fits. -/
def ImageFits (o : Req → Answer) (w : Writer) (img : Image) (merge : Bool) : Prop :=
  ∀ w₀, w.imageStart img merge = .ok w₀ → ∀ t ∈ copyTurns o w₀ img, StepFits t.1.w t.2

theorem SameCopy.imageDevices (h : w.imageDevices img = .ok w') : SameCopy w w' := by
  unfold Writer.imageDevices at h
  cases hc : w.checkDeviceCount (1 + img.devices.length) with
  | error e =>
    rw [hc] at h
    cases h
  | ok _ =>
    rw [hc] at h
    obtain rfl := Except.ok.inj h
    exact ⟨⟨rfl, rfl, rfl, fun _ => .refl _⟩, rfl, rfl⟩

/-- A copy that is refused leaves the tree alone, and any other goes through the image. -/
theorem copyImage_cases (w : Writer) (img : Image) (o : Req → Answer) (actual : Option Int)
    (merge : Bool) :
    (∃ w' e, SameTree w w' ∧ (w.copyImage img actual merge).run o = (w', some e)) ∨
      ∃ w₀, w.imageStart img merge = .ok w₀ ∧
        SameCopy (w.beginCopy { metadataOnly := true, merge }) w₀ ∧
        (w.copyImage img actual merge).run o = (w₀.copyFromImage img actual).run o := by
  have s₀ : SameTree w (w.beginCopy { metadataOnly := true, merge }) :=
    ⟨rfl, rfl, rfl, fun _ => .refl _⟩
  unfold copyImage imageStart
  cases w.wErr with
  | some e => exact .inl ⟨w, e, .refl w, rfl⟩
  | none =>
    cases w.checkNoOpenFile "call CopyFrom" with
    | error e => exact .inl ⟨w, e, .refl w, rfl⟩
    | ok u =>
      dsimp only
      cases hb : (w.beginCopy { metadataOnly := true, merge }).setBlockSize img.blockSize with
      | error e => exact .inl ⟨_, e, s₀, rfl⟩
      | ok w₁ =>
        have s₁ := (@SameCopy.sourceBlockSize _ _ (some (img.blockSize : Int)) hb).trans
          (.sourceBuildTime w₁ (some img.sb.buildTime))
        dsimp only
        cases hd : (w₁.sourceBuildTime (some img.sb.buildTime)).imageDevices img with
        | error e => exact .inl ⟨_, e, s₀.trans s₁.toSameTree, rfl⟩
        | ok w₂ => exact .inr ⟨w₂, hd, s₁.trans (.imageDevices hd), rfl⟩

theorem Tidy.copyFromImage (h : Tidy w) {actual : Option Int}
    (hfits : ∀ t ∈ copyTurns o w img, StepFits t.1.w t.2) :
    Tidy ((w.copyFromImage img actual).run o).1 := by
  unfold Writer.copyFromImage
  split_ifs
  · exact h
  cases checkImage img actual with
  | error e => exact h
  | ok u =>
    dsimp only
    rw [Prog.run_bind]
    exact Tidy.copyLoop (s := w.copyStart img) h hfits

/-- **The copy of an image keeps a Writer well formed**, also one that fails, if what it puts
fits. -/
theorem WellFormed.copyImage_fits (h : WellFormed w) {actual : Option Int} {merge : Bool}
    (hfits : ImageFits o w img merge) : WellFormed ((w.copyImage img actual merge).run o).1 := by
  obtain ⟨w', e, s, hrun⟩ | ⟨w₀, hw₀, s, hrun⟩ := w.copyImage_cases img o actual merge
  · rw [hrun]
    exact s.wellFormed h
  · rw [hrun]
    exact (Tidy.copyFromImage ((h.tidy_beginCopy _).sameCopy s) (hfits w₀ hw₀)).wellFormed

end Writer

end Erofs
