import Erofs.Overlay
import Erofs.Writer.Copy
import Erofs.Writer.Copying

/-!
# One step of a copy

What one call of the callback of `CopyFrom` does to the tree: an entry is put at its path,
or a marker erases.  Everything else the callback does, the data it copies and the metadata
it records, leaves the tree alone.

The main results: `Copying.add` and `Copying.walkStep`, which say that a call that returns
no error is one event of the overlay.
-/

namespace Erofs

open GoPath PathTree Overlay

namespace Writer

variable {w w' w'' : Writer} {g : Path → Option EntryId} {S : Set Path}

/-! ## Data and metadata -/

/-- `w'` differs from `w` in data and metadata only, and the copy goes on as before. -/
structure SameCopy (w w' : Writer) : Prop extends SameTree w w' where
  copyLinks : w'.copyLinks = w.copyLinks
  copyMerge : w'.copyMerge = w.copyMerge

namespace SameCopy

theorem refl (w : Writer) : SameCopy w w := ⟨.refl w, rfl, rfl⟩

theorem trans (s : SameCopy w w') (s' : SameCopy w' w'') : SameCopy w w'' :=
  ⟨s.toSameTree.trans s'.toSameTree, s'.copyLinks.trans s.copyLinks,
    s'.copyMerge.trans s.copyMerge⟩

theorem modify {i : EntryId} {f : FsEntry → FsEntry}
    (hf : SameNode (w.ent i) (f (w.ent i)) := by constructor <;> rfl) :
    SameCopy w (w.modify i f) := ⟨.modify hf, rfl, rfl⟩

theorem andThen {r : Result} {f : Writer → Result} (s : SameCopy w r.1)
    (hf : ∀ v, SameCopy v (f v).1) : SameCopy w (r.andThen f).1 := by
  unfold Result.andThen
  cases r.2 with
  | some e => exact s
  | none => exact s.trans (hf r.1)

theorem writeData (w : Writer) (data : Bytes) (a : WriteAnswer) :
    SameCopy w (w.writeData data a) := ⟨⟨rfl, rfl, rfl, fun _ => .refl _⟩, rfl, rfl⟩

theorem resolveBlockSize (w : Writer) : SameCopy w w.resolveBlockSize := by
  unfold Writer.resolveBlockSize
  split_ifs
  · exact ⟨⟨rfl, rfl, rfl, fun _ => .refl _⟩, rfl, rfl⟩
  · exact .refl w

theorem padData (w : Writer) (a : WriteAnswer) : SameCopy w (w.padData a).1 := by
  unfold Writer.padData
  split_ifs
  · exact .refl w
  · exact .writeData w _ a

theorem alignDataOff (w : Writer) (a : WriteAnswer) : SameCopy w (w.alignDataOff a).1 := by
  unfold Writer.alignDataOff
  split_ifs
  · exact .refl w
  · exact (resolveBlockSize w).trans (padData _ a)

theorem closeDataFile (w : Writer) (e : EntryId) (start written : ℕ) (a : WriteAnswer) :
    SameCopy w (w.closeDataFile e start written a).1 := by
  unfold Writer.closeDataFile
  split_ifs
  · exact .refl w
  · exact ((resolveBlockSize w).trans (padData _ a)).andThen fun v => by
      dsimp only
      exact .modify

theorem copyData (w : Writer) (e : EntryId) (data : Reader) (it : WalkItem) :
    SameCopy w (w.copyData e data it).1 := by
  refine (alignDataOff w it.pad).andThen fun v => ?_
  have hw : SameCopy v ((v.modify e fun x => { x with dataStartOff := v.dataOff }).writeData
      data.bytes it.copied) :=
    SameCopy.trans .modify (writeData _ _ _)
  cases it.copied.err.or data.err with
  | some err => exact hw
  | none =>
    exact hw.trans (SameCopy.trans .modify
      (closeDataFile _ _ _ _ _))

theorem copying (s : SameCopy w w') (h : Copying w g S) : Copying w' g S :=
  s.toSameTree.copying s.copyLinks h

end SameCopy

/-! ## Placing the entry of an item -/

theorem copyMerge_of_bare (h : w'.bare = w.bare) : w'.copyMerge = w.copyMerge :=
  show w'.bare.copyMerge = w.bare.copyMerge by rw [h]

/-- Once the entry is placed, what is left to do concerns data and metadata only. -/
theorem SameCopy.fillEntry (w : Writer) (fe : EntryId) (p : Path) (mode : Mode) (size : ℕ)
    (be : BuilderEntry) (it : WalkItem) : SameCopy w (w.fillEntry fe p mode size be it).1 := by
  unfold Writer.fillEntry
  by_cases hmeta : w.copyMetadataOnly = true
  · rw [if_pos hmeta]
    cases herr : (w.remapChunkDevices p be.chunks).2 with
    | some e =>
      simp only [herr]
      exact .modify
    | none =>
      simp only [herr]
      exact .trans .modify .modify
  · rw [if_neg hmeta]
    cases (if mode.typ = Mode.reg ∧ size > 0 then be.data else none) with
    | none =>
      dsimp only
      exact .modify
    | some data =>
      dsimp only
      by_cases hfile : (w.modify fe fun x =>
          { x with chunks := [], contiguous := false }).dataFile.isSome = true
      · rw [if_pos hfile]
        exact .trans .modify (.copyData _ _ _ _)
      · rw [if_neg hfile]
        dsimp only
        exact .trans .modify .modify

/-- The mode's type is a directory. -/
def modeIsDir (mode : Mode) : Bool := mode.typ == Mode.dir

/-- The paths with something other than a directory at them, once an entry is put at `p`. -/
def withPut (S : Set Path) (p : Path) (isDir : Bool) : Set Path := if isDir then S else insert p S

/-- `w'` is a state of the copy again, and its tree is that of `w` after the event `a`. -/
def Advances (w : Writer) (g : Path → Option EntryId) (a : Event Bytes) (w' : Writer)
    (S' : Set Path) : Prop :=
  ∃ g', Copying w' g' S' ∧ w'.kind g' = apply (w.kind g) a ∧ w'.copyMerge = w.copyMerge

theorem Advances.of_sameCopy {w₁ : Writer} {a : Event Bytes} {S' : Set Path} (s : SameCopy w w₁)
    (h : Advances w₁ g a w' S') : Advances w g a w' S' := by
  obtain ⟨g', hc, hk, hm⟩ := h
  exact ⟨g', hc, by rw [hk, s.toSameTree.kind], hm.trans s.copyMerge⟩

section Add

variable {q : Path} {n : Bytes} {d : EntryId} {mode : Mode} {size : ℕ} {be : BuilderEntry}

theorem modeIsDir_of_sharesInode (hshare : sharesInode mode be = true) :
    modeIsDir mode = false := by
  simp only [sharesInode, Bool.and_eq_true, bne_iff_ne, ne_eq] at hshare
  simpa [modeIsDir] using hshare.1.1

/-- `placeItem` puts the entry at its path, and remembers the inode of a file. -/
theorem Copying.placeItem (h : Copying w g S) {fe : FsEntry} (he : Fresh fe) (hl : fe.linkTo = none)
    (hpath : fe.path = q ++ [n]) (hname : IsName n) (hq : g q = some d)
    (hdir : (w.ent d).isDir = true) (hS : fe.isDir = true → fe.path ∉ S)
    (hp : ∀ r ∈ S, ¬ Below r fe.path) {share : Bool} (hshare : share = true → fe.isDir = false)
    (k : HardlinkKey) :
    Advances w g (.put fe.path fe.isDir) (w.placeItem fe share k).1
      (withPut S fe.path fe.isDir) := by
  have hpl : Places w g S fe (w.placeEntry fe).1 (w.placeEntry fe).2 :=
    h.placeEntry he hl hpath hname hq hdir hS hp
  have hb := copyMerge_of_bare (bare_placeEntry w fe)
  refine ⟨placed fe.isDir g fe.path (w.placeEntry fe).2, ?_, ?_, ?_⟩
  · unfold Writer.placeItem
    split_ifs with hs
    · have hfile := hshare hs
      have hent := hpl.entry
      refine hpl.copying.setCopyLink (p := fe.path) ?_ ?_ ?_ ?_ ?_ _
      · exact Function.update_self _ _ _
      · unfold withEntry
        rw [hfile, if_neg (by simp)]
        exact Set.mem_insert _ _
      · rw [hent]
        exact hl
      · rw [hent]
        exact hfile
      · rw [hent]
        exact he.extra
    · exact hpl.copying
  · unfold Writer.placeItem
    split_ifs
    · exact hpl.kind
    · exact hpl.kind
  · unfold Writer.placeItem
    split_ifs
    · exact hb
    · exact hb

theorem Copying.finishEntry (h : Copying w g S) (hname : IsName n) (hq : g q = some d)
    (hdir : (w.ent d).isDir = true) (hS : modeIsDir mode = true → q ++ [n] ∉ S)
    (hp : ∀ r ∈ S, ¬ Below r (q ++ [n])) (it : WalkItem) :
    Advances w g (.put (q ++ [n]) (modeIsDir mode))
      (w.finishEntry (q ++ [n]) mode size be it).1 (withPut S (q ++ [n]) (modeIsDir mode)) := by
  set fe := newEntry (q ++ [n]) mode size be with hfe
  have s := SameCopy.fillEntry (w.placeItem fe (sharesInode mode be) ⟨be.dev, be.ino⟩).1
    (w.placeEntry fe).2 (q ++ [n]) mode size be it
  have hfresh : Fresh fe := ⟨rfl, rfl, rfl⟩
  have hshare : sharesInode mode be = true → fe.isDir = false := modeIsDir_of_sharesInode
  obtain ⟨g', hc, hk, hm⟩ :=
    h.placeItem hfresh rfl rfl hname hq hdir hS hp hshare ⟨be.dev, be.ino⟩
  exact ⟨g', s.copying hc, s.toSameTree.kind.trans hk, s.copyMerge.trans hm⟩

/-- A parent that is there is left as it is. -/
theorem Copying.ensureParent (h : Copying w g S) (hname : IsName n) (hq : g q = some d)
    (hdir : (w.ent d).isDir = true) : w.ensureParent (q ++ [n]) = .ok w := by
  have hc : Canonical (q ++ [n]) :=
    (h.tree.canonical hq).append fun x hx => by rwa [List.mem_singleton.1 hx]
  have hmissing : w.missingParents (q ++ [n]).length q = .ok [] := by
    rw [List.length_append, List.length_singleton, missingParents]
    split_ifs with hq0
    · rfl
    · rw [h.tree.live hq (h.live hq)]
      have hres : w.resolve d = d := by
        rw [resolve, (h.tree.dirPlain hq hdir).1]
        rfl
      simp only [hres, hdir, if_true]
  rw [Writer.ensureParent, dir_of_canonical hc, List.dropLast_concat, hmissing]
  rfl

/-- The root's metadata changes, not the tree. -/
theorem Copying.setRoot (h : Copying w g S) (hdir : modeIsDir mode = true) :
    Advances w g (.put [] (modeIsDir mode)) (w.setRoot mode be)
      (withPut S [] (modeIsDir mode)) := by
  have hroot : (w.ent w.root).mode.typ = Mode.dir := by
    simpa [FsEntry.isDir] using h.tree.rootDir
  have s : SameCopy w (w.setRoot mode be) := by
    refine .modify ⟨rfl, ?_, rfl, rfl, rfl, rfl, rfl⟩
    rw [hroot]
    simpa [modeIsDir] using hdir
  refine ⟨g, ?_, ?_, s.copyMerge⟩
  · rw [hdir]
    exact s.copying h
  · rw [s.toSameTree.kind, hdir]
    exact (Function.update_eq_self_iff.2
      (kind_eq_some.2 ⟨w.root, h.tree.rootAt, h.tree.rootDir⟩).symm).symm

/-- A check returns its error with the Writer as it was, or lets the step go on. -/
theorem check_cases {α : Type} (w : Writer) (c : Except GoError α) (f : α → Result) :
    (∃ e, w.check c f = (w, some e)) ∨ ∃ a, c = .ok a ∧ w.check c f = f a := by
  cases c with
  | error e => exact .inl ⟨e, rfl⟩
  | ok a => exact .inr ⟨a, rfl, rfl⟩

/-- A step that returned no error passed its check. -/
theorem check_ok {α : Type} {c : Except GoError α} {f : α → Result}
    (hok : (w.check c f).2 = none) : ∃ a, c = .ok a ∧ w.check c f = f a := by
  refine (w.check_cases c f).resolve_left ?_
  rintro ⟨e, he⟩
  rw [he] at hok
  cases hok

/-- The source's entry at `p` can be added: its directory is there and nothing the copy has put
above it is in the way. -/
structure Ready (w : Writer) (g : Path → Option EntryId) (S : Set Path) (p : Path) : Prop where
  canonical : Canonical p
  parent : p ≠ [] → w.kind g p.dropLast = some true
  above : ∀ r ∈ S, ¬ Below r p

theorem Ready.mono {w₁ : Writer} {p : Path} (s : SameCopy w w₁) (h : Ready w g S p) :
    Ready w₁ g S p :=
  ⟨h.canonical, fun hne => by rw [s.toSameTree.kind, h.parent hne], h.above⟩

theorem Copying.addAliasEntry (h : Copying w g S) (hname : IsName n) (hq : g q = some d)
    (hdir : (w.ent d).isDir = true) (hp : ∀ r ∈ S, ¬ Below r (q ++ [n])) {k : HardlinkKey}
    {prior : EntryId} (hk : w.priorName k = some prior) (hfile : modeIsDir mode = false)
    (hok : w.addAlias (q ++ [n]) prior = .ok w') :
    Advances w g (.put (q ++ [n]) (modeIsDir mode)) w' (withPut S (q ++ [n]) (modeIsDir mode)) := by
  have hk' : w.copyLinks k = some prior := by
    unfold priorName at hk
    split at hk
    · rename_i t ht
      split_ifs at hk
      rw [ht, hk]
    · cases hk
  obtain ⟨g', hc, hkind⟩ := h.addAlias hname hq hdir hp hk' hok
  rw [hfile]
  exact ⟨g', hc, hkind, copyMerge_of_bare (bare_addAlias hok)⟩

/-- `add` once its checks have passed, `be` being the metadata it settled on. -/
def addChecked (w : Writer) (p : Path) (mode : Mode) (size : ℕ) (be : BuilderEntry)
    (it : WalkItem) : Result :=
  if p = [] then (w.setRoot mode be, none)
  else w.check (w.ensureParent p) fun w =>
    match (if sharesInode mode be then w.priorName ⟨be.dev, be.ino⟩ else none) with
    | some prior => w.check (w.addAlias p prior) fun w => (w, none)
    | none => w.finishEntry p mode size be it

theorem add_cases (w : Writer) (p : Path) (info : FileInfo) (sys : Except GoError BuilderEntry)
    (it : WalkItem) :
    (∃ e, w.add p info sys it = (w, some e)) ∨ ∃ be, w.add p info sys it =
      w.addChecked p (goModeToUnixMode info.mode) info.size.toNat be it := by
  unfold Writer.add
  dsimp only
  obtain ⟨err, e⟩ | ⟨_, -, e⟩ := w.check_cases (checkPathLen p) _
  · exact .inl ⟨err, e⟩
  rw [e]
  obtain ⟨err, e⟩ | ⟨_, -, e⟩ := w.check_cases (checkNameLen p) _
  · exact .inl ⟨err, e⟩
  rw [e]
  by_cases hsize : info.size < 0
  · rw [if_pos hsize]
    exact .inl ⟨_, rfl⟩
  rw [if_neg hsize]
  obtain ⟨err, e⟩ | ⟨be, -, e⟩ := w.check_cases sys _
  · exact .inl ⟨err, e⟩
  rw [e]
  obtain ⟨err, e⟩ | ⟨_, -, e⟩ := w.check_cases
    (if (goModeToUnixMode info.mode).typ = Mode.symlink then checkSymlinkTarget p be.linkTarget
      else .ok ()) _
  · exact .inl ⟨err, e⟩
  rw [e]
  obtain ⟨err, e⟩ | ⟨_, -, e⟩ := w.check_cases (validateXattrs p be.xattrs) _
  · exact .inl ⟨err, e⟩
  rw [e]
  exact .inr ⟨withModTime be info, rfl⟩

theorem add_eq {p : Path} {info : FileInfo} {sys : Except GoError BuilderEntry} {it : WalkItem}
    (hok : (w.add p info sys it).2 = none) :
    ∃ be, w.add p info sys it =
      w.addChecked p (goModeToUnixMode info.mode) info.size.toNat be it := by
  refine (w.add_cases p info sys it).resolve_left ?_
  rintro ⟨e, he⟩
  rw [he] at hok
  cases hok

theorem Copying.addChecked (h : Copying w g S) {p : Path} {it : WalkItem} (hr : Ready w g S p)
    (hroot : p = [] → modeIsDir mode = true) (hS : modeIsDir mode = true → p ∉ S)
    (hok : (w.addChecked p mode size be it).2 = none) :
    Advances w g (.put p (modeIsDir mode)) (w.addChecked p mode size be it).1
      (withPut S p (modeIsDir mode)) := by
  unfold Writer.addChecked at hok ⊢
  by_cases hp : p = []
  · rw [if_pos hp]
    rw [hp]
    exact h.setRoot (hroot hp)
  · rw [if_neg hp] at hok ⊢
    obtain ⟨q, n, rfl⟩ := (List.eq_nil_or_concat' p).resolve_left hp
    have hpar := hr.parent hp
    rw [List.dropLast_concat] at hpar
    obtain ⟨d, hq, hdir⟩ := kind_eq_some.1 hpar
    have hname : IsName n := hr.canonical n (by simp)
    obtain ⟨w₁, hw₁, e⟩ := check_ok hok
    rw [h.ensureParent hname hq hdir] at hw₁
    obtain rfl := Except.ok.inj hw₁
    rw [e] at hok ⊢
    cases hprior : (if sharesInode mode be then w.priorName ⟨be.dev, be.ino⟩ else none) with
    | some prior =>
      rw [hprior] at hok
      split_ifs at hprior with hshare
      obtain ⟨w₂, hw₂, e⟩ := check_ok hok
      dsimp only at e ⊢
      rw [e]
      exact h.addAliasEntry hname hq hdir hr.above hprior (modeIsDir_of_sharesInode hshare) hw₂
    | none => exact h.finishEntry hname hq hdir hS hr.above it

/-- `add` puts its entry at the path and leaves the rest of the tree alone. -/
theorem Copying.add (h : Copying w g S) {p : Path} {info : FileInfo}
    {sys : Except GoError BuilderEntry} {it : WalkItem} (hr : Ready w g S p)
    (hroot : p = [] → modeIsDir (goModeToUnixMode info.mode) = true)
    (hS : modeIsDir (goModeToUnixMode info.mode) = true → p ∉ S)
    (hok : (w.add p info sys it).2 = none) :
    Advances w g (.put p (modeIsDir (goModeToUnixMode info.mode))) (w.add p info sys it).1
      (withPut S p (modeIsDir (goModeToUnixMode info.mode))) := by
  obtain ⟨be, e⟩ := add_eq hok
  rw [e] at hok ⊢
  exact h.addChecked hr hroot hS hok

end Add

/-! ## One call of the callback -/

/-- The call ends in `add`, of the same path and with nothing but metadata changed before. -/
def EndsInAdd (w : Writer) (info : FileInfo) (it : WalkItem) (r : Result) : Prop :=
  ∃ w₁ sys, SameCopy w w₁ ∧ r = w₁.add it.path info sys it

theorem EndsInAdd.now (w : Writer) (info : FileInfo) (sys : Except GoError BuilderEntry)
    (it : WalkItem) : EndsInAdd w info it (w.add it.path info sys it) := ⟨w, sys, .refl w, rfl⟩

/-- The call fails before `add`. -/
def FailsEarly (w : Writer) (r : Result) : Prop := SameCopy w r.1 ∧ r.2.isSome = true

theorem FailsEarly.now (w : Writer) (e : GoError) : FailsEarly w (w, some e) := ⟨.refl w, rfl⟩

theorem addRegular_ends (w : Writer) (src : Source) (info : FileInfo) (be : Option BuilderEntry)
    (it : WalkItem) :
    EndsInAdd w info it (w.addRegular src info be it) ∨
      FailsEarly w (w.addRegular src info be it) := by
  unfold addRegular
  dsimp only
  by_cases hmeta : w.copyMetadataOnly = true
  · rw [if_pos hmeta]
    obtain ⟨err, e⟩ | ⟨be, -, e⟩ := w.check_cases (orEntry be it.path info) _
    · rw [e]
      exact .inr (.now w err)
    rw [e]
    have s : SameCopy w
        (if be.chunks = [] ∧ info.dataRange ≠ [] then w.resolveBlockSize else w) := by
      split_ifs
      · exact .resolveBlockSize w
      · exact .refl w
    obtain ⟨err, e⟩ | ⟨be', -, e⟩ := check_cases _ (withRanges _ it.path info be) _
    · rw [e]
      exact .inr ⟨s, rfl⟩
    · rw [e]
      exact .inl ⟨_, _, s, rfl⟩
  · rw [if_neg hmeta]
    cases hdirect : (if src.image.isSome ∧ info.sys.isStat then it.direct else none) with
    | some dr => exact .inl (.now w info _ it)
    | none =>
      obtain ⟨err, e⟩ | ⟨be, -, e⟩ := w.check_cases (orEntry be it.path info) _
      · dsimp only at e ⊢
        rw [e]
        exact .inr (.now w err)
      dsimp only at e ⊢
      rw [e]
      cases it.file with
      | error err => exact .inr (.now w _)
      | ok f => exact .inl (.now w info _ it)

theorem addItem_ends (w : Writer) (src : Source) (info : FileInfo) (it : WalkItem) :
    EndsInAdd w info it (w.addItem src info it) ∨ FailsEarly w (w.addItem src info it) := by
  unfold addItem
  obtain ⟨err, e⟩ | ⟨be, -, e⟩ := w.check_cases (sysEntry it.path info) _
  · dsimp only at e ⊢
    rw [e]
    exact .inr (.now w err)
  dsimp only at e ⊢
  rw [e]
  split_ifs with hreg hlink hdir
  · exact addRegular_ends w src info be it
  · cases it.link with
    | error err => exact .inr (.now w _)
    | ok target =>
      dsimp only
      obtain ⟨err, e⟩ | ⟨be, -, e⟩ := w.check_cases (orEntry be it.path info) _
      · rw [e]
        exact .inr (.now w err)
      · rw [e]
        exact .inl (.now w info _ it)
  · obtain ⟨err, e⟩ | ⟨be, -, e⟩ := w.check_cases (orEntry be it.path info) _
    · rw [e]
      exact .inr (.now w err)
    · rw [e]
      exact .inl (.now w info _ it)
  · exact .inl (.now w info _ it)

/-- The path names a whiteout marker. -/
def isMarker (p : Path) : Bool := p ≠ [] && isWhiteout (base p)

/-- The name after the marker's own beginning. -/
def markedName (p : Path) : Bytes := (base p).drop whiteoutPrefix.length

/-- The sibling that a marker which is not opaque names. -/
def marked (p : Path) : Path := p.dropLast ++ [markedName p]

end Writer

/-- The item is a directory, as `add` sees it. -/
def WalkItem.isDir (it : WalkItem) : Bool :=
  match it.info with
  | .ok info => Writer.modeIsDir (goModeToUnixMode info.mode)
  | .error _ => false

namespace Writer

/-- What the item does to the tree. -/
def itemEvent (merge : Bool) (it : WalkItem) : Event Bytes :=
  if merge && isMarker it.path then
    if base it.path = opaqueWhiteout then .clear it.path.dropLast else .erase (marked it.path)
  else .put it.path it.isDir

/-- The paths with something other than a directory at them, once the item is dealt with. -/
def withItem (merge : Bool) (S : Set Path) (it : WalkItem) : Set Path :=
  if merge && isMarker it.path then S else withPut S it.path it.isDir

/-- The callback can deal with the item. -/
structure ItemReady (w : Writer) (g : Path → Option EntryId) (S : Set Path) (it : WalkItem) : Prop
    extends Ready w g S it.path where
  root : it.path = [] → it.isDir = true
  fresh : it.isDir = true → it.path ∉ S
  name : w.copyMerge = true → isMarker it.path = true → base it.path ≠ opaqueWhiteout →
    IsName (markedName it.path)

/-- A marker erases what it names and nothing else. -/
theorem Copying.applyMarker (h : Copying w g S) {it : WalkItem} (hr : ItemReady w g S it)
    (hmerge : w.copyMerge = true) (hm : isMarker it.path = true) :
    Advances w g (itemEvent true it) (w.applyMarker it.path) S := by
  have hne : it.path ≠ [] := by
    simp only [isMarker, Bool.and_eq_true, decide_eq_true_eq] at hm
    exact hm.1
  have hsib : ∀ n, ∀ r ∈ S, ¬ Below r (it.path.dropLast ++ [n]) := by
    intro n r hrS hb
    have hpar := hb.dropLast
    rw [List.dropLast_concat] at hpar
    exact hr.above r hrS (prefix_trans_below hpar (below_dropLast hne))
  unfold Writer.applyMarker itemEvent
  rw [hm, Bool.and_true, if_pos rfl, dir_of_canonical hr.canonical]
  by_cases hopq : base it.path = opaqueWhiteout
  · rw [if_pos hopq, if_pos hopq]
    obtain ⟨hc, hk⟩ := h.removeChildren (p := it.path.dropLast)
      (fun r hrS hb => hr.above r hrS (hb.mono (List.dropLast_prefix _)))
      (by rw [hr.parent hne]; simp)
    exact ⟨_, hc, hk, copyMerge_of_bare (bare_removeChildren w _)⟩
  · rw [if_neg hopq, if_neg hopq, ← markedName]
    have hname := hr.name hmerge hm hopq
    have hjoin : joinElem it.path.dropLast (markedName it.path) = marked it.path :=
      clean_eq_self (hr.canonical.dropLast.append fun x hx => by rwa [List.mem_singleton.1 hx])
    obtain ⟨hc, hk⟩ := h.removeTree (p := marked it.path) (by simp [marked]) (hsib _)
    rw [hjoin]
    exact ⟨_, hc, hk, copyMerge_of_bare (bare_removeTree w _)⟩

/-- A call of the callback that returns no error is one event of the overlay. -/
theorem Copying.walkStep (h : Copying w g S) {src : Source} {it : WalkItem}
    (hr : ItemReady w g S it) (hok : (walkStep src w it).2 = none) :
    Advances w g (itemEvent w.copyMerge it) (walkStep src w it).1 (withItem w.copyMerge S it) := by
  unfold Writer.walkStep at hok ⊢
  cases herr : it.err with
  | some e =>
    rw [herr] at hok
    cases hok
  | none =>
    rw [herr] at hok
    dsimp only at hok ⊢
    cases hinfo : it.info with
    | error e =>
      rw [hinfo] at hok
      cases hok
    | ok info =>
      rw [hinfo] at hok
      dsimp only at hok ⊢
      have hdir : it.isDir = modeIsDir (goModeToUnixMode info.mode) := by
        rw [WalkItem.isDir, hinfo]
      by_cases hm : w.copyMerge = true ∧ isMarker it.path = true
      · have hcond : w.copyMerge = true ∧ it.path ≠ [] ∧ isWhiteout (base it.path) = true := by
          simpa [isMarker] using hm
        rw [if_pos hcond, withItem, hm.1, hm.2, Bool.and_true, if_pos rfl]
        exact h.applyMarker hr hm.1 hm.2
      · have hcond : ¬ (w.copyMerge = true ∧ it.path ≠ [] ∧ isWhiteout (base it.path) = true) := by
          simpa [isMarker] using hm
        have hnot : ¬ (w.copyMerge && isMarker it.path) = true := by simpa using hm
        rw [if_neg hcond] at hok ⊢
        rw [withItem, itemEvent, if_neg hnot, if_neg hnot, hdir]
        obtain ⟨w₁, sys, s, e⟩ := (addItem_ends w src info it).resolve_right fun hf => by
          simpa [hok] using hf.2
        rw [e] at hok ⊢
        refine .of_sameCopy s ((s.copying h).add (hr.toReady.mono s) ?_ ?_ hok)
        · rw [← hdir]
          exact hr.root
        · rw [← hdir]
          exact hr.fresh

end Writer

end Erofs
