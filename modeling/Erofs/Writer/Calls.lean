import Erofs.Writer.Api
import Erofs.Writer.Build
import Erofs.Writer.CleanPath
import Erofs.Writer.ImageStep

/-!
# Runs of calls

A Writer is used by a sequence of calls, of its own methods and of those of its files; a call that
fails may have changed the Writer, and the next one finds it so.  Every call keeps a Writer well
formed, as long as the paths it creates do not climb and the copies put nothing where it does not
fit.

The main results:

* `WellFormed.call`, `WellFormed.run` — one call, and a run of them;
* `names_distinct` — cleaning is canonical exactly for the paths that do not climb, and in a run
  whose calls fit no directory has two live children of one name.
-/

namespace Erofs

open GoPath PathTree Oracle

namespace Writer

variable {w w' : Writer}

/-! ## Calls -/

/-- A call, with what the stores, the source image and the writing of the image answer. -/
inductive Call
  | createFile (name : Bytes) (pad : WriteAnswer) (temp : Option GoError)
  | mkdir (name : Bytes) (perm : FileMode)
  | symlink (oldname newname : Bytes)
  | link (oldname newname : Bytes)
  | mknod (name : Bytes) (mode : FileMode) (rdev : ℕ)
  | chmod (name : Bytes) (mode : FileMode)
  | chown (name : Bytes) (uid gid : Int)
  | chtimes (name : Bytes) (atime mtime : Time)
  | setxattr (name attr value : Bytes)
  | setNlink (name : Bytes) (nlink : ℕ)
  | remove (name : Bytes)
  | removeAll (name : Bytes)
  | copyFrom (src : Source) (opts : CopyOpts)
  | copyImage (o : Req → Answer) (img : Image) (actual : Option Int) (merge : Bool)
  | fileWrite (f : FileId) (data : Bytes) (a : WriteAnswer)
  | fileReadFrom (f : FileId) (r : Reader) (a : WriteAnswer)
  | fileClose (f : FileId) (a : WriteAnswer)
  | fileChmod (f : FileId) (mode : FileMode)
  | fileChown (f : FileId) (uid gid : Int)
  | close (write : Option GoError)

/-- Make a call. -/
def call (w : Writer) : Call → Result
  | .createFile name pad temp => w.createFile name pad temp
  | .mkdir name perm => w.mkdir name perm
  | .symlink oldname newname => w.symlink oldname newname
  | .link oldname newname => w.link oldname newname
  | .mknod name mode rdev => w.mknod name mode rdev
  | .chmod name mode => w.chmod name mode
  | .chown name uid gid => w.chown name uid gid
  | .chtimes name atime mtime => w.chtimes name atime mtime
  | .setxattr name attr value => w.setxattr name attr value
  | .setNlink name nlink => w.setNlink name nlink
  | .remove name => w.remove name
  | .removeAll name => w.removeAll name
  | .copyFrom src opts => w.copyFrom src opts
  | .copyImage o img actual merge => (w.copyImage img actual merge).run o
  | .fileWrite f data a => w.fileWrite f data a
  | .fileReadFrom f r a => w.fileReadFrom f r a
  | .fileClose f a => w.fileClose f a
  | .fileChmod f mode => w.fileChmod f mode
  | .fileChown f uid gid => w.fileChown f uid gid
  | .close write => w.close write

/-- Make the calls one after the other. -/
def run (w : Writer) (calls : List Call) : Writer := calls.foldl (fun w c => (w.call c).1) w

/-- The path the call creates does not climb, and what a copy puts fits. -/
def CallFits (w : Writer) : Call → Prop
  | .createFile name _ _ => StaysInside name
  | .mkdir name _ => StaysInside name
  | .symlink _ newname => StaysInside newname
  | .link _ newname => StaysInside newname
  | .mknod name _ _ => StaysInside name
  | .copyFrom src opts => CopyFits w src opts
  | .copyImage o img _ merge => ImageFits o w img merge
  | _ => True

/-- Every call of the run fits. -/
def RunFits : Writer → List Call → Prop
  | _, [] => True
  | w, c :: calls => CallFits w c ∧ RunFits (w.call c).1 calls

/-! ## Creating entries -/

theorem WellFormed.unlessFailed (h : WellFormed w) {r : Result} (hr : WellFormed r.1) :
    WellFormed (w.unlessFailed r).1 := by
  unfold Writer.unlessFailed
  cases w.wErr with
  | some e => exact h
  | none => exact hr

theorem WellFormed.check (h : WellFormed w) {α : Type} {c : Except GoError α} {f : α → Result}
    (hf : ∀ a, c = .ok a → WellFormed (f a).1) : WellFormed (w.check c f).1 := by
  obtain ⟨err, e⟩ | ⟨a, ha, e⟩ := w.check_cases c f
  · rw [e]
    exact h
  · rw [e]
    exact hf a ha

/-- A path `checkPath` lets pass is free. -/
theorem checkPath_free {p : Path} (h : w.checkPath p = .ok ()) : w.byPath p = none := by
  unfold checkPath at h
  obtain ⟨-, h⟩ := guard_ok h
  obtain ⟨_, -, h⟩ := except_bind_ok h
  obtain ⟨_, -, h⟩ := except_bind_ok h
  split_ifs at h with hp
  simpa using hp

/-- A free path whose directory is there. -/
structure Free (w : Writer) (p : Path) (d : EntryId) (n : Bytes) : Prop where
  split : p = p.dropLast ++ [n]
  name : IsName n
  parent : w.byPath p.dropLast = some d
  dir : (w.ent d).isDir = true
  free : w.byPath p = none

/-- `ensureParent` of a free path. -/
theorem WellFormed.free (h : WellFormed w) {p : Path} (hp : Canonical p) (hne : p ≠ [])
    (hfree : w.byPath p = none) (hok : w.ensureParent p = .ok w') :
    WellFormed w' ∧ Extends w w' ∧ ∃ d n, Free w' p d n := by
  obtain ⟨hwf, s, ⟨d, hd, hdir⟩, hother⟩ := h.ensureParent hp hok
  refine ⟨hwf, s, d, p.getLast hne, (List.dropLast_append_getLast hne).symm,
    hp _ (List.getLast_mem hne), hd, hdir, ?_⟩
  rw [hother p (below_dropLast hne).not_above, hfree]

theorem Free.addChild {e : FsEntry} {d : EntryId} {n : Bytes} (hfree : Free w e.path d n)
    (h : WellFormed w) (he : Fresh e) (hl : e.linkTo = none) : WellFormed (w.addChild e) :=
  (h.addChild he hfree.split hfree.name hfree.parent hfree.dir hfree.free hl).1

/-- The inode that a name other than a directory's stands for. -/
theorem WellFormed.resolve_file (h : WellFormed w) {p : Path} {e : EntryId}
    (hp : w.byPath p = some e) (hfile : (w.ent (w.resolve e)).isDir = false) :
    w.resolve e < w.next ∧ (w.ent (w.resolve e)).linkTo = none ∧ w.Bare (w.resolve e) := by
  unfold resolve at hfile ⊢
  cases hl : (w.ent e).linkTo with
  | none =>
    rw [hl] at hfile
    exact ⟨h.tree.regLt hp, hl, h.files hp hfile⟩
  | some t =>
    obtain ⟨hlt, htl, -, -⟩ := h.tree.aliasOf hp hl
    exact ⟨hlt, htl, h.aliases hp hl⟩

section Create

variable {e : FsEntry} {name oldname newname : Bytes}

theorem WellFormed.addNew (h : WellFormed w) (he : Fresh e) (hl : e.linkTo = none)
    (hp : Canonical e.path) (hne : e.path ≠ []) : WellFormed (w.addNew e).1 := by
  refine h.check fun u hfree => h.check fun w' hok => ?_
  obtain ⟨hwf, -, d, n, hfree⟩ := h.free hp hne (checkPath_free hfree) hok
  exact hfree.addChild hwf he hl

theorem SameCopy.openStore (w : Writer) (e : EntryId) (pad : WriteAnswer) (temp : Option GoError) :
    SameCopy w (w.openStore e pad temp).1 := by
  have hopen : ∀ (v : Writer) (start : ℕ), SameCopy v (v.openEntry e start) := fun v start =>
    ⟨⟨rfl, rfl, rfl, fun _ => .refl _⟩, rfl, rfl⟩
  unfold Writer.openStore
  split_ifs with hdata
  · refine (SameCopy.alignDataOff w pad).andThen fun v => ?_
    dsimp only
    exact SameCopy.trans .modify (hopen _ _)
  · have hspool : SameCopy w (w.ensureSpool temp).1 := by
      unfold ensureSpool
      split_ifs
      · exact .refl w
      · cases temp with
        | some err => exact .refl w
        | none => exact ⟨⟨rfl, rfl, rfl, fun _ => .refl _⟩, rfl, rfl⟩
    refine hspool.andThen fun v => ?_
    dsimp only
    exact SameCopy.trans .modify (hopen _ _)

theorem WellFormed.createFile (h : WellFormed w) (hname : StaysInside name) (pad : WriteAnswer)
    (temp : Option GoError) : WellFormed (w.createFile name pad temp).1 := by
  refine h.unlessFailed (h.check fun _ _ => ?_)
  dsimp only
  split_ifs with hroot
  · exact h
  refine h.check fun u hfree => h.check fun w' hok => ?_
  obtain ⟨hwf, -, d, n, hfree⟩ :=
    h.free (canonical_cleanPath hname) hroot (checkPath_free hfree) hok
  have hadd := @Free.addChild w' { path := cleanPath name, mode := Mode.reg ||| 0o644#16 } d n
    hfree hwf ⟨rfl, rfl, rfl⟩ rfl
  exact (SameCopy.openStore _ _ pad temp).toSameTree.wellFormed hadd

theorem WellFormed.mkdir (h : WellFormed w) (hname : StaysInside name) (perm : FileMode) :
    WellFormed (w.mkdir name perm).1 := by
  refine h.unlessFailed ?_
  dsimp only
  split_ifs with hroot
  · -- the root keeps its type
    dsimp only
    refine SameTree.wellFormed (SameTree.modify ?_) h
    refine ⟨rfl, ?_, rfl, rfl, rfl, rfl, rfl⟩
    have hdir := h.tree.rootDir
    rw [FsEntry.isDir, beq_iff_eq] at hdir
    have htyp : Mode.dir ||| (goModeToUnixMode perm &&& ~~~Mode.typeMask) =
        Mode.withPerm Mode.dir (goModeToUnixMode perm) := rfl
    rw [hdir, htyp, Mode.typ_withPerm]
    rfl
  · exact h.addNew ⟨rfl, rfl, rfl⟩ rfl (canonical_cleanPath hname) hroot

theorem WellFormed.symlink (h : WellFormed w) (hname : StaysInside newname) :
    WellFormed (w.symlink oldname newname).1 := by
  refine h.unlessFailed ?_
  dsimp only
  split_ifs with hroot
  · exact h
  · exact h.check fun _ _ => h.addNew ⟨rfl, rfl, rfl⟩ rfl (canonical_cleanPath hname) hroot

theorem WellFormed.link (h : WellFormed w) (hname : StaysInside newname) :
    WellFormed (w.link oldname newname).1 := by
  refine h.unlessFailed ?_
  dsimp only
  split_ifs with hroot
  · exact h
  cases hold : w.byPath (cleanPath oldname) with
  | none => exact h
  | some e =>
    dsimp only
    split_ifs with hdir
    · exact h
    refine h.check fun u hfree => h.check fun w' hok => ?_
    obtain ⟨hwf, s, d, n, hfree⟩ :=
      h.free (canonical_cleanPath hname) hroot (checkPath_free hfree) hok
    have hfile : (w.ent (w.resolve e)).isDir = false := by simpa using hdir
    obtain ⟨htn, htl, htb⟩ := h.resolve_file hold hfile
    have hadd := hwf.addAliasChild hfree.name hfree.parent hfree.dir (hfree.split ▸ hfree.free)
      (htn.trans_le s.next) ((s.linkTo htn).trans htl) ((s.isDir htn).trans hfile)
      (s.bare h htn hfile htb)
    rw [← hfree.split] at hadd
    exact hadd.1

theorem WellFormed.mknod (h : WellFormed w) (hname : StaysInside name) (mode : FileMode)
    (rdev : ℕ) : WellFormed (w.mknod name mode rdev).1 := by
  refine h.unlessFailed ?_
  dsimp only
  split_ifs with hroot
  · exact h
  refine h.check fun u hfree => ?_
  cases nodeRdev (goModeToUnixMode mode).typ rdev with
  | none => exact h
  | some rdev =>
    refine h.check fun w' hok => ?_
    obtain ⟨hwf, -, d, n, hfree⟩ :=
      h.free (canonical_cleanPath hname) hroot (checkPath_free hfree) hok
    exact hfree.addChild hwf ⟨rfl, rfl, rfl⟩ rfl

end Create

/-! ## Metadata, removals and files -/

/-- A method that ends in an assignment of metadata. -/
theorem WellFormed.assigned (h : WellFormed w) {i : EntryId} {f : FsEntry → FsEntry}
    (hf : ∀ e, SameNode e (f e) := by intro e; constructor <;> rfl) :
    WellFormed ((w.modify i f, none) : Result).1 :=
  SameTree.wellFormed (SameTree.modify (hf _)) h

theorem WellFormed.setMeta (h : WellFormed w) {name : Bytes} {f : FsEntry → FsEntry}
    (hf : ∀ e, SameNode e (f e) := by intro e; constructor <;> rfl) :
    WellFormed (w.setMeta name f).1 :=
  h.unlessFailed (h.check fun _ _ => h.assigned hf)

/-- Replacing the permission bits keeps an entry where it is. -/
theorem SameNode.withPerm (e : FsEntry) (perm : Mode) :
    SameNode e { e with mode := e.mode.withPerm perm } :=
  ⟨rfl, Mode.typ_withPerm _ _, rfl, rfl, rfl, rfl, rfl⟩

theorem WellFormed.chown (h : WellFormed w) {name : Bytes} {uid gid : Int} :
    WellFormed (w.chown name uid gid).1 := by
  refine h.unlessFailed (h.check fun e _ => ?_)
  cases checkOwner uid gid with
  | error err => exact h
  | ok owner => exact h.assigned

theorem WellFormed.remove (h : WellFormed w) {name : Bytes} : WellFormed (w.remove name).1 := by
  refine h.unlessFailed ?_
  dsimp only
  split_ifs with hroot
  · exact h
  cases hp : w.byPath (cleanPath name) with
  | none => exact h
  | some e =>
    refine h.check fun _ _ => ?_
    split_ifs with hfull
    · exact h
    refine (h.unlinkEntry hp hroot fun hdir c hc => ?_).1
    simp only [hdir, true_and, not_exists, not_and] at hfull
    simpa using hfull c hc

theorem WellFormed.removeAll (h : WellFormed w) {name : Bytes} :
    WellFormed (w.removeAll name).1 := by
  refine h.unlessFailed ?_
  dsimp only
  by_cases hroot : cleanPath name = []
  · rw [if_pos hroot]
    exact h
  rw [if_neg hroot]
  cases w.byPath (cleanPath name) with
  | none =>
    dsimp only
    split_ifs
    · exact h
    · exact h
  | some e =>
    dsimp only
    cases w.openFile.filter fun f => w.inSubtreeOf e w.next (w.files f).entry with
    | some f => exact h.check fun _ _ => h
    | none => exact ((h.removesTree hroot).wellFormed h fun hq => (prune_some.1 hq).2).1

theorem SameTree.fileWrite (w : Writer) (f : FileId) (data : Bytes) (a : WriteAnswer) :
    SameTree w (w.fileWrite f data a).1 := by
  unfold Writer.fileWrite
  split_ifs
  · exact .refl w
  · exact ⟨rfl, rfl, rfl, fun _ => .refl _⟩
  · exact ⟨rfl, rfl, rfl, fun _ => .refl _⟩

theorem SameTree.fileReadFrom (w : Writer) (f : FileId) (r : Reader) (a : WriteAnswer) :
    SameTree w (w.fileReadFrom f r a).1 := by
  have hw := SameTree.fileWrite w f r.bytes a
  unfold Writer.fileReadFrom Result.andThen
  split_ifs
  · exact .refl w
  · cases (w.fileWrite f r.bytes a).2 with
    | some e => exact hw
    | none => exact hw

theorem SameTree.fileClose (w : Writer) (f : FileId) (a : WriteAnswer) :
    SameTree w (w.fileClose f a).1 := by
  unfold Writer.fileClose
  dsimp only
  by_cases hclosed : (w.files f).closed = true
  · rw [if_pos hclosed]
    exact .refl w
  rw [if_neg hclosed]
  set v : Writer := { w with
    files := Function.update w.files f { w.files f with closed := true }
    openFile := if w.openFile = some f then none else w.openFile }
  -- whatever the store does, the file is closed and its size recorded
  have hclose : SameTree w (v.modify (w.files f).entry fun e =>
      { e with fileClosed := true, size := (w.files f).written }) := by
    refine SameTree.trans (⟨rfl, rfl, rfl, fun _ => .refl _⟩ : SameTree w v) (SameTree.modify ?_)
    exact ⟨rfl, rfl, rfl, rfl, rfl, rfl, rfl⟩
  split_ifs
  · exact hclose.trans (SameCopy.closeDataFile _ _ _ _ _).toSameTree
  · exact hclose

theorem SameTree.beginClose (w : Writer) : SameTree w w.beginClose := by
  have h₀ : SameTree w { w with closed := true } := ⟨rfl, rfl, rfl, fun _ => .refl _⟩
  have h₁ := h₀.trans (SameCopy.resolveBlockSize { w with closed := true }).toSameTree
  unfold Writer.beginClose
  dsimp only
  split_ifs
  · exact h₁.trans ⟨rfl, rfl, rfl, fun _ => .refl _⟩
  · exact h₁

theorem WellFormed.close (h : WellFormed w) (write : Option GoError) :
    WellFormed (w.close write).1 := by
  unfold Writer.close
  cases w.wErr with
  | some e => exact h
  | none =>
    dsimp only
    split_ifs
    · exact h
    · refine h.check fun _ _ => ?_
      have s : SameTree w.beginClose w.beginClose.buildErofsTree.1 :=
        ⟨rfl, rfl, rfl, fun _ => .refl _⟩
      exact ((SameTree.beginClose w).trans s).wellFormed h

/-! ## Runs -/

/-- **A call keeps a Writer well formed**, also one that fails, if it fits. -/
theorem WellFormed.call (h : WellFormed w) {c : Call} (hfit : CallFits w c) :
    WellFormed (w.call c).1 := by
  cases c with
  | createFile name pad temp => exact h.createFile hfit pad temp
  | mkdir name perm => exact h.mkdir hfit perm
  | symlink oldname newname => exact h.symlink hfit
  | link oldname newname => exact h.link hfit
  | mknod name mode rdev => exact h.mknod hfit mode rdev
  | chmod name mode => exact h.setMeta fun e => .withPerm e _
  | chown name uid gid => exact h.chown
  | chtimes name atime mtime => exact h.setMeta
  | setxattr name attr value =>
    exact h.unlessFailed (h.check fun _ _ => h.check fun _ _ => h.assigned)
  | setNlink name nlink => exact h.setMeta
  | remove name => exact h.remove
  | removeAll name => exact h.removeAll
  | copyFrom src opts => exact h.copyFrom_fits hfit
  | copyImage o img actual merge => exact h.copyImage_fits hfit
  | fileWrite f data a => exact (SameTree.fileWrite w f data a).wellFormed h
  | fileReadFrom f r a => exact (SameTree.fileReadFrom w f r a).wellFormed h
  | fileClose f a => exact (SameTree.fileClose w f a).wellFormed h
  | fileChmod f mode => exact h.assigned fun e => .withPerm e _
  | fileChown f uid gid =>
    show WellFormed (w.fileChown f uid gid).1
    unfold Writer.fileChown
    cases checkOwner uid gid with
    | error err => exact h
    | ok owner => exact h.assigned
  | close write => exact h.close write

theorem WellFormed.run (h : WellFormed w) {calls : List Call} (hfits : RunFits w calls) :
    WellFormed (w.run calls) := by
  induction calls generalizing w with
  | nil => exact h
  | cons c calls ih => exact ih (h.call hfits.1) hfits.2

/-- The beginning of a run whose calls fit. -/
theorem RunFits.left {pre post : List Call} (h : RunFits w (pre ++ post)) : RunFits w pre := by
  induction pre generalizing w with
  | nil => trivial
  | cons c pre ih => exact ⟨h.1, ih h.2⟩

/-- No directory has two live children of one name. -/
def NamesDistinct (w : Writer) : Prop :=
  ∀ p d, w.byPath p = some d → (w.ent d).isDir = true →
    ∀ a ∈ (w.ent d).children, ∀ b ∈ (w.ent d).children,
      (w.ent a).removed = false → (w.ent b).removed = false →
        base (w.ent a).path = base (w.ent b).path → a = b

theorem WellFormed.namesDistinct (h : WellFormed w) : NamesDistinct w := by
  intro p d hd hdir a ha b hb hla hlb hbase
  obtain ⟨-, n, hn⟩ := h.tree.childOf hd hdir ha hla
  obtain ⟨-, m, hm⟩ := h.tree.childOf hd hdir hb hlb
  rw [h.tree.child_name hn, h.tree.child_name hm] at hbase
  subst hbase
  rw [hn] at hm
  exact Option.some.inj hm

/-- **Names.**  Cleaning is canonical exactly for the paths that are rooted or do not climb, and in
every state of a run whose calls fit no directory has two live children of one name. -/
theorem names_distinct (o : CreateOpts) (calls : List Call) :
    (∀ p, CleanPathOk p ↔ StaysInside p) ∧
      (RunFits (create o) calls →
        ∀ pre, pre <+: calls → NamesDistinct ((create o).run pre)) := by
  refine ⟨cleanPathOk_iff, fun hfits pre hpre => ?_⟩
  obtain ⟨post, rfl⟩ := hpre
  exact ((wellFormed_create o).run hfits.left).namesDistinct

/-- `../x`, then `/x`: both are made in the root. -/
def climbRun : List Call :=
  [.mkdir (ascii ['.', '.', '/', 'x']) 0o755#32, .mkdir (ascii ['/', 'x']) 0o755#32]

/-- The cleaned `../x` is cleaned again to another path, and the root gets two children `x`. -/
theorem climb_not_distinct :
    ¬ CleanPathOk (ascii ['.', '.', '/', 'x']) ∧ ¬ NamesDistinct ((create {}).run climbRun) := by
  refine ⟨fun h => ?_, fun h => ?_⟩
  · have hidem := h.idem
    revert hidem
    decide
  · have hkids : (((create {}).run climbRun).ent 0).children = [1, 2] := by decide
    have hsame := h [] 0 (by decide) (by decide) 1 (by simp [hkids]) 2 (by simp [hkids])
      (by decide) (by decide) (by decide)
    cases hsame

/-- `/x`, then `x/y`. -/
def plainRun : List Call :=
  [.mkdir (ascii ['/', 'x']) 0o755#32, .mkdir (ascii ['x', '/', 'y']) 0o755#32]

theorem plain_distinct :
    RunFits (create {}) plainRun ∧ NamesDistinct ((create {}).run plainRun) := by
  have hfits : RunFits (create {}) plainRun := by
    refine ⟨?_, ?_, trivial⟩
    · show StaysInside (ascii ['/', 'x'])
      decide
    · show StaysInside (ascii ['x', '/', 'y'])
      decide
  exact ⟨hfits, (names_distinct {} plainRun).2 hfits plainRun List.prefix_rfl⟩

end Writer

end Erofs
