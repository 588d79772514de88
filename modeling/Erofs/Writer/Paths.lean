import Erofs.Reader.Budget
import Erofs.Writer.Calls
import Erofs.Writer.PlanTree

/-!
# Paths in the image of a closed Writer

`Close` builds the tree, plans it and writes it; `Open` reads the superblock of what was written,
and `resolve` walks from the root down to a path.  Here the three meet: the image has the paths
that were registered with the Writer, each leads to the inode the Writer has for it, and a walk to
any other path fails where it leaves the tree.

The main results:

* `ImageOf.walk` — the walk of `resolve` down a registered path;
* `closed_shows` — what the image shows after a `Close` without an error;
* `closeTo_eq_none`, `closeTo_ok` — when `Close` returns without one.
-/

namespace Erofs

open GoPath PathTree Oracle Stepwise

/-- The name a path goes by in the file system of an image. -/
def fsName (p : Path) : Bytes := if p = [] then dot else join p

theorem startOf_fsName {img : Image} {p : Path} (h : Canonical p) :
    img.startOf (fsName p) = (img.rootWalk (join p) 0, join p) := by
  unfold Image.startOf fsName
  by_cases hp : p = []
  · subst hp
    rfl
  · rw [if_neg hp, if_neg (Image.join_ne_dot hp h)]

theorem validPath_fsName {p : Path} (h : Canonical p) : Image.validPath (fsName p) = true := by
  unfold fsName
  split_ifs with hp
  · decide
  · exact Image.validPath_join hp h

theorem join_ne_nil {n : Bytes} (hn : n ≠ []) (r : Path) : join (n :: r) ≠ [] := by
  rw [join_cons_eq]
  simp [hn]

namespace Writer

variable {w : Writer} {now : ℕ} {c : ℕ → Bytes} {img : Image} {p q r : Path} {n : Bytes}
  {i d x : EntryId}

/-- The Go type of the inode a name stands for. -/
def ftype (w : Writer) (i : EntryId) : FileMode :=
  (eroFSModeToGoFileMode (w.ent (w.resolve i)).mode).typ

/-- The image was written of the tree of the Writer. -/
structure ImageOf (w : Writer) (now : ℕ) (c : ℕ → Bytes) (img : Image) : Prop where
  wellFormed : WellFormed w
  storable : w.Storable
  converted : w.Converted
  written : (w.erofsWriter now).WrittenAs (w.treeWritten now) c img

namespace ImageOf

variable (h : w.ImageOf now c img)

include h

/-- Every inode is among the entries that were written. -/
theorem assigned_of_inode (hi : w.IsInode i) :
    ∃ a ∈ (w.erofsWriter now).assigned (w.treeWritten now),
      w.WritesInode now i (a.planned, a.dir) := by
  obtain ⟨q, hq, hw⟩ := @WellFormed.written_of_inode w now i h.wellFormed h.converted hi
  have hpairs := @assignedFrom_pairs (w.erofsWriter now) (w.treeWritten now)
    (w.erofsWriter now).sbAreaBlocks
  rw [← (assigned_eq h.written.prepared h.written.limits).1] at hpairs
  rw [← hpairs] at hq
  obtain ⟨a, ha, rfl⟩ := List.mem_map.1 hq
  exact ⟨a, ha, hw⟩

/-- The type of an inode, from the mode of its entry. -/
theorem ftype_eq (hp : w.byPath p = some i) :
    w.ftype i = eroFSFtypeToFileMode (modeToFileType (w.ent (w.resolve i)).mode) :=
  typ_goFileMode (h.storable.entries _ (h.wellFormed.isInode_resolve h.converted hp)).typed

theorem ftype_dir (hd : w.IsDirectory d) : w.ftype d = FileMode.dir := by
  have hmode : (w.ent (w.resolve d)).mode.typ = Mode.dir := by
    rw [resolve, (h.wellFormed.isDirectory_inode hd).2]
    exact beq_iff_eq.1 hd.2
  rw [h.ftype_eq hd.1, modeToFileType, hmode]
  rfl

/-- Only a directory has the type of one. -/
theorem isDirectory_of_ftype (hp : w.byPath p = some i) (hf : w.ftype i = FileMode.dir) :
    w.IsDirectory i := by
  have htyped := (h.storable.entries _ (h.wellFormed.isInode_resolve h.converted hp)).typed
  have hmode : (w.ent (w.resolve i)).mode.typ = Mode.dir := by
    rw [h.ftype_eq hp, modeToFileType] at hf
    rcases htyped with hm | hm | hm | hm | hm | hm | hm
    all_goals first
      | exact hm
      | (rw [hm] at hf; exact absurd hf (by decide))
  cases hl : (w.ent i).linkTo with
  | none =>
    rw [resolve, hl] at hmode
    exact ⟨h.wellFormed.registered hp, beq_iff_eq.2 hmode⟩
  | some a =>
    have hfile := (h.wellFormed.tree.aliasOf hp hl).2.2.1
    rw [resolve, hl, Option.getD_some] at hmode
    rw [FsEntry.isDir, hmode] at hfile
    exact absurd hfile (by decide)

/-- The directory that was written for an entry. -/
theorem assigned_of_dir (hd : w.IsDirectory d) :
    ∃ a ∈ (w.erofsWriter now).assigned (w.treeWritten now), a.plan.nid = w.nid now d ∧
      a.dir = w.dirAt now d ∧ a.planned.entry.mode.typ = Mode.dir := by
  obtain ⟨a, ha, hw⟩ := h.assigned_of_inode (h.wellFormed.isDirectory_inode hd)
  refine ⟨a, ha, hw.nid, hw.dir, ?_⟩
  rw [show a.planned.entry = w.erofsEntry d from hw.entry, erofsEntry_mode]
  exact beq_iff_eq.1 hd.2

/-- A name of a directory is looked up to the nid and the type of its inode. -/
theorem lookup_found (hd : w.IsDirectory d) (hx : w.byPath ((w.ent d).path ++ [n]) = some x)
    (name : Bytes) :
    (lookupIn img name (w.nid now d) FileMode.dir n).run (holding c) =
      .ok (w.nid now x, w.ftype x) := by
  obtain ⟨a, ha, hnid, hadir, hdir⟩ := h.assigned_of_dir hd
  have hmem : (⟨n, w.nid now x, modeToFileType (w.ent (w.resolve x)).mode⟩ : DirentInfo) ∈
      a.dir.dirents := by
    rw [hadir]
    refine List.mem_cons_of_mem _ (List.mem_cons_of_mem _ ?_)
    exact (h.wellFormed.mem_dirAt h.converted hd).2 ⟨x, hx, rfl, rfl⟩
  have hfound := (served_written h.written ha).found hdir name _ hmem
  rw [h.ftype_eq hx, ← hfound, hnid]

/-- A name a directory does not have is not found in it. -/
theorem lookup_absent (hd : w.IsDirectory d) (hx : w.byPath ((w.ent d).path ++ [n]) = none)
    (hn : IsName n) (name : Bytes) :
    (lookupIn img name (w.nid now d) FileMode.dir n).run (holding c) = .error errNotExist := by
  obtain ⟨a, ha, hnid, hadir, hdir⟩ := h.assigned_of_dir hd
  have habsent : n ∉ namesOf a.dir.dirents := by
    rw [hadir]
    intro hmem
    obtain ⟨de, hde, rfl⟩ := List.mem_map.1 hmem
    rcases List.mem_cons.1 hde with rfl | hde
    · exact hn.2.1 rfl
    rcases List.mem_cons.1 hde with rfl | hde
    · exact hn.2.2 rfl
    obtain ⟨k, hk, -⟩ := (h.wellFormed.mem_dirAt h.converted hd).1 hde
    exact absurd (hx.symm.trans hk) (by simp)
  rw [← hnid]
  exact (served_written h.written ha).absent hdir name n habsent

/-- Only a symlink has the type of one. -/
theorem ftype_has_symlink (hp : w.byPath p = some i)
    (hlink : (w.ent (w.resolve i)).mode.typ ≠ Mode.symlink) :
    (w.ftype i).has FileMode.symlink = false := by
  have htyped := (h.storable.entries _ (h.wellFormed.isInode_resolve h.converted hp)).typed
  rw [h.ftype_eq hp, modeToFileType]
  rcases htyped with hm | hm | hm | hm | hm | hm | hm
  all_goals first
    | exact absurd hm hlink
    | (rw [hm]; decide)

/-- The root is the first inode. -/
theorem nid_root : w.nid now w.root = img.sb.rootNid := by
  obtain ⟨sizes, hopens⟩ := h.written.opens
  obtain ⟨checksum, hsb⟩ := hopens.sb
  have hroot : img.sb.rootNid = 0 := by
    rw [hsb]
    exact rootNid_eq h.written.prepared
  obtain ⟨rest, hwalk⟩ := List.head?_eq_some_iff.1 h.wellFormed.head_walk
  have hplans := placed_snd (w.erofsWriter now) w.next w.buildErofsTree.2
  have hkeys := placed_fst (w.erofsWriter now) w.next w.buildErofsTree.2
  cases hplaced : (w.erofsWriter now).placed w.next w.buildErofsTree.2 with
  | nil =>
    rw [hplaced] at hkeys
    exact absurd (hkeys.trans hwalk) (by simp)
  | cons q qs =>
    rw [hplaced] at hkeys hplans
    have hq : q.1 = w.root := (List.cons.inj (hkeys.trans hwalk)).1
    have hzero := planLayout_head (h.storable.sizedWriter now)
      (by rw [← hplans]; rfl : _ = some q.2)
    have hinode := h.wellFormed.isDirectory_inode h.wellFormed.isDirectory_root
    have hnid := nidOf_eq (h.wellFormed.nodup_walk h.converted)
      (by rw [hq]; exact h.converted.inodeOf_inode hinode) (hplaced ▸ List.mem_cons_self)
    rw [hq, hzero] at hnid
    exact hnid.trans hroot.symm

end ImageOf

/-! ## The walk down a path -/

/-- The walk of `resolve` is at the inode of a name. -/
structure StandsAt (w : Writer) (now : ℕ) (i : EntryId) (s : Image.Walk) : Prop where
  nid : s.nid = w.nid now i
  ftype : s.ftype = w.ftype i
  links : s.links = 0

/-- `resolve` does not follow the name `i`, with `r` left of the path. -/
def Stops (w : Writer) (follow : Bool) (i : EntryId) (r : Path) : Prop :=
  (w.ent (w.resolve i)).mode.typ ≠ Mode.symlink ∨ follow = false ∧ r = []

namespace ImageOf

variable (h : w.ImageOf now c img) {follow : Bool} {s : Image.Walk}

include h

/-- One component further. -/
theorem step (hd : w.IsDirectory d) (hx : w.byPath ((w.ent d).path ++ [n]) = some x)
    (hstop : w.Stops follow x r) (hs : w.StandsAt now d s) :
    ∃ s', img.stepOf (holding c) follow (s, join (n :: r)) = some (s', join r) ∧
      w.StandsAt now x s' ∧ s'.basename = n := by
  have hname := h.wellFormed.tree.canonical hx n (by simp)
  have hcut := Image.cutPath_join hname.1.2 r
  have hdir : s.ftype = FileMode.dir := hs.ftype.trans (h.ftype_dir hd)
  have htyp : (w.ftype x).typ = w.ftype x := by
    rw [ftype, FileMode.typ, FileMode.typ, BitVec.and_assoc, BitVec.and_self]
  have hlookup : img.lookupNext (holding c) (s, join (n :: r)) =
      .ok (w.nid now x, w.ftype x) := by
    rw [Image.lookupNext]
    dsimp only
    rw [hcut, hs.nid, hdir]
    exact h.lookup_found hd hx n
  have hpass : ((w.ftype x).has FileMode.symlink && (follow || join r != [])) = false := by
    rcases hstop with hlink | ⟨rfl, rfl⟩
    · rw [h.ftype_has_symlink hx hlink, Bool.false_and]
    · rw [show (join [] != []) = false from rfl, Bool.or_false, Bool.and_false]
  refine ⟨s.enter (w.nid now x) (w.ftype x) n, Image.stepOf_eq_some.2
    ⟨join_ne_nil hname.1.1 r, ?_⟩, ⟨rfl, rfl, hs.links⟩, rfl⟩
  rw [Image.resolveStep_run hdir, hlookup]
  dsimp only
  rw [hcut, htyp, hpass]
  rfl

/-- The walk from the root down to a registered path, with `r` left to walk. -/
theorem walk (hp : w.byPath p = some i) (hstop : w.Stops follow i r) (start : Bytes) :
    ∃ s, after (img.stepOf (holding c) follow) p.length (img.rootWalk start 0, join (p ++ r)) =
        some (s, join r) ∧ w.StandsAt now i s ∧ s.basename = p.getLastD start := by
  induction p using List.reverseRecOn generalizing i r with
  | nil =>
    rw [h.wellFormed.tree.rootAt] at hp
    obtain rfl := Option.some.inj hp
    exact ⟨_, rfl, ⟨h.nid_root.symm, (h.ftype_dir h.wellFormed.isDirectory_root).symm, rfl⟩, rfl⟩
  | append_singleton p n ih =>
    obtain ⟨d, hd, hdir, -⟩ := h.wellFormed.tree.parentOf hp (by simp)
    rw [List.dropLast_concat] at hd
    have hd' : w.IsDirectory d := ⟨h.wellFormed.registered hd, hdir⟩
    -- a directory is no symlink, so the walk goes on below it
    have hstop' : w.Stops follow d (n :: r) := by
      refine .inl ?_
      rw [resolve, (h.wellFormed.isDirectory_inode hd').2, Option.getD_none,
        beq_iff_eq.1 hdir]
      decide
    obtain ⟨s, hafter, hstands, -⟩ := ih hd hstop'
    have hx : w.byPath ((w.ent d).path ++ [n]) = some i := by
      rw [h.wellFormed.tree.regPath hd]
      exact hp
    obtain ⟨s', hstep, hat, hbase⟩ := h.step hd' hx hstop hstands
    refine ⟨s', ?_, hat, ?_⟩
    · rw [List.length_append, List.length_singleton, List.append_assoc]
      exact after_succ.2 ⟨_, hafter, hstep⟩
    · rw [hbase, List.getLastD_concat]

/-- `resolve` of a path the reader takes, once it is down to a registered name. -/
theorem resolve_from (hp : w.byPath p = some i) (hstop : w.Stops follow i r)
    (hcan : Canonical (p ++ r)) (hlen : (fsName (p ++ r)).length ≤ maxPathLen) (op : String) :
    ∃ s k, w.StandsAt now i s ∧ s.basename = p.getLastD (join (p ++ r)) ∧
      (img.resolve op (fsName (p ++ r)) follow).run (holding c) =
        match (img.resolveLoop follow (k + 1) s (join r)).run (holding c) with
        | .error e => .error (e.onPath op (fsName (p ++ r)))
        | .ok s => .ok (if s.basename = [] then { s with basename := fsName (p ++ r) } else s) := by
  have hvalid := validPath_fsName hcan
  obtain ⟨s, hafter, hat, hbase⟩ := h.walk hp hstop (join (p ++ r))
  have hwalked : img.Walked (holding c) follow (fsName (p ++ r)) p.length (s, join r) :=
    ⟨hvalid, hlen, by rw [startOf_fsName hcan]; exact hafter⟩
  -- one walk of at most 2048 components
  have hpaid := Image.Paid.of_walked hwalked
  have hbudget : p.length < Image.maxResolveComponents := by
    have hhalf : Image.maxSymlinkSize / 2 = 2048 := rfl
    have hmax : Image.maxResolveComponents = 255 * 2048 := rfl
    rw [Image.Paid, hat.links, hhalf] at hpaid
    omega
  obtain ⟨k, hk⟩ := Nat.exists_eq_add_of_lt hbudget
  have hrun := @Image.resolve_run img (holding c) follow _ op hvalid hlen
  rw [startOf_fsName hcan, hk, Nat.add_assoc, Image.resolveLoop_after hafter] at hrun
  exact ⟨s, k, hat, hbase, hrun⟩

theorem length_fsName (hp : w.byPath p = some i) : (fsName p).length ≤ maxPathLen := by
  have hlen := h.storable.paths hp
  rw [render, List.length_cons] at hlen
  unfold fsName
  split_ifs
  · decide
  · omega

/-- A registered path is resolved to its inode. -/
theorem resolve_found (hp : w.byPath p = some i) (hstop : w.Stops follow i []) (op : String) :
    ∃ s, (img.resolve op (fsName p) follow).run (holding c) = .ok s ∧ w.StandsAt now i s ∧
      s.basename = p.getLastD dot := by
  have hcan := h.wellFormed.tree.canonical hp
  obtain ⟨s, k, hat, hbase, hrun⟩ := h.resolve_from hp hstop (by rwa [List.append_nil])
    (by rw [List.append_nil]; exact h.length_fsName hp) op
  have hend : join [] = [] := rfl
  have hdone : (img.resolveLoop follow (k + 1) s (join [])).run (holding c) = .ok s := by
    rw [Image.resolveLoop, if_pos hend]
    rfl
  rw [List.append_nil, hdone] at hrun
  rw [List.append_nil] at hbase
  refine ⟨_, hrun, ?_, ?_⟩
  · split_ifs
    · exact ⟨hat.nid, hat.ftype, hat.links⟩
    · exact hat
  · -- the walk of the root has no name, and `resolve` gives it the path's
    rcases List.eq_nil_or_concat p with rfl | ⟨q, n, rfl⟩
    · have hempty : s.basename = [] := hbase
      rw [if_pos hempty]
      rfl
    · rw [List.concat_eq_append, List.getLastD_concat] at hbase
      have hne : s.basename ≠ [] := by
        rw [hbase]
        exact (hcan n (by simp)).1.1
      rw [if_neg hne, hbase, List.concat_eq_append, List.getLastD_concat]

/-- A walk that a component ends with an error. -/
theorem resolve_error {e : GoError} (hp : w.byPath p = some i)
    (hstop : w.Stops follow i (n :: r)) (hn : Canonical (n :: r))
    (hlen : (join (p ++ n :: r)).length ≤ maxPathLen) (op : String)
    (hstep : ∀ s, w.StandsAt now i s →
      (img.resolveStep follow s (join (n :: r))).run (holding c) = .error e) :
    (img.resolve op (join (p ++ n :: r)) follow).run (holding c) =
      .error (e.onPath op (join (p ++ n :: r))) := by
  have hname : fsName (p ++ n :: r) = join (p ++ n :: r) := if_neg (by simp)
  have hcan : Canonical (p ++ n :: r) := by
    intro m hm
    rcases List.mem_append.1 hm with hm | hm
    · exact h.wellFormed.tree.canonical hp m hm
    · exact hn m hm
  obtain ⟨s, k, hat, -, hrun⟩ := h.resolve_from hp hstop hcan (by rwa [hname]) op
  have hloop : (img.resolveLoop follow (k + 1) s (join (n :: r))).run (holding c) = .error e := by
    rw [Image.resolveLoop, if_neg (join_ne_nil (hn n (by simp)).1.1 r), Prog.exec_bind,
      hstep s hat]
  rw [hname, hloop] at hrun
  exact hrun

/-- Below a directory, a path that is not registered is not found. -/
theorem resolve_absent (hp : w.byPath p = some d) (hdir : (w.ent d).isDir = true)
    (hnone : w.byPath (p ++ [n]) = none) (hn : Canonical (n :: r))
    (hlen : (join (p ++ n :: r)).length ≤ maxPathLen) (op : String) (follow : Bool) :
    (img.resolve op (join (p ++ n :: r)) follow).run (holding c) =
      .error (errNotExist.onPath op (join (p ++ n :: r))) := by
  have hd : w.IsDirectory d := ⟨h.wellFormed.registered hp, hdir⟩
  have hstop : w.Stops follow d (n :: r) := by
    refine .inl ?_
    rw [resolve, (h.wellFormed.isDirectory_inode hd).2, Option.getD_none, beq_iff_eq.1 hdir]
    decide
  refine h.resolve_error hp hstop hn hlen op fun s hat => ?_
  have hcut := Image.cutPath_join (hn n (by simp)).1.2 r
  have hftype : s.ftype = FileMode.dir := hat.ftype.trans (h.ftype_dir hd)
  have hlookup : img.lookupNext (holding c) (s, join (n :: r)) = .error errNotExist := by
    rw [Image.lookupNext]
    dsimp only
    rw [hcut, hat.nid, hftype]
    refine h.lookup_absent hd ?_ (hn n (by simp)) n
    rwa [h.wellFormed.tree.regPath hp]
  have hrun := @Image.resolveStep_run img (holding c) follow (s, join (n :: r)) hftype
  rw [hlookup] at hrun
  exact hrun

/-- Below a file that is no symlink there is nothing. -/
theorem resolve_blocked (hp : w.byPath p = some i) (hdir : (w.ent i).isDir = false)
    (hlink : (w.ent (w.resolve i)).mode.typ ≠ Mode.symlink) (hn : Canonical (n :: r))
    (hlen : (join (p ++ n :: r)).length ≤ maxPathLen) (op : String) (follow : Bool) :
    (img.resolve op (join (p ++ n :: r)) follow).run (holding c) =
      .error (Image.errNotDirectory.onPath op (join (p ++ n :: r))) := by
  refine h.resolve_error hp (.inl hlink) hn hlen op fun s hat => ?_
  have hftype : s.ftype ≠ FileMode.dir := by
    rw [hat.ftype]
    intro hf
    have := (h.isDirectory_of_ftype hp hf).2
    rw [hdir] at this
    cases this
  rw [Image.resolveStep, Image.cutPath_join (hn n (by simp)).1.2 r]
  dsimp only
  rw [if_pos hftype]
  rfl

/-- `ReadDir` lists the registered names of a directory. -/
theorem readDir_listed (hd : w.IsDirectory d) (name : Bytes) :
    ∃ ents : List DirEntry, ((OpenDir.readDir img none
        { file := { name, nid := w.nid now d, ftype := FileMode.dir } }).run (holding c)).2 =
          (ents, none) ∧ ents.Pairwise (·.name < ·.name) ∧
      ∀ e, e ∈ ents ↔ ∃ x, w.byPath ((w.ent d).path ++ [e.name]) = some x ∧
        e.nid = w.nid now x ∧ e.ftype = w.ftype x := by
  obtain ⟨a, ha, hnid, hadir, hdir⟩ := h.assigned_of_dir hd
  have hok : (w.dirAt now d).Ok := by
    rw [← hadir]
    exact (h.written.entry ha).1.dirents hdir
  have hlisted := (served_written h.written ha).listed hdir name
  rw [hnid, hadir] at hlisted
  refine ⟨_, hlisted, ?_, fun e => ?_⟩
  · rw [List.pairwise_map]
    exact hok.ascending.filter _
  · rw [(hok.shown_perm.map _).mem_iff, List.mem_map]
    constructor
    · rintro ⟨de, hde, rfl⟩
      obtain ⟨x, hx, hxnid, hxtype⟩ := (h.wellFormed.mem_dirAt h.converted hd).1 hde
      exact ⟨x, hx, hxnid, by rw [h.ftype_eq hx, ← hxtype]; rfl⟩
    · rintro ⟨x, hx, hxnid, hxtype⟩
      refine ⟨⟨e.name, e.nid, modeToFileType (w.ent (w.resolve x)).mode⟩,
        (h.wellFormed.mem_dirAt h.converted hd).2 ⟨x, hx, hxnid, rfl⟩, ?_⟩
      rw [DirentInfo.entry, ← h.ftype_eq hx, ← hxtype]

/-- `..` of a directory leads to the one above it. -/
theorem lookup_parent (hd : w.IsDirectory d) (hu : w.byPath (w.ent d).path.dropLast = some x)
    (name : Bytes) :
    (lookupIn img name (w.nid now d) FileMode.dir dotdot).run (holding c) =
      .ok (w.nid now x, FileMode.dir) := by
  obtain ⟨a, ha, hnid, hadir, hdir⟩ := h.assigned_of_dir hd
  have hfound := (served_written h.written ha).found hdir name
    ⟨dotdot, a.dir.parentNid, fileTypeDir⟩ (List.mem_cons_of_mem _ List.mem_cons_self)
  rw [hnid, hadir, h.wellFormed.parentNid_eq hd hu] at hfound
  exact hfound

end ImageOf

/-! ## What an image shows -/

/-- What an image shows of the tree of a Writer.  Every path is registered, or leaves the tree at a
directory, at a symlink, which `resolve` follows, or at another file. -/
structure Shows (w : Writer) (now : ℕ) (c : ℕ → Bytes) (img : Image) : Prop where
  /-- A registered path leads to the inode of its entry. -/
  found : ∀ {p i} {follow : Bool}, w.byPath p = some i → w.Stops follow i [] → ∀ op,
    ∃ s, (img.resolve op (fsName p) follow).run (holding c) = .ok s ∧ w.StandsAt now i s ∧
      s.basename = p.getLastD dot
  /-- A path that leaves the tree at a directory does not exist. -/
  absent : ∀ {p d n r}, w.byPath p = some d → (w.ent d).isDir = true →
    w.byPath (p ++ [n]) = none → Canonical (n :: r) →
      (join (p ++ n :: r)).length ≤ maxPathLen → ∀ op follow,
        (img.resolve op (join (p ++ n :: r)) follow).run (holding c) =
          .error (errNotExist.onPath op (join (p ++ n :: r)))
  /-- A path that leaves the tree at a file asks for a directory where there is none. -/
  blocked : ∀ {p i n r}, w.byPath p = some i → (w.ent i).isDir = false →
    (w.ent (w.resolve i)).mode.typ ≠ Mode.symlink → Canonical (n :: r) →
      (join (p ++ n :: r)).length ≤ maxPathLen → ∀ op follow,
        (img.resolve op (join (p ++ n :: r)) follow).run (holding c) =
          .error (Image.errNotDirectory.onPath op (join (p ++ n :: r)))
  /-- The inode a path leads to is served as the entry was. -/
  inode : ∀ {p i}, w.byPath p = some i →
    ∃ a ∈ (w.erofsWriter now).assigned (w.treeWritten now), a.plan.nid = w.nid now i ∧
      a.planned.entry = w.erofsEntry (w.resolve i) ∧ (w.erofsWriter now).Served img c a
  /-- Two paths have one inode exactly if they are hardlinks of one entry. -/
  shared : ∀ {p q i j}, w.byPath p = some i → w.byPath q = some j →
    (w.nid now i = w.nid now j ↔ w.resolve i = w.resolve j)
  /-- `ReadDir` lists the registered names of a directory in ascending order. -/
  listed : ∀ {d}, w.IsDirectory d → ∀ name, ∃ ents : List DirEntry,
    ((OpenDir.readDir img none
      { file := { name, nid := w.nid now d, ftype := FileMode.dir } }).run (holding c)).2 =
        (ents, none) ∧ ents.Pairwise (·.name < ·.name) ∧
    ∀ e, e ∈ ents ↔ ∃ x, w.byPath ((w.ent d).path ++ [e.name]) = some x ∧
      e.nid = w.nid now x ∧ e.ftype = w.ftype x
  /-- `..` of a directory is the directory above it. -/
  parent : ∀ {d u}, w.IsDirectory d → w.byPath (w.ent d).path.dropLast = some u → ∀ name,
    (lookupIn img name (w.nid now d) FileMode.dir dotdot).run (holding c) =
      .ok (w.nid now u, FileMode.dir)

/-- **The image shows the tree it was written of.** -/
theorem ImageOf.shows (h : w.ImageOf now c img) : w.Shows now c img where
  found hp hstop op := h.resolve_found hp hstop op
  absent hp hdir hnone hn hlen op follow := h.resolve_absent hp hdir hnone hn hlen op follow
  blocked hp hdir hlink hn hlen op follow := h.resolve_blocked hp hdir hlink hn hlen op follow
  inode {p i} hp := by
    have hi := h.wellFormed.isInode_resolve h.converted hp
    obtain ⟨a, ha, hw⟩ := h.assigned_of_inode hi
    refine ⟨a, ha, ?_, hw.entry, served_written h.written ha⟩
    rw [h.wellFormed.nid_resolve h.converted hp]
    exact hw.nid
  shared {p q i j} hp hq := by
    have hi := h.wellFormed.isInode_resolve h.converted hp
    have hj := h.wellFormed.isInode_resolve h.converted hq
    rw [h.wellFormed.nid_resolve h.converted hp, h.wellFormed.nid_resolve h.converted hq]
    constructor
    · exact h.wellFormed.nid_inj h.storable h.converted hi hj
    · intro heq
      rw [heq]
  listed hd name := h.readDir_listed hd name
  parent hd hu name := h.lookup_parent hd hu name

/-! ## `Close` and `Open` -/

theorem wErr_beginClose (w : Writer) : w.beginClose.wErr = w.wErr := by
  unfold beginClose resolveBlockSize
  dsimp only
  split_ifs <;> rfl

/-- When `Close` returns without an error. -/
theorem closeTo_eq_none {out : Out} :
    (w.closeTo now out).2 = none ↔ w.wErr = none ∧ w.closed = false ∧ w.openFile = none ∧
      w.beginClose.danglingAlias = none ∧ ∃ out', w.beginClose.writeTree now out = .ok out' := by
  unfold closeTo close
  cases herr : w.wErr with
  | some e => simp
  | none =>
    cases hclosed : w.closed with
    | true => simp
    | false =>
      cases hopen : w.openFile with
      | some f => simp [check, checkNoOpenFile, hopen]
      | none =>
        have hbegin : w.beginClose.wErr = none := (wErr_beginClose w).trans herr
        cases hwrite : w.beginClose.writeTree now out with
        | error e => simp [check, checkNoOpenFile, hopen, buildErofsTree]
        | ok out' => simp [check, checkNoOpenFile, hopen, buildErofsTree, hbegin]

/-- **From `Close` to `Open`.**  Whatever a well-formed Writer has closed without an error, the
image that was written opens and shows the tree of the Writer. -/
theorem closed_shows {out : Out} (h : WellFormed w) (hs : w.beginClose.Storable)
    (hnow : now < 2 ^ 64) (hnew : out.bytes = []) (hpos : out.pos = 0)
    (hok : (w.closeTo now out).2 = none) :
    ∃ out', w.beginClose.writeTree now out = .ok out' ∧
      ∀ (c : ℕ → Bytes) (sizes : ℕ → Option Int), c 0 = out'.bytes →
        sizes 0 = none ∨ sizes 0 = some (out'.bytes.length : Int) →
          ∃ img, (openImage w.beginClose.devices.length sizes).run (holding c) = .ok img ∧
            w.beginClose.Shows now c img := by
  obtain ⟨-, -, -, hdangling, out', hwrite⟩ := closeTo_eq_none.1 hok
  have hwf : WellFormed w.beginClose := (SameTree.beginClose w).wellFormed h
  have hconv := hwf.converted hdangling
  obtain ⟨_, hlimits, -⟩ := except_bind_ok hwrite
  have hprep := prepared_written hwf hs hconv hlimits
  have hne : w.beginClose.treeWritten now ≠ [] := by
    have hroot := hwf.isDirectory_inode hwf.isDirectory_root
    obtain ⟨q, hq, -⟩ := @WellFormed.written_of_inode _ now _ hwf hconv hroot
    exact List.ne_nil_of_mem hq
  have htime : (w.beginClose.erofsWriter now).buildTime < 2 ^ 64 := by
    unfold erofsWriter
    dsimp only
    split_ifs
    · exact hs.buildTime
    · exact hnow
  refine ⟨out', hwrite, fun c sizes hc hsizes => ?_⟩
  obtain ⟨img, hopen, hwritten⟩ := writtenAs_open hprep hne htime hs.buildTimeNs rfl
    (fun q hq => encodable_written hwf hs hconv hlimits hq) hwrite hnew hpos hc
    (by rwa [hc])
  exact ⟨img, hopen, ImageOf.shows ⟨hwf, hs, hconv, hwritten⟩⟩

/-- `Close` returns without an error if the tree is within the limits of the format and the output
takes what is written. -/
theorem closeTo_ok {out : Out} (h : WellFormed w) (hs : w.beginClose.Storable)
    (herr : w.wErr = none) (hclosed : w.closed = false) (hopen : w.openFile = none)
    (hdangling : w.beginClose.danglingAlias = none)
    (hlimits : (w.beginClose.erofsWriter now).checkLimits
      ((w.beginClose.treeWritten now).map Prod.fst) = .ok ())
    (hdev : ∀ d ∈ w.beginClose.devices, d < 2 ^ 32) (hout : out.Never) :
    (w.closeTo now out).2 = none := by
  have hwf : WellFormed w.beginClose := (SameTree.beginClose w).wellFormed h
  have hprep := prepared_written hwf hs (hwf.converted hdangling) hlimits
  exact closeTo_eq_none.2 ⟨herr, hclosed, hopen, hdangling, write_never hprep hlimits hdev hout⟩

/-! ## A Writer that is closed -/

/-- A directory that has a directory and a file of two bytes in it, a symlink to the first and a
second name of the file. -/
def linkedRun : List Call :=
  [.mkdir (ascii ['/', 'd']) 0o755#32, .mkdir (ascii ['/', 'd', '/', 'e']) 0o700#32,
    .createFile (ascii ['/', 'd', '/', 'f']) { n := 0 } none, .fileWrite 0 [104, 105] { n := 2 },
    .fileClose 0 { n := 0 }, .symlink (ascii ['d']) (ascii ['/', 'l']),
    .link (ascii ['/', 'd', '/', 'f']) (ascii ['/', 'g'])]

/-- The Writer after the run. -/
def linkedWriter : Writer := (create {}).run linkedRun

theorem linkedWriter_wellFormed : WellFormed linkedWriter := by
  have hfits : RunFits (create {}) linkedRun := by
    refine ⟨?_, ?_, ?_, trivial, trivial, ?_, ?_, trivial⟩
    all_goals
      show StaysInside _
      decide
  exact (wellFormed_create {}).run hfits

theorem linkedWriter_storable : linkedWriter.beginClose.Storable := by
  have hwf := (SameTree.beginClose linkedWriter).wellFormed linkedWriter_wellFormed
  have hnames : ∀ i < 6, ∀ n ∈ (linkedWriter.beginClose.ent i).path,
      nulByte ∉ n ∧ n.length ≤ maxNameLen := by decide
  have hpaths : ∀ i < 6, (render (linkedWriter.beginClose.ent i).path).length ≤ maxPathLen := by
    decide
  refine ⟨⟨12, by decide⟩, by decide, by decide, by decide, fun {p i} hp => ?_,
    fun {p i} hp => ?_, fun i hi => ?_⟩
  · have hlt : i < 6 := hwf.tree.regLt hp
    rw [← hwf.tree.regPath hp]
    exact hnames i hlt
  · have hlt : i < 6 := hwf.tree.regLt hp
    rw [← hwf.tree.regPath hp]
    exact hpaths i hlt
  · have hlt : i < 6 := hwf.tree.regLt hi.1
    interval_cases i
    case «3» =>
      exact ⟨.inl rfl, by decide, by decide, by decide, by decide, by decide, by decide, by decide,
        by decide, by decide, fun _ _ _ _ => ⟨_, rfl, by decide⟩, by decide⟩
    case «5» => exact absurd hi.2 (by decide)
    all_goals
      exact ⟨by unfold Mode.Typed; decide, by decide, by decide, by decide, by decide, by decide,
        by decide, by decide, by decide, by decide, fun hreg => absurd hreg (by decide), by decide⟩

/-- `Close` of this Writer writes an image that shows its tree, the file at one inode under both of
its names. -/
theorem linkedWriter_shows :
    ∃ out' img, linkedWriter.beginClose.writeTree 0 {} = .ok out' ∧
      (openImage 0 fun _ => none).run (holding fun _ => out'.bytes) = .ok img ∧
      linkedWriter.beginClose.Shows 0 (fun _ => out'.bytes) img ∧
      (List.range 6).map (linkedWriter.beginClose.nid 0) = [0, 4, 7, 9, 11, 9] := by
  have hlimits : (linkedWriter.beginClose.erofsWriter 0).checkLimits
      ((linkedWriter.beginClose.treeWritten 0).map Prod.fst) = .ok () := by decide +kernel
  have hok : (linkedWriter.closeTo 0 {}).2 = none :=
    closeTo_ok linkedWriter_wellFormed linkedWriter_storable (by decide) (by decide) (by decide)
      (by decide) hlimits (by decide) fun _ => rfl
  obtain ⟨out', hwrite, hshows⟩ := closed_shows linkedWriter_wellFormed linkedWriter_storable
    (by decide) rfl rfl hok
  obtain ⟨img, hopen, hshown⟩ := hshows (fun _ => out'.bytes) (fun _ => none) rfl (.inl rfl)
  exact ⟨out', img, hwrite, hopen, hshown, by decide +kernel⟩

end Writer

end Erofs
