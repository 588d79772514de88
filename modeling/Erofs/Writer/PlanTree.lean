import Erofs.Writer.Entries
import Erofs.Writer.Walk

/-!
# The entries of a tree, ready to be written

What `planLayout` and `fixParentNids` leave of the tree of a Writer: every inode has a nid of its
own, a name has the nid of its inode, and a directory has its parent's.  A Writer whose entries the
format has room for (`Storable`) hands `write` entries it can serialize.

The main results:

* `nid_inj` — two inodes never share a nid;
* `parentNid_eq` — the parent of a directory is the directory its path names;
* `prepared`, `encodable` — what `write` and the reader ask of the entries.
-/

namespace Erofs

open GoPath PathTree

/-! ## Places in the walk -/

section Placed

variable {w : ErofsWriter} {fuel : ℕ} {t : ErofsTree} {e : EntryId} {q q' : EntryId × Plan}

theorem length_planLayout (w : ErofsWriter) (fuel : ℕ) (t : ErofsTree) :
    (w.planLayout (w.treeEntries fuel t)).length = (t.walk fuel t.root).length := by
  rw [ErofsWriter.planLayout, length_planEntries, ErofsWriter.treeEntries, List.length_map]

theorem placed_fst (w : ErofsWriter) (fuel : ℕ) (t : ErofsTree) :
    (w.placed fuel t).map Prod.fst = t.walk fuel t.root :=
  List.map_fst_zip (length_planLayout w fuel t).ge

theorem placed_snd (w : ErofsWriter) (fuel : ℕ) (t : ErofsTree) :
    (w.placed fuel t).map Prod.snd = w.planLayout (w.treeEntries fuel t) :=
  List.map_snd_zip (length_planLayout w fuel t).le

/-- The entries are those `planLayout` has placed. -/
theorem planTree_planned (w : ErofsWriter) (fuel : ℕ) (t : ErofsTree) :
    (w.planTree fuel t).map Prod.fst = w.planned (w.treeEntries fuel t) := by
  rw [ErofsWriter.planTree, ErofsWriter.planned, ErofsWriter.placed, List.map_map]
  generalize hplans : w.planLayout (w.treeEntries fuel t) = plans
  rw [ErofsWriter.treeEntries, List.zip_map_left, List.map_map]
  rfl

/-- The nid of an entry that is no alias is the one of its plan. -/
theorem nidOf_eq (hnd : (t.walk fuel t.root).Nodup) (hself : t.inodeOf q.1 = q.1)
    (hq : q ∈ w.placed fuel t) : w.nidOf fuel t q.1 = q.2.nid := by
  have hkeys : ((w.placed fuel t).map (·.1)).Nodup := by
    rw [placed_fst]
    exact hnd
  rw [ErofsWriter.nidOf, hself, lookup_of_mem hkeys hq]
  rfl

/-- No two entries of the walk have one nid. -/
theorem placed_inj (hw : w.Sized) (hq : q ∈ w.placed fuel t) (hq' : q' ∈ w.placed fuel t)
    (hnid : q.2.nid = q'.2.nid) : q = q' := by
  have hslots : (w.placed fuel t).Pairwise fun q q' => q.2.nid ≠ q'.2.nid := by
    have hdisjoint := (slots_sound hw (w.treeEntries fuel t)).disjoint
    rw [← placed_snd, List.pairwise_map] at hdisjoint
    refine hdisjoint.imp fun {q q'} hle heq => ?_
    have hcore := inodeCoreSize_cases q.2.compact
    have hslot := (inodeSlotAlign_spec q.2.used).1
    rw [Plan.slotEnd, Plan.off, Plan.off, heq] at hle
    unfold Plan.used Plan.headerSize at hle hslot
    omega
  have hsymm : Std.Symm fun q q' : EntryId × Plan => q.2.nid ≠ q'.2.nid := ⟨fun _ _ h => h.symm⟩
  by_contra hne
  exact hslots.forall hq hq' hne hnid

/-- In an image within the limits every nid is far below 2⁶⁴. -/
theorem placed_nid_lt (hw : w.Sized)
    (htotal : w.totalBlocks (w.planned (w.treeEntries fuel t)) ≤ 2 ^ 32 - 1)
    (hq : q ∈ w.placed fuel t) : q.2.nid < 2 ^ 64 := by
  have hplan : q.2 ∈ w.planLayout (w.treeEntries fuel t) := by
    rw [← placed_snd]
    exact List.mem_map_of_mem hq
  have hinside := (slots_sound hw (w.treeEntries fuel t)).inside _ hplan
  have hmeta : ErofsWriter.metadataBytes (w.planned (w.treeEntries fuel t)) ≤
      w.metaBlocks (w.planned (w.treeEntries fuel t)) * w.blockSize := by
    have hlo := hw.lo
    exact (ceil_mul (by omega)).1
  have hblocks : w.metaBlocks (w.planned (w.treeEntries fuel t)) * w.blockSize ≤
      2 ^ 32 * 65536 := by
    refine Nat.mul_le_mul ?_ hw.hi
    unfold ErofsWriter.totalBlocks at htotal
    omega
  rw [Plan.slotEnd, Plan.off] at hinside
  omega

theorem nidOf_lt (hw : w.Sized)
    (htotal : w.totalBlocks (w.planned (w.treeEntries fuel t)) ≤ 2 ^ 32 - 1) (e : EntryId) :
    w.nidOf fuel t e < 2 ^ 64 := by
  unfold ErofsWriter.nidOf
  cases hlook : (w.placed fuel t).lookup (t.inodeOf e) with
  | none => decide
  | some p =>
    obtain ⟨l₁, l₂, heq, -⟩ := List.lookup_eq_some_iff.1 hlook
    exact placed_nid_lt hw htotal (q := (t.inodeOf e, p)) (by rw [heq]; simp)

/-- `calcDirentDataSize` reads nothing of the children but their names. -/
theorem calcDirentDataSize_congr {bs : ℕ} {d d' : ErofsDir}
    (h : d.children.map (·.name) = d'.children.map (·.name)) :
    calcDirentDataSize bs d = calcDirentDataSize bs d' := by
  have hnil : d.children = [] ↔ d'.children = [] := by
    rw [← List.map_eq_nil_iff (f := (·.name)), h, List.map_eq_nil_iff]
  unfold calcDirentDataSize direntNames
  simp only [h, hnil]

/-- A regular file with chunks, or without its data, is chunk-based. -/
theorem planEntry_chunkBased {e : ErofsEntry} {direntSize off : ℕ} (hreg : e.mode.typ = Mode.reg)
    (h : e.chunks ≠ [] ∨ e.metadataOnly = true) :
    (w.planEntry e direntSize off).1.layout = .chunkBased := by
  have hchoose : ∀ headerSize,
      w.chooseLayout e direntSize off headerSize = .chunkBased := by
    intro headerSize
    unfold ErofsWriter.chooseLayout
    dsimp only
    rw [if_pos hreg, if_neg ?_, if_pos h]
    rintro ⟨-, hnil, -, hmeta⟩
    rcases h with h | h
    · exact h hnil
    · rw [hmeta] at h
      cases h
  unfold ErofsWriter.planEntry
  dsimp only
  rw [hchoose, if_neg (by rintro ⟨h, -⟩; cases h)]

end Placed

/-! ## Parents -/

section Parents

variable {t : ErofsTree} {nid : EntryId → ℕ} {fuel : ℕ} {e parent x : EntryId} {v : ℕ}

/-- The children `fixParentNids` goes on to. -/
def ErofsTree.dirKids (t : ErofsTree) (e : EntryId) : List EntryId :=
  (t.ent e).children.filter fun c => (t.ent c).isDir

/-- `fixParentNids` goes through the directories depth first. -/
theorem fixParentNids_fst (nid : EntryId → ℕ) (fuel : ℕ) (e parent : EntryId) :
    (t.fixParentNids nid fuel e parent).map Prod.fst = Traverse.dfs t.dirKids fuel e := by
  induction fuel generalizing e parent with
  | zero => rfl
  | succ fuel ih =>
    rw [ErofsTree.fixParentNids, Traverse.dfs, List.map_cons, List.map_flatMap]
    exact congrArg (e :: ·) (List.flatMap_congr fun c _ => ih c e)

/-- What it assigns to a directory is the nid of the one it comes from. -/
theorem fixParentNids_mem (h : (x, v) ∈ t.fixParentNids nid fuel e parent) :
    x = e ∧ v = nid parent ∨
      ∃ u ∈ Traverse.dfs t.dirKids fuel e, x ∈ t.dirKids u ∧ v = nid u := by
  induction fuel generalizing e parent with
  | zero => cases h
  | succ fuel ih =>
    rw [ErofsTree.fixParentNids, List.mem_cons, List.mem_flatMap] at h
    rcases h with h | ⟨c, hc, h⟩
    · cases h
      exact .inl ⟨rfl, rfl⟩
    · right
      rcases ih h with ⟨rfl, rfl⟩ | ⟨u, hu, hx, hv⟩
      · exact ⟨e, Traverse.Hangs.self_mem (Nat.succ_pos _), hc, rfl⟩
      · refine ⟨u, ?_, hx, hv⟩
        rw [Traverse.dfs, List.mem_cons, List.mem_flatMap]
        exact .inr ⟨c, hc, hu⟩

theorem parentNidOf_lt {w : ErofsWriter} (h : ∀ e, w.nidOf fuel t e < 2 ^ 64) (e : EntryId) :
    w.parentNidOf fuel t e < 2 ^ 64 := by
  unfold ErofsWriter.parentNidOf
  cases hlook : (t.fixParentNids (w.nidOf fuel t) fuel t.root t.root).lookup e with
  | none => decide
  | some v =>
    obtain ⟨l₁, l₂, heq, -⟩ := List.lookup_eq_some_iff.1 hlook
    have hmem : (e, v) ∈ t.fixParentNids (w.nidOf fuel t) fuel t.root t.root := by
      rw [heq]
      simp
    rcases fixParentNids_mem hmem with ⟨-, rfl⟩ | ⟨u, -, -, rfl⟩
    · exact h _
    · exact h _

end Parents

/-! ## The tree of a Writer -/

namespace Writer

variable {w : Writer} {now : ℕ} {p : Path} {i j c d u : EntryId}

/-- The nid `Close` gives to a name. -/
def nid (w : Writer) (now : ℕ) (i : EntryId) : ℕ :=
  (w.erofsWriter now).nidOf w.next w.buildErofsTree.2 i

/-- The directory `Close` has written for an entry. -/
def dirAt (w : Writer) (now : ℕ) (i : EntryId) : ErofsDir :=
  (w.erofsWriter now).dirOf w.next w.buildErofsTree.2 i

namespace WellFormed

variable (h : WellFormed w)

include h

/-- A name has the nid of its inode. -/
theorem nid_resolve (hconv : w.Converted) (hp : w.byPath p = some i) :
    w.nid now i = w.nid now (w.resolve i) := by
  unfold nid ErofsWriter.nidOf
  rw [hconv.inodeOf_eq hp, hconv.inodeOf_inode (h.isInode_resolve hconv hp)]

theorem hangs_treeDirs :
    Traverse.Hangs w.IsDirectory (fun i => (w.ent i).path) (fun i => w.next - 1 - i)
      w.buildErofsTree.2.dirKids := by
  refine h.hangs_dirs.of_perm fun {d} hd => ?_
  have hkids : (w.buildErofsTree.2.ent d).children.Perm (w.liveChildren d) := by
    show (w.erofsEntry d).children.Perm _
    rw [h.erofsEntry_children hd]
    exact w.sortedChildren_perm d
  refine (hkids.filter _).trans (List.Perm.of_eq (List.filter_congr fun c hc => ?_))
  show (w.erofsEntry c).isDir = _
  rw [erofsEntry_isDir]
  cases hdir : (w.ent c).isDir with
  | false => rw [Bool.and_false]
  | true => rw [(h.tree.dirPlain (h.child hd hc).2.1 hdir).1]; rfl

/-- The parent of a directory is the one its path names; the root is its own. -/
theorem parentNid_eq (hd : w.IsDirectory d) (hu : w.byPath (w.ent d).path.dropLast = some u) :
    (w.dirAt now d).parentNid = w.nid now u := by
  have hkeys := fixParentNids_fst (t := w.buildErofsTree.2)
    ((w.erofsWriter now).nidOf w.next w.buildErofsTree.2) w.next w.root w.root
  have hmem : d ∈ Traverse.dfs w.buildErofsTree.2.dirKids w.next w.root := by
    refine h.hangs_treeDirs.mem_dfs h.isDirectory_root h.rank_root (fun x hx hne => ?_) hd
    obtain ⟨u, hu, hmem, -⟩ := h.parent hx.1 hne
    refine ⟨u, hu, List.mem_filter.2 ⟨?_, (w.erofsEntry_isDir x).trans hx.2⟩⟩
    show x ∈ (w.erofsEntry u).children
    rw [h.erofsEntry_children hu]
    exact (w.sortedChildren_perm u).mem_iff.2 hmem
  rw [← hkeys] at hmem
  obtain ⟨⟨x, v⟩, hxv, rfl⟩ := List.mem_map.1 hmem
  have hlook := lookup_of_mem (by rw [hkeys]; exact h.hangs_treeDirs.nodup_dfs h.isDirectory_root)
    hxv
  refine (congrArg (·.getD 0) hlook).trans ?_
  show v = w.nid now u
  rcases fixParentNids_mem hxv with ⟨rfl, rfl⟩ | ⟨y, hy, hx, rfl⟩
  · rw [h.tree.regPath h.tree.rootAt, List.dropLast_nil, h.tree.rootAt] at hu
    rw [Option.some.inj hu]
    rfl
  · have hy := (h.hangs_treeDirs.node_of_mem h.isDirectory_root hy).1
    obtain ⟨n, hn⟩ := h.hangs_treeDirs.below hy hx
    dsimp only at hn hu
    rw [hn, List.dropLast_concat, hy.1] at hu
    rw [Option.some.inj hu]
    rfl

end WellFormed

/-! ## What the format has room for -/

/-- An entry the format has room for, with its data at hand. -/
structure StorableEntry (w : Writer) (e : FsEntry) : Prop where
  typed : e.mode.Typed
  uid : e.uid < 2 ^ 32
  gid : e.gid < 2 ^ 32
  nlink : w.linkCount e < 2 ^ 32
  mtime : e.mtime < 2 ^ 64
  mtimeNs : e.mtimeNs < 2 ^ 32
  size : e.size < 2 ^ 63
  rdev : e.rdev < 2 ^ 32
  target : e.mode.typ = Mode.symlink → e.linkTarget ≠ [] ∧ nulByte ∉ e.linkTarget ∧
    e.linkTarget.length ≤ maxSymlinkTarget
  xattrs : (e.xattrs.map (·.1)).Nodup
  data : e.mode.typ = Mode.reg → e.chunks = [] → e.metadataOnly = false → 0 < e.size →
    ∃ r, w.entryData e = some r ∧ e.size ≤ r.bytes.length
  tail : e.tail.length ≤ w.blockSize

/-- A Writer whose tree can be written: its names are names of the format, short enough for the
reader, and its entries fit. -/
structure Storable (w : Writer) : Prop where
  sized : ∃ bits, 9 ≤ bits ∧ bits ≤ 16 ∧ w.blockSize = 2 ^ bits
  devices : w.devices.length ≤ 65535
  buildTime : w.buildTime < 2 ^ 64
  buildTimeNs : w.buildTimeNs < 2 ^ 32
  names : ∀ {p i}, w.byPath p = some i → ∀ n ∈ p, nulByte ∉ n ∧ n.length ≤ maxNameLen
  paths : ∀ {p i}, w.byPath p = some i → (render p).length ≤ maxPathLen
  entries : ∀ i, w.IsInode i → w.StorableEntry (w.ent i)

theorem Storable.sizedWriter (hs : w.Storable) (now : ℕ) : (w.erofsWriter now).Sized := hs.sized

/-- A pair that is written is the one of the inode `i`. -/
structure WritesInode (w : Writer) (now : ℕ) (i : EntryId) (q : Planned × ErofsDir) : Prop where
  entry : q.1.entry = w.erofsEntry i
  direntSize : q.1.direntSize =
    w.buildErofsTree.2.direntDataSize (w.erofsWriter now).blockSize i
  nid : q.1.plan.nid = w.nid now i
  dir : q.2 = w.dirAt now i

namespace WellFormed

variable (h : WellFormed w)

include h

/-- What is written are the inodes. -/
theorem inode_of_written (hconv : w.Converted) {q : Planned × ErofsDir}
    (hq : q ∈ w.treeWritten now) : ∃ i, w.IsInode i ∧ w.WritesInode now i q := by
  obtain ⟨r, hr, rfl⟩ := List.mem_map.1 hq
  have hmem : r.1 ∈ w.buildErofsTree.2.walk w.next w.root := by
    have := List.mem_map_of_mem (f := Prod.fst) hr
    rwa [placed_fst] at this
  have hinode := (h.mem_walk hconv).1 hmem
  have hnid := nidOf_eq (h.nodup_walk hconv) (hconv.inodeOf_inode hinode) hr
  exact ⟨r.1, hinode, rfl, rfl, hnid.symm, rfl⟩

/-- Every inode has its place in the walk. -/
theorem placed_of_inode (hconv : w.Converted) (hi : w.IsInode i) :
    ∃ plan, (i, plan) ∈ (w.erofsWriter now).placed w.next w.buildErofsTree.2 ∧
      w.nid now i = plan.nid := by
  have hkey : i ∈ ((w.erofsWriter now).placed w.next w.buildErofsTree.2).map Prod.fst := by
    rw [placed_fst]
    exact (h.mem_walk hconv).2 hi
  obtain ⟨r, hr, rfl⟩ := List.mem_map.1 hkey
  exact ⟨r.2, hr, nidOf_eq (h.nodup_walk hconv) (hconv.inodeOf_inode hi) hr⟩

/-- Every inode is written. -/
theorem written_of_inode (hconv : w.Converted) (hi : w.IsInode i) :
    ∃ q ∈ w.treeWritten now, w.WritesInode now i q := by
  obtain ⟨plan, hplan, hnid⟩ := @placed_of_inode w now i h hconv hi
  exact ⟨_, List.mem_map_of_mem hplan, rfl, rfl, hnid.symm, rfl⟩

/-- No two inodes share a nid. -/
theorem nid_inj (hs : w.Storable) (hconv : w.Converted) (hi : w.IsInode i) (hj : w.IsInode j)
    (hnid : w.nid now i = w.nid now j) : i = j := by
  obtain ⟨plan, hplan, hi⟩ := @placed_of_inode w now i h hconv hi
  obtain ⟨plan', hplan', hj⟩ := @placed_of_inode w now j h hconv hj
  have heq := placed_inj (hs.sizedWriter now) hplan hplan' (hi.symm.trans (hnid.trans hj))
  exact congrArg Prod.fst heq

/-- A registered name below a directory is one of its children. -/
theorem mem_liveChildren_of {n : Bytes} (hd : w.IsDirectory d)
    (hc : w.byPath ((w.ent d).path ++ [n]) = some c) : c ∈ w.liveChildren d := by
  obtain ⟨d', hd', -, hmem, -⟩ := h.tree.parentOf hc (by simp)
  rw [List.dropLast_concat, hd.1] at hd'
  obtain rfl := Option.some.inj hd'
  exact mem_liveChildren.2 ⟨hmem, h.tree.regLive hc⟩

/-- The name of a child is an element its directory's path is continued by. -/
theorem child_name (hd : w.IsDirectory d) (hc : c ∈ w.liveChildren d) :
    w.byPath ((w.ent d).path ++ [(w.erofsEntry c).name]) = some c := by
  obtain ⟨-, hreg, n, hn⟩ := h.child hd hc
  have hname : (w.erofsEntry c).name = n := by
    rw [erofsEntry_name, hn]
    simp [base]
  rw [hname, ← hn]
  exact hreg

/-- The dirent of a name: the nid and the type of its inode. -/
theorem mem_dirAt (hconv : w.Converted) (hd : w.IsDirectory d) {de : DirentInfo} :
    de ∈ (w.dirAt now d).children ↔ ∃ c, w.byPath ((w.ent d).path ++ [de.name]) = some c ∧
      de.nid = w.nid now c ∧ de.fileType = modeToFileType (w.ent (w.resolve c)).mode := by
  have htype : ∀ {q : Path} {c}, w.byPath q = some c →
      (w.erofsEntry (w.buildErofsTree.2.inodeOf c)).erofsFileType =
        modeToFileType (w.ent (w.resolve c)).mode := by
    intro q c hc
    rw [hconv.inodeOf_eq hc, erofsEntry_inode (h.isInode_resolve hconv hc).2]
    rfl
  have hkids : (w.erofsEntry d).children.Perm (w.liveChildren d) := by
    rw [h.erofsEntry_children hd]
    exact w.sortedChildren_perm d
  constructor
  · intro hde
    obtain ⟨c, hc, rfl⟩ := List.mem_map.1 hde
    have hname := h.child_name hd (hkids.mem_iff.1 hc)
    exact ⟨c, hname, rfl, htype hname⟩
  · rintro ⟨c, hc, hnid, hft⟩
    have hmem := h.mem_liveChildren_of hd hc
    have hname : (w.erofsEntry c).name = de.name := by
      rw [erofsEntry_name, h.tree.regPath hc]
      simp [base]
    obtain ⟨name, nid, fileType⟩ := de
    refine List.mem_map.2 ⟨c, hkids.mem_iff.2 hmem, ?_⟩
    dsimp only at hname hnid hft
    rw [hnid, hft, ← hname, ← htype hc]
    rfl

end WellFormed

/-! ## Ready to be written -/

theorem mem_planned {q : Planned × ErofsDir} (hq : q ∈ w.treeWritten now) :
    q.1 ∈ (w.erofsWriter now).planned
      ((w.erofsWriter now).treeEntries w.next w.buildErofsTree.2) := by
  rw [← planTree_planned]
  exact List.mem_map_of_mem hq

section Limits

variable (h : WellFormed w) (hs : w.Storable) (hconv : w.Converted)
  (hlimits : (w.erofsWriter now).checkLimits ((w.treeWritten now).map Prod.fst) = .ok ())

include h hs hconv hlimits

theorem totalBlocks_written :
    (w.erofsWriter now).totalBlocks ((w.treeWritten now).map Prod.fst) ≤ 2 ^ 32 - 1 := by
  refine totalBlocks_le (hs.sizedWriter now).lo hs.devices (fun x hx => ?_) hlimits
  obtain ⟨q, hq, rfl⟩ := List.mem_map.1 hx
  obtain ⟨i, hi, hw⟩ := h.inode_of_written hconv hq
  rw [hw.entry, erofsEntry_inode hi.2]
  exact (hs.entries i hi).size

theorem nid_lt (i : EntryId) : w.nid now i < 2 ^ 64 := by
  refine nidOf_lt (hs.sizedWriter now) ?_ i
  rw [← planTree_planned]
  exact totalBlocks_written h hs hconv hlimits

/-- The directories are ones whose dirents can be written and read. -/
theorem dirAt_ok (hd : w.IsDirectory d) : (w.dirAt now d).Ok := by
  have hkids : (w.erofsEntry d).children.Perm (w.liveChildren d) := by
    rw [h.erofsEntry_children hd]
    exact w.sortedChildren_perm d
  refine ⟨?_, fun de hde => ?_, fun de hde => ?_, fun de hde => ?_,
    nid_lt h hs hconv hlimits d, parentNidOf_lt (nid_lt h hs hconv hlimits) d⟩
  · rw [show ((w.dirAt now d).children.map (·.name)) =
      (w.erofsEntry d).children.map fun c => (w.erofsEntry c).name from List.map_map]
    refine ((hkids.map _).nodup_iff).2 (List.Nodup.map_on (fun a ha b hb heq => ?_) ?_)
    · have hname := h.child_name hd ha
      rw [heq, h.child_name hd hb] at hname
      exact (Option.some.inj hname).symm
    · exact (h.tree.kidsNodup d).filter _
  · obtain ⟨c, hpath, hnid, htype⟩ := (h.mem_dirAt hconv hd).1 hde
    have hname := h.tree.canonical hpath de.name (by simp)
    have hnul := (hs.names hpath de.name (by simp)).1
    refine ⟨⟨hname.1.1, hname.1.2, hnul⟩, ?_, ?_⟩
    · rw [hnid]
      exact nid_lt h hs hconv hlimits c
    · rw [htype]
      unfold modeToFileType
      split_ifs <;> decide
  · obtain ⟨c, hpath, -⟩ := (h.mem_dirAt hconv hd).1 hde
    exact (hs.names hpath de.name (by simp)).2
  · obtain ⟨c, hpath, -⟩ := (h.mem_dirAt hconv hd).1 hde
    exact (h.tree.canonical hpath de.name (by simp)).2

/-- What `write` asks of an entry. -/
theorem ready_written {q : Planned × ErofsDir} (hq : q ∈ w.treeWritten now) :
    (w.erofsWriter now).Ready q.1 q.2 := by
  obtain ⟨i, hi, hw⟩ := h.inode_of_written hconv hq
  have hstore := hs.entries i hi
  have hdir : q.1.entry.mode.typ = Mode.dir → w.IsDirectory i := fun hdir => by
    rw [hw.entry, erofsEntry_mode] at hdir
    exact ⟨hi.1, beq_iff_eq.2 hdir⟩
  have hentry := erofsEntry_inode hi.2
  constructor
  case size =>
    rw [hw.entry, hentry]
    exact hstore.size
  case names =>
    rw [hw.entry, hentry]
    exact hstore.xattrs
  case data =>
    intro hreg hlayout hpos
    obtain ⟨-, off, hplan⟩ := planned_mem (mem_planned hq)
    have hflat : ¬ (q.1.entry.chunks ≠ [] ∨ q.1.entry.metadataOnly = true) := fun hchunks =>
      hlayout (by rw [hplan]; exact planEntry_chunkBased hreg hchunks)
    rw [hw.entry, hentry] at hreg hpos hflat ⊢
    rw [not_or, not_not, Bool.not_eq_true] at hflat
    exact hstore.data hreg hflat.1 hflat.2 hpos
  case tail =>
    rw [hw.entry, hentry]
    exact hstore.tail
  case direntSize =>
    intro hmode
    have hisDir : (w.buildErofsTree.2.ent i).isDir = true :=
      (w.erofsEntry_isDir i).trans (hdir hmode).2
    rw [hw.direntSize, hw.dir, ErofsTree.direntDataSize, if_pos hisDir]
    refine calcDirentDataSize_congr ?_
    rw [ErofsTree.unplaced, Writer.dirAt, ErofsWriter.dirOf, List.map_map, List.map_map]
    rfl
  case dirents =>
    intro hmode
    rw [hw.dir]
    exact dirAt_ok h hs hconv hlimits (hdir hmode)

/-- The tree is one `write` can serialize. -/
theorem prepared_written : (w.erofsWriter now).Prepared (w.treeWritten now) where
  sized := hs.sizedWriter now
  devices := hs.devices
  planned := ⟨_, planTree_planned _ _ _⟩
  ready _ hq := ready_written h hs hconv hlimits hq

/-- The dirents of a directory are shorter than the image. -/
theorem direntSize_lt {q : Planned × ErofsDir} (hq : q ∈ w.treeWritten now)
    (hdir : q.1.entry.mode.typ = Mode.dir) : q.1.direntSize < 2 ^ 63 := by
  have hhi := (hs.sizedWriter now).hi
  have hlo := (hs.sizedWriter now).lo
  have hx := mem_planned hq
  have hmade := planned_made hx
  have htotal := totalBlocks_written h hs hconv hlimits
  rcases hmade.layout with hlay | hlay | ⟨-, hreg⟩
  · -- in blocks of their own, which the image has
    have hsize : (ErofsWriter.flatPlainDataSize q.1).toNat = q.1.direntSize := by
      rw [ErofsWriter.flatPlainDataSize, if_neg (by rw [hlay]; exact not_not.2 rfl),
        if_neg (by rw [hdir]; decide), if_pos hdir]
      rfl
    have hblocks : (w.erofsWriter now).dataBlocks q.1 ≤ 2 ^ 32 - 1 := by
      have hmem := List.mem_map_of_mem (f := (w.erofsWriter now).dataBlocks)
        (List.mem_map_of_mem (f := Prod.fst) hq)
      have hle := List.le_sum_of_mem hmem
      rw [ErofsWriter.totalBlocks] at htotal
      omega
    have hceil := (@ceil_mul q.1.direntSize (w.erofsWriter now).blockSize (by omega)).1
    have hcount : (q.1.direntSize + (w.erofsWriter now).blockSize - 1) /
        (w.erofsWriter now).blockSize ≤ 2 ^ 32 := by
      rw [ErofsWriter.dataBlocks, hsize] at hblocks
      split_ifs at hblocks with hpos
      · omega
      · omega
      · rw [Nat.div_eq_of_lt (by omega)]
        omega
      · rw [Nat.div_eq_of_lt (by omega)]
        omega
    have hmul := Nat.mul_le_mul hcount hhi
    omega
  · -- behind the inode, in one block
    have hplan : q.1.plan ∈ (w.erofsWriter now).planLayout
        ((w.erofsWriter now).treeEntries w.next w.buildErofsTree.2) := by
      rw [← planned_plan]
      exact List.mem_map_of_mem hx
    have hinline := (slots_sound (hs.sizedWriter now) _).inline _ hplan hlay
    have htrailing := hmade.trailingSize
    rw [ErofsWriter.calcTrailingSize, if_neg (by rw [hdir]; decide),
      if_pos ⟨hlay, .inl hdir⟩, inodeFileSize, if_pos hdir] at htrailing
    omega
  · rw [hdir] at hreg
    exact absurd hreg (by decide)

/-- Every entry fits the fields of an inode. -/
theorem encodable_written {q : Planned × ErofsDir} (hq : q ∈ w.treeWritten now) :
    q.1.entry.Encodable q.1.direntSize := by
  obtain ⟨i, hi, hw⟩ := h.inode_of_written hconv hq
  have hstore := hs.entries i hi
  have hicount := ((checkLimits_ok hlimits).1 _ (List.mem_map_of_mem hq)).icount
  rw [(planned_made (mem_planned hq)).xattrSize] at hicount
  have hentry := hw.entry.trans (erofsEntry_inode hi.2)
  have hsize : inodeFileSize q.1.entry q.1.direntSize < 2 ^ 63 := by
    unfold inodeFileSize
    split_ifs with hd hlink
    · exact direntSize_lt h hs hconv hlimits hq hd
    · rw [hentry] at hlink ⊢
      exact (hstore.target hlink).2.2.trans_lt (by decide)
    · rw [hentry]
      exact hstore.size
  rw [hentry] at hsize hicount ⊢
  exact ⟨hstore.typed, hstore.uid, hstore.gid, hstore.nlink, hstore.mtime, hstore.mtimeNs, hsize,
    hstore.rdev, fun hlink => ⟨(hstore.target hlink).1, (hstore.target hlink).2.1⟩,
    hstore.xattrs, hicount⟩

end Limits

end Writer

end Erofs
