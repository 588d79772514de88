import Erofs.Traverse
import Erofs.Writer.Create
import Erofs.Writer.Serialize

/-!
# From the tree to the entries that are written

The middle of `Close`: `planLayout` (`layout.go`) walks the tree `buildErofsTree` has made, depth
first, and every entry it comes to gets an inode, but for the aliases, which take over the nid of
the entry they name; `fixParentNids` (`mkfs.go`) then gives every directory the nid of its parent.

The main results:

* `mem_expanded` — the queue of `buildErofsTree` comes to every directory;
* `mem_walk`, `nodup_walk` — the walk of `planLayout` meets every inode of the Writer, once.
-/

namespace Erofs

open GoPath PathTree

/-! ## The walks of `Close` -/

namespace ErofsTree

variable (t : ErofsTree)

/-- The children of a directory, sorted by their names. -/
def sortedChildren (e : EntryId) : List EntryId :=
  (t.ent e).children.insertionSort fun a b => (t.ent a).name ≤ (t.ent b).name

/-- `walk` of `planLayout`, `fuel` levels deep: the entries that get an inode. -/
def walk : ℕ → EntryId → List EntryId
  | 0, _ => []
  | fuel + 1, e =>
    if (t.ent e).aliasOf.isSome then []
    else e :: if (t.ent e).isDir then (t.sortedChildren e).flatMap (walk fuel) else []

/-- `fixParentNids`, `fuel` levels deep: the nids it assigns, in order. -/
def fixParentNids (nid : EntryId → ℕ) : ℕ → EntryId → EntryId → List (EntryId × ℕ)
  | 0, _, _ => []
  | fuel + 1, e, parent =>
    (e, nid parent) :: ((t.ent e).children.filter fun c => (t.ent c).isDir).flatMap fun c =>
      fixParentNids nid fuel c e

/-- What `calcDirentDataSize` is given, before there are nids. -/
def unplaced (e : EntryId) : ErofsDir :=
  ⟨0, 0, (t.ent e).children.map fun c => ⟨(t.ent c).name, 0, (t.ent c).erofsFileType⟩⟩

/-- `direntDataSize`, which only a directory has. -/
def direntDataSize (blockSize : ℕ) (e : EntryId) : ℕ :=
  if (t.ent e).isDir then calcDirentDataSize blockSize (t.unplaced e) else 0

/-- The entry whose inode a child names: itself, or what it is an alias of. -/
def inodeOf (e : EntryId) : EntryId := (t.ent e).aliasOf.getD e

end ErofsTree

namespace ErofsWriter

variable (w : ErofsWriter) (fuel : ℕ) (t : ErofsTree)

/-- `w.entries`, with the sizes of their dirents. -/
def treeEntries : List (ErofsEntry × ℕ) :=
  (t.walk fuel t.root).map fun e => (t.ent e, t.direntDataSize w.blockSize e)

/-- The entries of the tree and what `planLayout` assigns to them. -/
def placed : List (EntryId × Plan) :=
  (t.walk fuel t.root).zip (w.planLayout (w.treeEntries fuel t))

/-- The nid of an entry once `planLayout` is done; an alias has that of its target. -/
def nidOf (e : EntryId) : ℕ := (((w.placed fuel t).lookup (t.inodeOf e)).map Plan.nid).getD 0

/-- `parentNid` of an entry after `fixParentNids`. -/
def parentNidOf (e : EntryId) : ℕ :=
  ((t.fixParentNids (w.nidOf fuel t) fuel t.root t.root).lookup e).getD 0

/-- What `writeDirents` reads of an entry. -/
def dirOf (e : EntryId) : ErofsDir where
  nid := w.nidOf fuel t e
  parentNid := w.parentNidOf fuel t e
  children := (t.ent e).children.map fun c =>
    ⟨(t.ent c).name, w.nidOf fuel t c, (t.ent (t.inodeOf c)).erofsFileType⟩

/-- The entries `write` is given. -/
def planTree : List (Planned × ErofsDir) :=
  (w.placed fuel t).map fun q =>
    (⟨t.ent q.1, t.direntDataSize w.blockSize q.1, q.2⟩, w.dirOf fuel t q.1)

end ErofsWriter

namespace Writer

/-- The `erofsWriter` of `Close`, the clock standing at `now`. -/
def erofsWriter (w : Writer) (now : ℕ) : ErofsWriter where
  buildTime := if w.hasBuildTime then w.buildTime else now
  buildTimeNs := w.buildTimeNs
  devices := w.devices
  blockSize := w.blockSize
  noInlineData := w.noInlineData

/-- The entries of the tree as `Close` has them written. -/
def treeWritten (w : Writer) (now : ℕ) : List (Planned × ErofsDir) :=
  (w.erofsWriter now).planTree w.next w.buildErofsTree.2

/-- `Close` from the tree on: it is planned and written to `out`. -/
def writeTree (w : Writer) (now : ℕ) (out : Out) : Except GoError Out :=
  (w.erofsWriter now).write (w.treeWritten now) out

/-- `Close`, writing to `out`. -/
def closeTo (w : Writer) (now : ℕ) (out : Out) : Result :=
  w.close (match w.beginClose.writeTree now out with
    | .ok _ => none
    | .error e => some e)

end Writer

/-! ## What the walk meets -/

section Walk

variable {t : ErofsTree} {fuel : ℕ} {e : EntryId}

/-- The children the walk goes on to: those of a directory that are no aliases. -/
def ErofsTree.inodeKids (t : ErofsTree) (e : EntryId) : List EntryId :=
  if (t.ent e).isDir then (t.sortedChildren e).filter fun c => (t.ent c).aliasOf.isNone else []

/-- The walk is a depth-first walk of the entries that are no aliases. -/
theorem walk_eq_dfs (h : (t.ent e).aliasOf = none) :
    t.walk fuel e = Traverse.dfs t.inodeKids fuel e := by
  induction fuel generalizing e with
  | zero => rfl
  | succ fuel ih =>
    rw [ErofsTree.walk, Traverse.dfs, ErofsTree.inodeKids, h]
    cases (t.ent e).isDir with
    | false => rfl
    | true =>
      simp only [Option.isSome_none, Bool.false_eq_true, if_false, if_true]
      congr 1
      induction t.sortedChildren e with
      | nil => rfl
      | cons c cs ihc =>
        cases hc : (t.ent c).aliasOf with
        | none =>
          rw [List.flatMap_cons, List.filter_cons_of_pos (by simp [hc]), List.flatMap_cons, ih hc,
            ihc]
        | some a =>
          have hnil : t.walk fuel c = [] := by
            cases fuel with
            | zero => rfl
            | succ fuel => simp [ErofsTree.walk, hc]
          rw [List.flatMap_cons, List.filter_cons_of_neg (by simp [hc]), hnil, List.nil_append, ihc]

end Walk

namespace Writer

variable {w : Writer} {p : Path} {i c d : EntryId}

/-- The child directories `buildErofsTree` queues. -/
def dirKids (w : Writer) (e : EntryId) : List EntryId :=
  (w.liveChildren e).filter fun c => (w.ent c).linkTo.isNone && (w.ent c).isDir

theorem dequeued_eq_bfs (w : Writer) (fuel : ℕ) (queue : List EntryId) :
    w.dequeued fuel queue = Traverse.bfs w.dirKids fuel queue := by
  induction fuel generalizing queue with
  | zero => rfl
  | succ fuel ih =>
    cases queue with
    | nil => rfl
    | cons cur queue =>
      rw [dequeued, Traverse.bfs, ih]
      rfl

theorem mem_liveChildren : c ∈ w.liveChildren d ↔
    c ∈ (w.ent d).children ∧ (w.ent c).removed = false := by
  simp [liveChildren]

/-- The entry is registered, and has an inode of its own. -/
def IsInode (w : Writer) (i : EntryId) : Prop :=
  w.byPath (w.ent i).path = some i ∧ (w.ent i).linkTo = none

/-- The entry is a registered directory. -/
def IsDirectory (w : Writer) (i : EntryId) : Prop :=
  w.byPath (w.ent i).path = some i ∧ (w.ent i).isDir = true

namespace WellFormed

variable (h : WellFormed w)

include h

theorem registered (hp : w.byPath p = some i) : w.byPath (w.ent i).path = some i := by
  rw [h.tree.regPath hp]
  exact hp

/-- A child that is not removed is registered one name below its directory. -/
theorem child (hd : w.IsDirectory d) (hc : c ∈ w.liveChildren d) :
    d < c ∧ w.byPath (w.ent c).path = some c ∧
      ∃ n, (w.ent c).path = (w.ent d).path ++ [n] := by
  obtain ⟨hmem, hlive⟩ := mem_liveChildren.1 hc
  obtain ⟨hlt, n, hn⟩ := h.tree.childOf hd.1 hd.2 hmem hlive
  exact ⟨hlt, h.registered hn, n, h.tree.regPath hn⟩

/-- Every registered entry but the root is a child of a directory. -/
theorem parent (hi : w.byPath (w.ent i).path = some i) (hne : i ≠ w.root) :
    ∃ d, w.IsDirectory d ∧ i ∈ w.liveChildren d ∧
      (w.ent i).path.dropLast = (w.ent d).path := by
  have hpath : (w.ent i).path ≠ [] := by
    intro hnil
    rw [hnil, h.tree.rootAt] at hi
    exact hne (Option.some.inj hi).symm
  obtain ⟨d, hd, hdir, hmem, -⟩ := h.tree.parentOf hi hpath
  exact ⟨d, ⟨h.registered hd, hdir⟩, mem_liveChildren.2 ⟨hmem, h.tree.regLive hi⟩,
    (h.tree.regPath hd).symm⟩

theorem isDirectory_root : w.IsDirectory w.root := ⟨h.registered h.tree.rootAt, h.tree.rootDir⟩

/-- The directories are a tree under the children `buildErofsTree` queues. -/
theorem hangs_dirs :
    Traverse.Hangs w.IsDirectory (fun i => (w.ent i).path) (fun i => w.next - 1 - i)
      w.dirKids where
  kid hv hc := by
    obtain ⟨hlive, htest⟩ := List.mem_filter.1 hc
    exact ⟨(h.child hv hlive).2.1, (Bool.and_eq_true _ _ ▸ htest).2⟩
  below hv hc := (h.child hv (List.mem_filter.1 hc).1).2.2
  rank_lt hv hc := by
    obtain ⟨hlt, hreg, -⟩ := h.child hv (List.mem_filter.1 hc).1
    have := h.tree.regLt hreg
    show w.next - 1 - _ < w.next - 1 - _
    lia
  inj hv hu hpos := by
    have := hv.1
    rw [hpos, hu.1] at this
    exact (Option.some.inj this).symm
  nodup _ := ((h.tree.kidsNodup _).filter _).filter _

/-- The root is of smaller rank than there are entries. -/
theorem rank_root : w.next - 1 - w.root < w.next := by
  have := h.tree.regLt h.tree.rootAt
  lia

/-- The queue of `buildErofsTree` comes to the directories, and to nothing else. -/
theorem mem_expanded : d ∈ w.expanded ↔ w.IsDirectory d := by
  have hroot := h.isDirectory_root
  have hlen : ([w.root].flatMap (Traverse.dfs w.dirKids w.next)).length ≤ w.next := by
    rw [List.flatMap_singleton]
    have hsub : Traverse.dfs w.dirKids w.next w.root ⊆ List.range w.next := fun x hx =>
      List.mem_range.2 (h.tree.regLt (h.hangs_dirs.node_of_mem hroot hx).1.1)
    have hle := (h.hangs_dirs.nodup_dfs hroot).subperm hsub |>.length_le
    rwa [List.length_range] at hle
  have hqueue : ∀ v ∈ [w.root], w.IsDirectory v ∧ w.next - 1 - v < w.next := by
    intro v hv
    rw [List.mem_singleton.1 hv]
    exact ⟨hroot, h.rank_root⟩
  have hperm := h.hangs_dirs.bfs_perm hqueue hlen
  rw [expanded, dequeued_eq_bfs, hperm.mem_iff, List.flatMap_singleton]
  refine ⟨fun hd => (h.hangs_dirs.node_of_mem hroot hd).1,
    fun hd => h.hangs_dirs.mem_dfs hroot h.rank_root (fun x hx hne => ?_) hd⟩
  obtain ⟨u, hu, hmem, -⟩ := h.parent hx.1 hne
  have hplain := (h.tree.dirPlain hx.1 hx.2).1
  exact ⟨u, hu, List.mem_filter.2 ⟨hmem, by simp [hplain, hx.2]⟩⟩

/-- The entries `buildErofsTree` comes to are the registered ones below the root. -/
theorem mem_visited :
    c ∈ w.visited ↔ w.byPath (w.ent c).path = some c ∧ c ≠ w.root := by
  rw [visited, List.mem_flatMap]
  constructor
  · rintro ⟨d, hd, hc⟩
    obtain ⟨-, hreg, n, hn⟩ := h.child (h.mem_expanded.1 hd) hc
    refine ⟨hreg, ?_⟩
    rintro rfl
    rw [h.tree.regPath h.tree.rootAt] at hn
    exact absurd hn.symm (by simp)
  · rintro ⟨hreg, hne⟩
    obtain ⟨d, hd, hc, -⟩ := h.parent hreg hne
    exact ⟨d, h.mem_expanded.2 hd, hc⟩

end WellFormed

/-! ## The entries of the tree -/

theorem erofsEntry_inode (hi : (w.ent i).linkTo = none) :
    w.erofsEntry i = { w.fsToErofs (w.ent i) with
      children := if w.expanded.contains i then w.sortedChildren i else [] } := by
  simp only [erofsEntry, hi]

theorem erofsEntry_alias {a : EntryId} (hi : (w.ent i).linkTo = some a) :
    w.erofsEntry i = {
      mode := (w.ent i).mode, name := base (w.ent i).path, path := (w.ent i).path
      aliasOf := if w.isConverted a then some a else none } := by
  simp only [erofsEntry, hi]

theorem erofsEntry_mode (w : Writer) (i : EntryId) : (w.erofsEntry i).mode = (w.ent i).mode := by
  cases hl : (w.ent i).linkTo with
  | none => rw [erofsEntry_inode hl]; rfl
  | some a => rw [erofsEntry_alias hl]

theorem erofsEntry_isDir (w : Writer) (i : EntryId) :
    (w.erofsEntry i).isDir = (w.ent i).isDir := by
  rw [ErofsEntry.isDir, FsEntry.isDir, erofsEntry_mode]

theorem erofsEntry_name (w : Writer) (i : EntryId) :
    (w.erofsEntry i).name = base (w.ent i).path := by
  cases hl : (w.ent i).linkTo with
  | none => rw [erofsEntry_inode hl]; rfl
  | some a => rw [erofsEntry_alias hl]

theorem sortedChildren_perm (w : Writer) (d : EntryId) :
    (w.sortedChildren d).Perm (w.liveChildren d) := List.perm_insertionSort _ _

/-- Every registered alias has its target among the converted entries. -/
def Converted (w : Writer) : Prop :=
  ∀ p i a, w.byPath p = some i → (w.ent i).linkTo = some a → w.isConverted a = true

theorem WellFormed.converted (h : WellFormed w) (hnone : w.danglingAlias = none) :
    w.Converted := by
  intro p i a hp hl
  have hroot : i ≠ w.root := by
    rintro rfl
    rw [(h.tree.dirPlain h.tree.rootAt h.tree.rootDir).1] at hl
    cases hl
  have hmem : i ∈ w.visited := h.mem_visited.2 ⟨h.registered hp, hroot⟩
  have hi := List.findSome?_eq_none_iff.1 hnone i (List.mem_reverse.2 hmem)
  rw [hl, Option.bind_some] at hi
  by_contra hconv
  rw [if_neg hconv] at hi
  cases hi

/-- What an alias stands for in the tree is what it stands for in the Writer. -/
theorem Converted.aliasOf_eq (hconv : w.Converted) (hp : w.byPath p = some i) :
    (w.erofsEntry i).aliasOf = (w.ent i).linkTo := by
  cases hl : (w.ent i).linkTo with
  | none =>
    rw [erofsEntry_inode hl]
    rfl
  | some a =>
    rw [erofsEntry_alias hl]
    exact if_pos (hconv _ _ _ hp hl)

theorem Converted.inodeOf_eq (hconv : w.Converted) (hp : w.byPath p = some i) :
    w.buildErofsTree.2.inodeOf i = w.resolve i :=
  congrArg (·.getD i) (hconv.aliasOf_eq hp)

theorem Converted.inodeOf_inode (hconv : w.Converted) (hi : w.IsInode i) :
    w.buildErofsTree.2.inodeOf i = i :=
  (hconv.inodeOf_eq hi.1).trans (congrArg (·.getD i) hi.2)

namespace WellFormed

variable (h : WellFormed w)

include h

theorem isDirectory_inode (hd : w.IsDirectory d) : w.IsInode d :=
  ⟨hd.1, (h.tree.dirPlain hd.1 hd.2).1⟩

/-- The children of a directory in the tree. -/
theorem erofsEntry_children (hd : w.IsDirectory d) :
    (w.erofsEntry d).children = w.sortedChildren d := by
  rw [erofsEntry_inode (h.isDirectory_inode hd).2]
  exact if_pos (List.contains_iff_mem.2 (h.mem_expanded.2 hd))

/-- The inode of a name is an entry of the tree. -/
theorem isInode_resolve (hconv : w.Converted) (hp : w.byPath p = some i) :
    w.IsInode (w.resolve i) := by
  unfold resolve
  cases hl : (w.ent i).linkTo with
  | none => exact ⟨h.registered hp, hl⟩
  | some a =>
    have hc := hconv _ _ _ hp hl
    simp only [isConverted, Bool.and_eq_true, List.contains_iff_mem, Option.isNone_iff_eq_none]
      at hc
    exact ⟨(h.mem_visited.1 hc.1.1).1, hc.1.2⟩

/-- The children the walk goes on to are those of the directory that are no aliases. -/
theorem inodeKids_perm (hconv : w.Converted) (hd : w.IsDirectory d) :
    (w.buildErofsTree.2.inodeKids d).Perm
      ((w.liveChildren d).filter fun c => (w.ent c).linkTo.isNone) := by
  have hkids : (w.buildErofsTree.2.sortedChildren d).Perm (w.liveChildren d) := by
    refine (List.perm_insertionSort _ _).trans ?_
    show (w.erofsEntry d).children.Perm _
    rw [h.erofsEntry_children hd]
    exact w.sortedChildren_perm d
  have hdir : (w.buildErofsTree.2.ent d).isDir = true := (w.erofsEntry_isDir d).trans hd.2
  rw [ErofsTree.inodeKids, if_pos hdir]
  refine (hkids.filter _).trans (List.Perm.of_eq (List.filter_congr fun c hc => ?_))
  exact congrArg Option.isNone (hconv.aliasOf_eq (h.child hd hc).2.1)

/-- The inodes are a tree under the children the walk goes on to. -/
theorem hangs_inodes (hconv : w.Converted) :
    Traverse.Hangs w.IsInode (fun i => (w.ent i).path) (fun i => w.next - 1 - i)
      w.buildErofsTree.2.inodeKids := by
  have hdir : ∀ {v c}, w.IsInode v → c ∈ w.buildErofsTree.2.inodeKids v → w.IsDirectory v := by
    intro v c hv hc
    unfold ErofsTree.inodeKids at hc
    split_ifs at hc with hdir
    · exact ⟨hv.1, (w.erofsEntry_isDir v).symm.trans hdir⟩
    · cases hc
  have hkid : ∀ {v c}, w.IsInode v → c ∈ w.buildErofsTree.2.inodeKids v →
      w.IsDirectory v ∧ c ∈ w.liveChildren v ∧ (w.ent c).linkTo = none := by
    intro v c hv hc
    have hd := hdir hv hc
    obtain ⟨hlive, htest⟩ := List.mem_filter.1 ((h.inodeKids_perm hconv hd).mem_iff.1 hc)
    exact ⟨hd, hlive, Option.isNone_iff_eq_none.1 htest⟩
  constructor
  case kid =>
    intro v c hv hc
    obtain ⟨hd, hlive, hl⟩ := hkid hv hc
    exact ⟨(h.child hd hlive).2.1, hl⟩
  case below =>
    intro v c hv hc
    obtain ⟨hd, hlive, -⟩ := hkid hv hc
    exact (h.child hd hlive).2.2
  case rank_lt =>
    intro v c hv hc
    obtain ⟨hd, hlive, -⟩ := hkid hv hc
    obtain ⟨hlt, hreg, -⟩ := h.child hd hlive
    have := h.tree.regLt hreg
    show w.next - 1 - _ < w.next - 1 - _
    lia
  case inj =>
    intro v u hv hu hpos
    have := hv.1
    rw [hpos, hu.1] at this
    exact (Option.some.inj this).symm
  case nodup =>
    intro v hv
    cases hv' : (w.ent v).isDir with
    | true =>
      refine (h.inodeKids_perm hconv ⟨hv.1, hv'⟩).nodup_iff.2 ?_
      exact ((h.tree.kidsNodup _).filter _).filter _
    | false =>
      have hnil : w.buildErofsTree.2.inodeKids v = [] :=
        if_neg (by rw [show (w.buildErofsTree.2.ent v).isDir = false from
          (w.erofsEntry_isDir v).trans hv']; exact Bool.false_ne_true)
      rw [hnil]
      exact List.nodup_nil

theorem walk_eq : w.buildErofsTree.2.walk w.next w.root =
    Traverse.dfs w.buildErofsTree.2.inodeKids w.next w.root := by
  refine walk_eq_dfs ?_
  show (w.erofsEntry w.root).aliasOf = none
  rw [erofsEntry_inode (h.isDirectory_inode h.isDirectory_root).2]
  rfl

/-- The walk of `planLayout` meets the inodes, and nothing else. -/
theorem mem_walk (hconv : w.Converted) :
    i ∈ w.buildErofsTree.2.walk w.next w.root ↔ w.IsInode i := by
  have hroot := h.isDirectory_inode h.isDirectory_root
  rw [h.walk_eq]
  refine ⟨fun hi => ((h.hangs_inodes hconv).node_of_mem hroot hi).1,
    fun hi => (h.hangs_inodes hconv).mem_dfs hroot h.rank_root (fun x hx hne => ?_) hi⟩
  obtain ⟨u, hu, hmem, -⟩ := h.parent hx.1 hne
  refine ⟨u, h.isDirectory_inode hu, (h.inodeKids_perm hconv hu).mem_iff.2 ?_⟩
  exact List.mem_filter.2 ⟨hmem, by simp [hx.2]⟩

/-- No inode is met twice. -/
theorem nodup_walk (hconv : w.Converted) :
    (w.buildErofsTree.2.walk w.next w.root).Nodup := by
  rw [h.walk_eq]
  exact (h.hangs_inodes hconv).nodup_dfs (h.isDirectory_inode h.isDirectory_root)

/-- The walk starts with the root. -/
theorem head_walk : (w.buildErofsTree.2.walk w.next w.root).head? = some w.root := by
  have hlt := h.tree.regLt h.tree.rootAt
  obtain ⟨n, hn⟩ : ∃ n, w.next = n + 1 := ⟨w.next - 1, by lia⟩
  rw [h.walk_eq, hn]
  rfl

end WellFormed

end Writer

end Erofs
