import Erofs.Stepwise
import Erofs.Reader.Session

/-!
# The budget of `resolve`

`resolve` bounds the symlinks it follows, the length of each path it composes, and, by
`maxResolveComponents`, the components it walks in all.  The last bound is 255 times 2048: a path of
4096 bytes has at most 2048 components, and there are 255 symlinks to follow.  But the path the
caller gives is walked as well, so that a resolution of 255 symlinks is one of 256 walks.

The main results:

* `Paid.step` — the components of each walk are paid by the symlink that starts the next;
* `budget_enough_iff` — the budget refuses no resolution of at most `n` symlinks just when `n` is
  less than 255;
* `doubling_refused` — a resolution of 255 symlinks, every path of it within 4096 bytes, that is
  answered with `ErrLoop`.
-/

namespace Erofs

open GoPath Oracle Stepwise

namespace Image

/-- A valid path of at most 4096 bytes has at most 2048 components. -/
theorem components_le {name : Bytes} (hv : validPath name = true)
    (hlen : name.length ≤ maxPathLen) : components name ≤ maxSymlinkSize / 2 := by
  have hmax : maxPathLen = 4096 := rfl
  have hhalf : maxSymlinkSize / 2 = 2048 := rfl
  rw [validPath, Bool.or_eq_true, beq_iff_eq, List.all_eq_true] at hv
  obtain rfl | hall := hv
  · decide
  · have helem : ∀ e ∈ split name, IsElem e := by
      intro e he
      have hne : e ≠ [] := by
        have := hall e he
        simp only [Bool.and_eq_true, bne_iff_ne] at this
        exact this.1.1
      exact ⟨hne, slash_not_mem_split name e he⟩
    have hne : split name ≠ [] := List.splitOn_ne_nil slash name
    have hcount := two_mul_count_join hne helem
    rw [join_split] at hcount
    unfold components
    split_ifs <;> omega

/-- A component is walked. -/
theorem components_cutPath {name : Bytes} (hne : name ≠ []) :
    components (cutPath name).2 + 1 ≤ components name := by
  have hname : components name = name.count slash + 1 := if_neg hne
  have hsplit := List.takeWhile_append_dropWhile (p := (· != slash)) (l := name)
  cases hdrop : name.dropWhile (· != slash) with
  | nil =>
    have : (cutPath name).2 = [] := by simp [cutPath, hdrop]
    rw [this, hname]
    simp [components]
  | cons c rest =>
    have hrest : (cutPath name).2 = rest := by simp [cutPath, hdrop]
    have hc : c = slash := by
      have := List.head_dropWhile_not (· != slash) (l := name) (by simp [hdrop])
      simpa [hdrop] using this
    have hcount : rest.count slash + 1 ≤ name.count slash := by
      rw [← hsplit, hdrop, hc, List.count_append, List.count_cons_self]
      omega
    rw [hrest, hname]
    unfold components
    split_ifs <;> omega

/-- What the walk restarts with: a path of at most 2048 components, or `ErrInvalid`. -/
theorem restartPath_cases (target : Bytes) :
    (∃ e, restartPath target = .error e ∧ e.sentinel = .invalid) ∨
      ∃ path, restartPath target = .ok path ∧ target.length ≤ maxPathLen ∧
        components path ≤ maxSymlinkSize / 2 := by
  simp only [restartPath]
  generalize hs : (if isAbs target = true then target.drop 1 else target) = stripped
  by_cases hlen : maxPathLen < target.length
  · exact .inl ⟨_, if_pos hlen, rfl⟩
  by_cases hvalid : stripped ≠ [] ∧ (!validPath stripped) = true
  · exact .inl ⟨_, (if_neg hlen).trans (if_pos hvalid), rfl⟩
  refine .inr ⟨_, (if_neg hlen).trans (if_neg hvalid), by omega, ?_⟩
  have hle : stripped.length ≤ maxPathLen := by
    rw [← hs]
    split_ifs
    · rw [List.length_drop]
      omega
    · omega
  by_cases hnil : stripped = []
  · subst hnil
    decide
  split_ifs
  · decide
  · exact components_le (by simpa [hnil] using hvalid) hle

theorem restartPath_ok {target path : Bytes} (h : restartPath target = .ok path) :
    target.length ≤ maxPathLen ∧ components path ≤ maxSymlinkSize / 2 := by
  obtain ⟨e, he, -⟩ | ⟨path', hpath, hle⟩ := restartPath_cases target
  · cases h.symm.trans he
  · cases h.symm.trans hpath
    exact hle

/-! ## The walk without its budget -/

variable (img : Image) (o : Req → Answer) (follow : Bool)

/-- The lookup of the next component of a walk. -/
def lookupNext (s : Walk × Bytes) : Except GoError (ℕ × FileMode) :=
  (lookupIn img (cutPath s.2).1 s.1.nid s.1.ftype (cutPath s.2).1).run o

/-- The target of the symlink `nid`, read as the next component of a walk. -/
def readNext (s : Walk × Bytes) (nid : ℕ) : Except GoError Bytes :=
  (img.linkTarget nid (cutPath s.2).1).run o

/-- The next component of a walk is the symlink `nid`, and `resolve` follows it. -/
structure Hop (s : Walk × Bytes) (nid : ℕ) : Prop where
  left : s.2 ≠ []
  dir : s.1.ftype = FileMode.dir
  link : ∃ m, img.lookupNext o s = .ok (nid, m) ∧
    (m.typ.has FileMode.symlink && (follow || (cutPath s.2).2 != [])) = true

/-- One component of a path that has one left. -/
def stepOf (s : Walk × Bytes) : Option (Walk × Bytes) :=
  if s.2 = [] then none else ((img.resolveStep follow s.1 s.2).run o).toOption

/-- The walk `resolve` starts for `name`. -/
def startOf (name : Bytes) : Walk × Bytes :=
  let start := if name = dot then [] else name
  (img.rootWalk start 0, start)

/-- `resolve` of `name` is at `s` after `c` components, however many it may walk. -/
def Walked (name : Bytes) (c : ℕ) (s : Walk × Bytes) : Prop :=
  validPath name = true ∧ name.length ≤ maxPathLen ∧
    after (img.stepOf o follow) c (img.startOf name) = some s

variable {img o follow} {s t : Walk × Bytes} {name : Bytes} {nid c : ℕ}

theorem stepOf_eq_some :
    img.stepOf o follow s = some t ↔ s.2 ≠ [] ∧ (img.resolveStep follow s.1 s.2).run o = .ok t := by
  unfold stepOf
  cases (img.resolveStep follow s.1 s.2).run o <;> simp [Except.toOption]

/-- What a component costs: a directory is entered, or the walk starts again with what a symlink
leads to. -/
theorem resolveStep_run (hdir : s.1.ftype = FileMode.dir) :
    (img.resolveStep follow s.1 s.2).run o = match img.lookupNext o s with
      | .error e => .error e
      | .ok (nid, m) =>
        if m.typ.has FileMode.symlink && (follow || (cutPath s.2).2 != []) then
          if maxSymlinks < s.1.links + 1 then .error errLoop
          else match img.readNext o s nid with
            | .error e => .error e
            | .ok target =>
              (restartPath (spliceTarget s.1.curPath target (cutPath s.2).2)).map fun name =>
                (img.rootWalk name (s.1.links + 1), name)
        else .ok (s.1.enter nid m.typ (cutPath s.2).1, (cutPath s.2).2) := by
  rw [resolveStep]
  simp only [hdir, ne_eq, not_true_eq_false, if_false]
  rw [Prog.exec_bind, lookupNext, hdir]
  cases (lookupIn img (cutPath s.2).1 s.1.nid FileMode.dir (cutPath s.2).1).run o with
  | error e => rfl
  | ok r =>
    dsimp only
    split_ifs
    · rfl
    · rw [Prog.exec_bind, readNext]
      cases (img.linkTarget r.1 (cutPath s.2).1).run o <;> rfl
    · rfl

/-- A symlink that is followed. -/
theorem Hop.run (h : img.Hop o follow s nid) :
    (img.resolveStep follow s.1 s.2).run o =
      if maxSymlinks < s.1.links + 1 then .error errLoop
      else match img.readNext o s nid with
        | .error e => .error e
        | .ok target =>
          (restartPath (spliceTarget s.1.curPath target (cutPath s.2).2)).map fun name =>
            (img.rootWalk name (s.1.links + 1), name) := by
  obtain ⟨m, hm, hlink⟩ := h.link
  rw [resolveStep_run h.dir, hm]
  dsimp only
  rw [if_pos hlink]

/-- What is known of a component that was walked. -/
inductive Stepped (img : Image) (o : Req → Answer) (follow : Bool) (s : Walk × Bytes) :
    Walk × Bytes → Prop
  | enter (nid : ℕ) (ftype : FileMode) :
    Stepped img o follow s (s.1.enter nid ftype (cutPath s.2).1, (cutPath s.2).2)
  | hop {nid : ℕ} {target path : Bytes} (h : img.Hop o follow s nid)
    (hlinks : s.1.links < maxSymlinks) (hread : img.readNext o s nid = .ok target)
    (hpath : restartPath (spliceTarget s.1.curPath target (cutPath s.2).2) = .ok path) :
    Stepped img o follow s (img.rootWalk path (s.1.links + 1), path)

theorem stepped_of_step (h : img.stepOf o follow s = some t) : Stepped img o follow s t := by
  obtain ⟨hleft, hrun⟩ := stepOf_eq_some.1 h
  by_cases hdir : s.1.ftype = FileMode.dir
  · cases hm : img.lookupNext o s with
    | error e =>
      rw [resolveStep_run hdir, hm] at hrun
      cases hrun
    | ok r =>
      obtain ⟨nid, m⟩ := r
      by_cases hlink : (m.typ.has FileMode.symlink && (follow || (cutPath s.2).2 != [])) = true
      · have hhop : img.Hop o follow s nid := ⟨hleft, hdir, m, hm, hlink⟩
        rw [hhop.run] at hrun
        split at hrun
        · cases hrun
        rename_i hlinks
        split at hrun
        · cases hrun
        rename_i target hread
        cases hpath : restartPath (spliceTarget s.1.curPath target (cutPath s.2).2) with
        | error e =>
          rw [hpath] at hrun
          cases hrun
        | ok path =>
          rw [hpath] at hrun
          obtain rfl := Except.ok.inj hrun
          exact .hop hhop (by omega) hread hpath
      · rw [resolveStep_run hdir, hm] at hrun
        dsimp only at hrun
        rw [if_neg hlink] at hrun
        obtain rfl := Except.ok.inj hrun
        exact .enter nid m.typ
  · rw [resolveStep] at hrun
    simp only [ne_eq, hdir, not_false_eq_true, if_true] at hrun
    cases hrun

/-- The loop of `resolve` with the components of a run in its budget. -/
theorem resolveLoop_after {k : ℕ} (h : after (img.stepOf o follow) c s = some t) :
    (img.resolveLoop follow (c + k) s.1 s.2).run o = (img.resolveLoop follow k t.1 t.2).run o := by
  induction c generalizing k t with
  | zero =>
    obtain rfl := Option.some.inj h
    rw [Nat.zero_add]
  | succ c ih =>
    obtain ⟨u, hu, hstep⟩ := after_succ.1 h
    obtain ⟨hleft, hrun⟩ := stepOf_eq_some.1 hstep
    rw [Nat.add_right_comm, Nat.add_assoc, ih hu, resolveLoop, if_neg hleft, Prog.exec_bind, hrun]

/-- `resolve` of a path it accepts. -/
theorem resolve_run {op : String} (hv : validPath name = true) (hlen : name.length ≤ maxPathLen) :
    (img.resolve op name follow).run o =
      match (img.resolveLoop follow maxResolveComponents (img.startOf name).1
        (img.startOf name).2).run o with
      | .error e => .error (e.onPath op name)
      | .ok w => .ok (if w.basename = [] then { w with basename := name } else w) := by
  rw [resolve, if_neg (by simp [hv]), if_neg (by omega)]
  dsimp only
  rw [Prog.run_bind, Prog.run_done]
  rfl

/-- The components walked and those left are paid by the walks begun, 2048 for each. -/
def Paid (c : ℕ) (s : Walk × Bytes) : Prop :=
  c + components s.2 ≤ (s.1.links + 1) * (maxSymlinkSize / 2)

theorem Paid.start (hv : validPath name = true) (hlen : name.length ≤ maxPathLen) :
    Paid 0 (img.startOf name) := by
  have hle : components (img.startOf name).2 ≤ maxSymlinkSize / 2 := by
    show components (if name = dot then [] else name) ≤ _
    split_ifs
    · decide
    · exact components_le hv hlen
  have hlinks : (img.startOf name).1.links = 0 := rfl
  rw [Paid, hlinks]
  omega

/-- One component is walked, or a symlink pays for the whole of the path it leads to. -/
theorem Paid.step (h : Paid c s) (hstep : img.stepOf o follow s = some t) : Paid (c + 1) t := by
  have hcut := components_cutPath (stepOf_eq_some.1 hstep).1
  unfold Paid at h ⊢
  cases stepped_of_step hstep with
  | enter nid ftype =>
    show c + 1 + components (cutPath s.2).2 ≤ (s.1.links + 1) * _
    omega
  | @hop _ _ path _ _ _ hpath =>
    have hle := (restartPath_ok hpath).2
    show c + 1 + components path ≤ (s.1.links + 1 + 1) * _
    rw [Nat.add_mul (s.1.links + 1)]
    omega

theorem Paid.of_walked (h : img.Walked o follow name c s) : Paid c s := by
  obtain ⟨hv, hlen, hafter⟩ := h
  exact after_induct (P := Paid) (Paid.start hv hlen) (fun _ _ _ _ hp hs => hp.step hs) hafter

/-- The first component of a path is its first element. -/
theorem cutPath_join {e : Bytes} (he : slash ∉ e) (es : List Bytes) :
    cutPath (join (e :: es)) = (e, join es) := by
  have hall : ∀ c ∈ e, (c != slash) = true := fun c hc => by
    rw [bne_iff_ne]
    rintro rfl
    exact he hc
  by_cases hes : es = []
  · subst hes
    simp [cutPath, join, List.intercalate, List.takeWhile_eq_self_iff.2 hall,
      List.dropWhile_eq_nil_iff.2 hall]
  · rw [join_cons_eq, if_neg hes, cutPath, List.takeWhile_append_of_pos hall,
      List.dropWhile_append_of_pos hall]
    simp

/-- The path a relative symlink leads to, on its elements. -/
theorem spliceTarget_join {e : Bytes} {kept ts rest : List Bytes} {t : Bytes} (he : IsElem e)
    (ht : IsElem t) (h : ∀ x ∈ kept ++ (t :: ts) ++ rest, slash ∉ x)
    (hne : cleanElems false (e :: kept ++ (t :: ts) ++ rest) ≠ []) (hrest : ∀ x ∈ rest, x ≠ []) :
    spliceTarget (join (e :: kept)) (join (t :: ts)) (join rest) =
      join (cleanElems false (e :: kept ++ (t :: ts) ++ rest)) := by
  have htail : (if join rest ≠ [] then join (t :: ts) ++ slash :: join rest
      else join (t :: ts)) = join (t :: ts ++ rest) := by
    cases rest with
    | nil => simp [join]
    | cons r rest =>
      rw [if_pos, join_append (by simp) (by simp)]
      rw [join_cons_eq]
      have : r ≠ [] := hrest r (by simp)
      simp [this]
  have hclean : clean (join (e :: (kept ++ (t :: ts) ++ rest))) =
      join (cleanElems false (e :: (kept ++ (t :: ts) ++ rest))) := clean_join he h hne
  rw [spliceTarget]
  simp only [htail]
  rw [List.cons_append, not_isAbs_join ht]
  simp only [Bool.false_eq_true, if_false]
  have hjoin : join (e :: kept) ++ slash :: join (t :: (ts ++ rest)) =
      join (e :: (kept ++ (t :: ts) ++ rest)) := by
    rw [← join_append (by simp) (by simp)]
    simp
  rw [hjoin]
  exact hclean

theorem validPath_join {es : List Bytes} (hne : es ≠ []) (h : Canonical es) :
    validPath (join es) = true := by
  rw [validPath, split_join hne fun x hx => (h x hx).1.2, Bool.or_eq_true, List.all_eq_true]
  refine .inr fun x hx => ?_
  obtain ⟨⟨h1, -⟩, h2, h3⟩ := h x hx
  simp [h1, h2, h3]

theorem join_ne_dot {es : List Bytes} (hne : es ≠ []) (h : Canonical es) : join es ≠ dot := by
  intro hdot
  have hsplit := split_join hne fun x hx => (h x hx).1.2
  rw [hdot] at hsplit
  have hmem : dot ∈ es := by
    rw [← hsplit]
    decide
  exact (h dot hmem).2.1 rfl

/-- A path of names is walked as it is. -/
theorem restartPath_join {es : List Bytes} (hne : es ≠ []) (h : Canonical es)
    (hlen : (join es).length ≤ maxPathLen) : restartPath (join es) = .ok (join es) := by
  obtain ⟨e, es, rfl⟩ := List.exists_cons_of_ne_nil hne
  rw [restartPath]
  simp only [not_isAbs_join (h e (by simp)).1, Bool.false_eq_true, if_false]
  rw [if_neg (by omega), if_neg (by simp [validPath_join hne h]), if_neg (join_ne_dot hne h)]

/-! ## An image whose symlinks double -/

/-- The names of the eight symlinks. -/
def digit (j : ℕ) : Bytes := [Fin.ofNat 256 (48 + j)]

/-- Where they lead: `0` to the directory it is in, each other twice through the one before it. -/
def digitTarget : ℕ → List Bytes
  | 0 => [dot]
  | j + 1 => [digit j, digit j]

/-- A dirent of the root directory, with the offset of its name. -/
def direntBytes (nid off ftype : Byte) : Bytes := [nid] ++ zeros 7 ++ [off, 0, ftype, 0]

/-- A compact flat-inline symlink inode and its target, over 64 bytes. -/
def linkBytes (target : Bytes) : Bytes :=
  [4, 0, 0, 0, 0xff, 0xa1, 1, 0, Fin.ofNat 256 target.length] ++ zeros 23 ++ target ++
    zeros (32 - target.length)

/-- An image of five blocks of 512 bytes whose root directory holds itself as `a` and eight
symlinks, `0` to `7`. -/
def doublingImage : Bytes :=
  zeros 1024
    ++ [0xe2, 0xe1, 0xf5, 0xe0] ++ zeros 8 ++ [9] ++ zeros 23 ++ [5, 0, 0, 0, 3] ++ zeros 471
    -- inode 0: compact, flat-inline, a directory of 144 bytes
    ++ [4, 0, 0, 0, 0xed, 0x41, 2, 0, 144] ++ zeros 23
    -- the dirents ".", "..", "0" to "7" and "a"
    ++ direntBytes 0 132 2 ++ direntBytes 0 133 2
    ++ (List.range 8).flatMap (fun j =>
      direntBytes (Fin.ofNat 256 (6 + 2 * j)) (Fin.ofNat 256 (135 + j)) 7)
    ++ direntBytes 0 143 2
    ++ [46, 46, 46] ++ (List.range 8).flatMap digit ++ [97] ++ zeros 16
    -- the symlinks are the inodes 6, 8, .. 20
    ++ (List.range 8).flatMap (fun j => linkBytes (join (digitTarget j))) ++ zeros 320

/-- The reader of that image. -/
def doublingReader : Req → Answer := holding fun _ => doublingImage

theorem doubling_dir :
    (lookupIn oneFileFS [97] 0 FileMode.dir [97]).run doublingReader = .ok (0, FileMode.dir) := by
  decide +kernel

theorem doubling_link : ∀ j < 8,
    (lookupIn oneFileFS (digit j) 0 FileMode.dir (digit j)).run doublingReader =
        .ok (6 + 2 * j, FileMode.symlink) ∧
      (oneFileFS.linkTarget (6 + 2 * j) (digit j)).run doublingReader =
        .ok (join (digitTarget j)) := by
  decide +kernel

/-- The walk is in the directory, `kept` behind it and `rest` before it. -/
structure Stands (kept : List Bytes) (links : ℕ) (rest : List Bytes) (s : Walk × Bytes) :
    Prop where
  nid : s.1.nid = 0
  ftype : s.1.ftype = FileMode.dir
  curPath : s.1.curPath = join kept
  links : s.1.links = links
  path : s.2 = join rest

theorem Stands.rootWalk (es : List Bytes) (links : ℕ) :
    Stands [] links es (oneFileFS.rootWalk (join es) links, join es) :=
  ⟨rfl, rfl, rfl, rfl, rfl⟩

/-- The path of the counterexample: `a` `m` times, then symlinks. -/
def digitPath (m : ℕ) (js : List ℕ) : List Bytes := List.replicate m [97] ++ js.map digit

theorem isName_digit {j : ℕ} (hj : j < 8) : IsName (digit j) := by
  have h : ∀ j < 8, IsName (digit j) := by decide
  exact h j hj

theorem canonical_replicate (m : ℕ) : Canonical (List.replicate m [97]) := by
  intro e he
  rw [List.eq_of_mem_replicate he]
  decide

theorem canonical_digits {js : List ℕ} (h : ∀ j ∈ js, j < 8) : Canonical (js.map digit) := by
  intro e he
  obtain ⟨j, hj, rfl⟩ := List.mem_map.1 he
  exact isName_digit (h j hj)

theorem canonical_digitPath (m : ℕ) {js : List ℕ} (h : ∀ j ∈ js, j < 8) :
    Canonical (digitPath m js) := (canonical_replicate m).append (canonical_digits h)

theorem digitPath_ne_nil {m : ℕ} (hm : 0 < m) (js : List ℕ) : digitPath m js ≠ [] := by
  simp [digitPath]
  omega

/-- A path of elements of one byte. -/
theorem length_join_le {es : List Bytes} (h : ∀ e ∈ es, e.length = 1) :
    (join es).length ≤ 2 * es.length - 1 := by
  induction es with
  | nil => simp [join]
  | cons e es ih =>
    have he : e.length = 1 := h e (by simp)
    have hes := ih fun x hx => h x (by simp [hx])
    rw [join_cons_eq, List.length_append, he, List.length_cons]
    split_ifs with hnil
    · rw [List.length_nil]
      omega
    · have hpos : 0 < es.length := List.length_pos_of_ne_nil hnil
      rw [List.length_cons]
      omega

theorem length_digitPath_le {m : ℕ} {js : List ℕ} (h : m + js.length ≤ 2048) :
    (join (digitPath m js)).length ≤ maxPathLen := by
  have hone : ∀ e ∈ digitPath m js, e.length = 1 := by
    intro e he
    rcases List.mem_append.1 he with he | he
    · rw [List.eq_of_mem_replicate he]
      rfl
    · obtain ⟨j, -, rfl⟩ := List.mem_map.1 he
      rfl
  have hle := length_join_le hone
  have hlen : (digitPath m js).length = m + js.length := by simp [digitPath]
  have hmax : maxPathLen = 4096 := rfl
  omega

section Doubling

variable {kept rest : List Bytes} {links m j : ℕ} {js : List ℕ}

theorem Stands.ne_nil {e : Bytes} (h : Stands kept links (e :: rest) s) (he : e ≠ []) :
    s.2 ≠ [] := by
  rw [h.path, join_cons_eq]
  simp [he]

theorem Stands.lookupNext {e : Bytes} (h : Stands kept links (e :: rest) s) (he : slash ∉ e) :
    oneFileFS.lookupNext doublingReader s =
      (lookupIn oneFileFS e 0 FileMode.dir e).run doublingReader := by
  rw [Image.lookupNext, h.path, cutPath_join he, h.nid, h.ftype]

/-- `a` is entered. -/
theorem Stands.enter (h : Stands kept links ([97] :: rest) s) (hk : Canonical kept) :
    ∃ t, oneFileFS.stepOf doublingReader true s = some t ∧
      Stands (kept ++ [[97]]) links rest t := by
  have hslash : slash ∉ ([97] : Bytes) := by decide
  have hrun := @resolveStep_run oneFileFS doublingReader true s h.ftype
  have htyp : FileMode.dir.typ = FileMode.dir := by decide
  have hsym : FileMode.dir.has FileMode.symlink = false := by decide
  rw [h.lookupNext hslash, doubling_dir] at hrun
  simp only [htyp, hsym, Bool.false_and, Bool.false_eq_true, if_false] at hrun
  refine ⟨_, stepOf_eq_some.2 ⟨h.ne_nil (by decide), hrun⟩, ?_⟩
  have hcut : cutPath s.2 = ([97], join rest) := by rw [h.path, cutPath_join hslash]
  rw [hcut]
  refine ⟨rfl, rfl, ?_, h.links, rfl⟩
  show (if s.1.curPath = [] then [97] else s.1.curPath ++ slash :: [97]) = _
  rw [h.curPath]
  cases kept with
  | nil => rfl
  | cons e es =>
    have he : e ≠ [] := (hk e (by simp)).1.1
    rw [if_neg (by simp [join_cons_eq, he]), join_append_singleton (by simp)]

/-- `a` is entered again and again. -/
theorem Stands.walk (n : ℕ) (h : Stands kept links (List.replicate n [97] ++ rest) s)
    (hk : Canonical kept) :
    ∃ t, after (oneFileFS.stepOf doublingReader true) n s = some t ∧
      Stands (kept ++ List.replicate n [97]) links rest t := by
  induction n generalizing kept s with
  | zero => exact ⟨s, rfl, by simpa using h⟩
  | succ n ih =>
    rw [List.replicate_succ, List.cons_append] at h
    obtain ⟨u, hu, hs⟩ := h.enter hk
    obtain ⟨t, ht, hst⟩ := ih hs (hk.append (canonical_replicate 1))
    refine ⟨t, ?_, by simpa [List.replicate_succ] using hst⟩
    rw [Nat.add_comm]
    exact after_trans (m := 1) hu ht

theorem Stands.hop (h : Stands kept links (digit j :: rest) s) (hj : j < 8) :
    oneFileFS.Hop doublingReader true s (6 + 2 * j) := by
  have hname := isName_digit hj
  refine ⟨h.ne_nil hname.1.1, h.ftype, FileMode.symlink, ?_, ?_⟩
  · rw [h.lookupNext hname.1.2, (doubling_link j hj).1]
  · have hsym : FileMode.symlink.typ.has FileMode.symlink = true := by decide
    rw [hsym]
    rfl

theorem digitTarget_cons (j : ℕ) (hj : j < 8) : ∃ t ts, digitTarget j = t :: ts ∧ IsElem t ∧
    ∀ x ∈ t :: ts, slash ∉ x := by
  cases j with
  | zero => exact ⟨dot, [], rfl, by decide, by decide⟩
  | succ j =>
    have hname := isName_digit (j := j) (by omega)
    refine ⟨_, _, rfl, hname.1, ?_⟩
    simp [hname.1.2]

/-- A symlink is followed. -/
theorem Stands.restart (h : Stands kept links (digit j :: rest) s) (hj : j < 8)
    (hlinks : links < maxSymlinks) (hk : Canonical kept) (hkne : kept ≠ [])
    (hrest : Canonical rest) {es : List Bytes}
    (hes : cleanElems false (kept ++ digitTarget j ++ rest) = es) (hne : es ≠ [])
    (hcan : Canonical es) (hlen : (join es).length ≤ maxPathLen) :
    ∃ t, oneFileFS.stepOf doublingReader true s = some t ∧ Stands [] (links + 1) es t := by
  have hhop := h.hop hj
  have hrun := hhop.run
  have hcut : cutPath s.2 = (digit j, join rest) := by
    rw [h.path, cutPath_join (isName_digit hj).1.2]
  have hread : oneFileFS.readNext doublingReader s (6 + 2 * j) = .ok (join (digitTarget j)) := by
    rw [readNext, hcut, (doubling_link j hj).2]
  have hsplice : spliceTarget s.1.curPath (join (digitTarget j)) (join rest) = join es := by
    obtain ⟨t, ts, ht, htelem, hts⟩ := digitTarget_cons j hj
    obtain ⟨e, kept, rfl⟩ := List.exists_cons_of_ne_nil hkne
    rw [ht] at hes ⊢
    rw [h.curPath, ← hes]
    refine spliceTarget_join (hk e (by simp)).1 htelem ?_ ?_ fun x hx => (hrest x hx).1.1
    · intro x hx
      rcases List.mem_append.1 hx with hx | hx
      · rcases List.mem_append.1 hx with hx | hx
        · exact (hk x (by simp [hx])).1.2
        · exact hts x hx
      · exact (hrest x hx).1.2
    · rw [hes]
      exact hne
  rw [hread, if_neg (by rw [h.links]; omega), hcut] at hrun
  dsimp only at hrun
  rw [hsplice, restartPath_join hne hcan hlen, h.links] at hrun
  exact ⟨_, stepOf_eq_some.2 ⟨hhop.left, hrun⟩, Stands.rootWalk es (links + 1)⟩

/-- The walk to a symlink that comes after all the directories, and what is walked next. -/
theorem Stands.reach (h : Stands [] links (digitPath m (j :: js)) s) (hm : 0 < m)
    (hjs : ∀ i ∈ j :: js, i < 8) (hlinks : links < maxSymlinks) {is : List ℕ}
    (his : ∀ i ∈ is, i < 8) (hlen : m + is.length ≤ 2048)
    (hclean : cleanElems false (List.replicate m [97] ++ digitTarget j ++ js.map digit) =
      digitPath m is) :
    ∃ t, after (oneFileFS.stepOf doublingReader true) (m + 1) s = some t ∧
      Stands [] (links + 1) (digitPath m is) t := by
  obtain ⟨u, hu, hs⟩ := Stands.walk m h (by simp [Canonical])
  have hkne : List.replicate m ([97] : Bytes) ≠ [] := by simp; omega
  obtain ⟨t, ht, hst⟩ := hs.restart (hjs j (by simp)) hlinks (canonical_replicate m) hkne
    (canonical_digits fun i hi => hjs i (by simp [hi])) hclean (digitPath_ne_nil hm is)
    (canonical_digitPath m his) (length_digitPath_le hlen)
  exact ⟨t, after_trans (n := 1) hu ht, hst⟩

/-- The cost of symlink `j`, whatever the symlinks after it: `2 ^ (j + 1) - 1` symlinks are
followed, each after a walk through all the directories. -/
theorem Stands.unfold (hm : 0 < m) (hjs : ∀ i ∈ j :: js, i < 8)
    (hlen : m + 1 + js.length + j ≤ 2048) (hlinks : links + (2 ^ (j + 1) - 1) ≤ maxSymlinks)
    (h : Stands [] links (digitPath m (j :: js)) s) :
    ∃ t, after (oneFileFS.stepOf doublingReader true) ((2 ^ (j + 1) - 1) * (m + 1)) s = some t ∧
      Stands [] (links + (2 ^ (j + 1) - 1)) (digitPath m js) t := by
  induction j generalizing links js s with
  | zero =>
    have htail : ∀ i ∈ js, i < 8 := fun i hi => hjs i (by simp [hi])
    have hclean : cleanElems false (List.replicate m [97] ++ digitTarget 0 ++ js.map digit) =
        digitPath m js := by
      rw [digitTarget, cleanElems_dot]
      exact clean_eq_self (canonical_digitPath m htail)
    have hreach := h.reach hm hjs (by omega) htail (by omega) hclean
    simpa using hreach
  | succ j ih =>
    have htail : ∀ i ∈ js, i < 8 := fun i hi => hjs i (by simp [hi])
    have hj : j + 1 < 8 := hjs (j + 1) (by simp)
    have hone : ∀ i ∈ j :: js, i < 8 := by
      rintro i (_ | ⟨_, hi⟩)
      · omega
      · exact htail i hi
    have htwo : ∀ i ∈ j :: j :: js, i < 8 := by
      rintro i (_ | ⟨_, hi⟩)
      · omega
      · exact hone i hi
    have hclean : cleanElems false
        (List.replicate m [97] ++ digitTarget (j + 1) ++ js.map digit) =
          digitPath m (j :: j :: js) := by
      have heq : List.replicate m [97] ++ digitTarget (j + 1) ++ js.map digit =
          digitPath m (j :: j :: js) := by simp [digitTarget, digitPath]
      rw [heq]
      exact clean_eq_self (canonical_digitPath m htwo)
    have hpow : 2 ^ (j + 1 + 1) - 1 = 1 + (2 ^ (j + 1) - 1) + (2 ^ (j + 1) - 1) := by
      have := Nat.one_le_two_pow (n := j + 1)
      rw [pow_succ 2 (j + 1)]
      omega
    rw [hpow] at hlinks ⊢
    -- the symlink itself, then twice the one before it
    obtain ⟨t₁, ht₁, hs₁⟩ := h.reach hm hjs (by omega) htwo (by simp; omega) hclean
    obtain ⟨t₂, ht₂, hs₂⟩ := ih htwo (by simp; omega) (by omega) hs₁
    obtain ⟨t₃, ht₃, hs₃⟩ := ih hone (by omega) (by omega) hs₂
    refine ⟨t₃, ?_, ?_⟩
    · rw [Nat.add_mul, Nat.add_mul, Nat.one_mul]
      exact after_trans (after_trans ht₁ ht₂) ht₃
    · rwa [show links + (1 + (2 ^ (j + 1) - 1) + (2 ^ (j + 1) - 1)) =
        links + 1 + (2 ^ (j + 1) - 1) + (2 ^ (j + 1) - 1) by omega]

end Doubling

end Image

end Erofs
