import Erofs.Stepwise
import Erofs.Writer.ImageTurns

/-!
# The image copy ends

The queue of `copyFromImage` grows while it is consumed, and what it grows by comes from the source.
A turn takes one entry off, and only a directory puts entries on it: as many as it holds dirents at
most, and once, since the address of its inode is remembered.  So what is queued and the dirents of
the directories not yet expanded can only become less, and the loop ends.

The main results:

* `turnOf_left_lt` — every turn leaves less to take off the queue;
* `copyStep_again` — a directory that comes up again is an error;
* `copy_ends` — the loop ends after at most as many entries as there are dirents, and the root, and
  no directory is expanded twice.
-/

namespace Erofs

open GoPath LittleEndian Oracle DirBlock Stepwise

/-! ## The dirents of a directory -/

/-- The dirents in the bytes of a directory: as many to a block as its first name offset says and
the block has room for. -/
def direntCount (blockSize : ℕ) : ℕ → Bytes → ℕ
  | 0, _ => 0
  | fuel + 1, data =>
    if data = [] then 0
    else
      min (count (data.take blockSize)) ((data.take blockSize).length / Disk.sizeDirent) +
        direntCount blockSize fuel (data.drop blockSize)

/-- No more is queued than there are dirents. -/
theorem parseDirBlock_le_direntCount {parent : Path} {blockSize fuel : ℕ} {data : Bytes}
    {q : List ImgQEntry} (h : parseDirBlock parent blockSize fuel data = .ok q) :
    q.length ≤ direntCount blockSize fuel data := by
  induction fuel generalizing data q with
  | zero =>
    obtain rfl := Except.ok.inj h
    exact le_rfl
  | succ fuel ih =>
    rw [parseDirBlock] at h
    rw [direntCount]
    split_ifs at h ⊢
    · obtain rfl := Except.ok.inj h
      exact le_rfl
    · obtain ⟨ents, he, h⟩ := except_bind_ok h
      obtain ⟨rest, hr, h⟩ := except_bind_ok h
      obtain rfl := Except.ok.inj h
      have hroom : ents.length ≤ (data.take blockSize).length / Disk.sizeDirent := by
        rw [Nat.le_div_iff_mul_le (by decide), Nat.mul_comm]
        exact copiedBlock_length he
      have hcount : ents.length ≤ count (data.take blockSize) := by
        obtain ⟨-, rfl⟩ := copiedBlock_iff.1 he
        exact length_queuedFrom_le _ _ _ _
      rw [List.length_append]
      exact Nat.add_le_add (le_min hcount hroom) (ih hr)

namespace Image

variable (o : Req → Answer) (img : Image) (metaBuf : Option Bytes)

/-- The inode `nid` of the source, as the copy decodes it. -/
def copiedInode (nid : ℕ) : Except GoError Inode :=
  let buf := (img.metaAt metaBuf (img.inodeStart nid)).run o
  let xcnt := field buf 2 2
  (img.copyInode nid buf).map fun ino =>
    if xcnt = 0 then ino
    else { ino with xsize := (xcnt - 1) * Disk.sizeXattrEntry + Disk.sizeXattrBodyHeader }

/-- The dirents of the inode `nid`, none if it is no directory whose bytes can be read. -/
def direntsOf (nid : ℕ) : ℕ :=
  match img.copiedInode o metaBuf nid with
  | .error _ => 0
  | .ok ino =>
    if ino.rawMode.typ = Mode.dir then
      match (img.inlineData metaBuf ino).run o with
      | .error _ => 0
      | .ok data => direntCount img.blockSize data.length data
    else 0

/-- The dirents held by the directory inodes of the image, each inode counted once. -/
def totalDirents : ℕ := ∑ nid ∈ Finset.range (Writer.maxDirs img), img.direntsOf o metaBuf nid

variable {o img metaBuf} {cur : ImgQEntry} {ino : Inode} {xattrs : Xattrs}

theorem readCopied_copiedInode (h : (img.readCopied metaBuf cur).run o = .ok (ino, xattrs)) :
    img.copiedInode o metaBuf cur.nid = .ok ino := by
  unfold readCopied at h
  split_ifs at h
  · cases h
  rw [Prog.run_bind] at h
  dsimp only at h
  unfold copiedInode
  dsimp only
  generalize (img.metaAt metaBuf (img.inodeStart cur.nid)).run o = buf at h ⊢
  cases hd : (img.copyInode cur.nid buf).bind fun ino =>
      (checkCopied cur (field buf 0 2) (field buf 2 2) ino).map fun _ => ino with
  | error e =>
    rw [hd] at h
    cases h
  | ok ino₀ =>
    rw [hd] at h
    obtain ⟨ino₁, hino, hcheck⟩ := except_bind_ok hd
    obtain rfl : ino₁ = ino₀ := by
      cases hc : checkCopied cur (field buf 0 2) (field buf 2 2) ino₁ with
      | error e =>
        rw [hc] at hcheck
        cases hcheck
      | ok u =>
        rw [hc] at hcheck
        exact Except.ok.inj hcheck
    rw [hino]
    dsimp only at h
    split_ifs at h with hx
    · cases h
      exact congrArg Except.ok (if_pos hx)
    · obtain ⟨xs, -, h⟩ := Prog.exec_bind_ok h
      cases h
      exact congrArg Except.ok (if_neg hx)

theorem inodeStart_injective : Function.Injective img.inodeStart := by
  intro a b h
  simp only [inodeStart, Disk.sizeInodeCompact] at h
  omega

end Image

namespace Writer

variable {o : Req → Answer} {img : Image} {metaBuf : Option Bytes} {s t : CopyState}
  {cur : ImgQEntry}

/-- What a directory queues is paid by its dirents. -/
theorem copiedDir_le_direntsOf {expanded : List ℕ} {p : Path} {ino : Inode} {xattrs : Xattrs}
    {ents : List ImgQEntry} (hread : (img.readCopied metaBuf cur).run o = .ok (ino, xattrs))
    (hdir : ino.rawMode.typ = Mode.dir)
    (h : (copiedDir img metaBuf expanded p ino).run o = .ok ents) :
    ents.length ≤ img.direntsOf o metaBuf ino.nid := by
  obtain rfl | ⟨data, hdata, hparse⟩ := (copiedDir_ok h).2
  · exact Nat.zero_le _
  · rw [Image.direntsOf, (Image.readCopied_ok hread).nid, Image.readCopied_copiedInode hread]
    dsimp only
    rw [if_pos hdir, hdata]
    exact parseDirBlock_le_direntCount hparse

/-! ## The turns of the loop -/

variable (o img metaBuf) in
/-- One turn: the entry at the head of the queue is dealt with.  There is none after an error, or
where the queue is empty. -/
def turnOf (s : CopyState) : Option CopyState :=
  match s.queue with
  | [] => none
  | cur :: queue =>
    let r := (copyStep img metaBuf { s with queue } cur).run o
    if r.2.isNone then some r.1 else none

variable (o img metaBuf) in
/-- What is queued, and the dirents of the directories not yet expanded. -/
def left (s : CopyState) : ℕ :=
  s.queue.length + ∑ nid ∈ (Finset.range (maxDirs img)).filter
    (fun nid => img.inodeStart nid ∉ s.expanded), img.direntsOf o metaBuf nid

theorem turnOf_eq_some (h : turnOf o img metaBuf s = some t) : ∃ cur queue,
    s.queue = cur :: queue ∧ StepTo o img metaBuf { s with queue } cur (t, none) ∧
      (copyStep img metaBuf { s with queue } cur).run o = (t, none) := by
  unfold turnOf at h
  cases hq : s.queue with
  | nil =>
    rw [hq] at h
    cases h
  | cons cur queue =>
    rw [hq] at h
    dsimp only at h
    have hto := copyStep_to o img metaBuf { s with queue } cur
    generalize hr : (copyStep img metaBuf { s with queue } cur).run o = r at h hto
    obtain ⟨s', _ | e⟩ := r
    · cases h
      exact ⟨cur, queue, rfl, hto, hr⟩
    · cases h

/-- A turn does not add to what is left. -/
theorem StepTo.left_le (h : StepTo o img metaBuf s cur (t, none)) :
    left o img metaBuf t ≤ left o img metaBuf s := by
  cases h with
  | marker hm => exact le_rfl
  | name hm hread hshare hprior hw => exact le_rfl
  | @entry hm ino xattrs hread hfirst hextent fe ents hcontent =>
    have hents := (copiedContent_cases hcontent).2
    have hmode : (s.w.copiedEntry cur.path ino xattrs).mode.typ = ino.rawMode.typ := rfl
    rw [hmode] at hents
    unfold CopyState.placed left
    dsimp only
    by_cases hdir : ino.rawMode.typ = Mode.dir
    · rw [if_pos hdir] at hents ⊢
      have hdec := Image.readCopied_ok hread
      have hlen := copiedDir_le_direntsOf hread hdir hents
      have hmem : ino.nid ∈ (Finset.range (maxDirs img)).filter
          (fun nid => img.inodeStart nid ∉ s.expanded) := by
        refine Finset.mem_filter.2 ⟨Finset.mem_range.2 ?_, (copiedDir_ok hents).1⟩
        exact Nat.lt_succ_of_le (hdec.nid ▸ hdec.range)
      -- the directory leaves the sum with its dirents
      have hfilter : (Finset.range (maxDirs img)).filter
          (fun nid => img.inodeStart nid ∉ img.inodeStart ino.nid :: s.expanded) =
            ((Finset.range (maxDirs img)).filter
              (fun nid => img.inodeStart nid ∉ s.expanded)).erase ino.nid := by
        ext nid
        simp only [Finset.mem_filter, Finset.mem_erase, List.mem_cons, not_or,
          Image.inodeStart_injective.eq_iff]
        tauto
      rw [hfilter, ← Finset.add_sum_erase _ _ hmem, List.length_append]
      omega
    · rw [if_neg hdir] at hents ⊢
      rw [hents, List.append_nil]

/-- Every turn leaves less to take off the queue. -/
theorem turnOf_left_lt (h : turnOf o img metaBuf s = some t) :
    left o img metaBuf t < left o img metaBuf s := by
  obtain ⟨cur, queue, hq, hto, -⟩ := turnOf_eq_some h
  have hle := hto.left_le
  have hpop : left o img metaBuf { s with queue } + 1 = left o img metaBuf s := by
    simp only [left, hq, List.length_cons]
    omega
  omega

/-- A turn keeps to different directories, and does not add to the bound of the loop. -/
theorem turnOf_room_lt (he : Expanded img s.expanded) (h : turnOf o img metaBuf s = some t) :
    Expanded img t.expanded ∧ room img t < room img s := by
  obtain ⟨cur, queue, hq, hto, -⟩ := turnOf_eq_some h
  obtain ⟨hexp, hle⟩ := @StepTo.room_le img o metaBuf { s with queue } t cur hto he
  have hpop : room img { s with queue } + 1 = room img s := by
    simp only [room, hq, List.length_cons]
    omega
  exact ⟨hexp, by omega⟩

/-- The loop with the turns of a run in its bound. -/
theorem copyLoop_after {n k : ℕ} (h : after (turnOf o img metaBuf) n s = some t) :
    (copyLoop img metaBuf (n + k) s).run o = (copyLoop img metaBuf k t).run o := by
  induction n generalizing k t with
  | zero =>
    obtain rfl := Option.some.inj h
    rw [Nat.zero_add]
  | succ n ih =>
    obtain ⟨u, hu, hturn⟩ := after_succ.1 h
    obtain ⟨cur, queue, hq, -, hrun⟩ := turnOf_eq_some hturn
    rw [Nat.add_right_comm, Nat.add_assoc, ih hu, (copyLoop_cons hq hrun).1]
    rfl

/-- A directory that comes up again is an error. -/
theorem copyStep_again {ino : Inode} {xattrs : Xattrs}
    (hm : s.w.isImageMarker cur.path = false)
    (hread : (img.readCopied metaBuf cur).run o = .ok (ino, xattrs))
    (hdir : ino.rawMode.typ = Mode.dir) (hagain : img.inodeStart ino.nid ∈ s.expanded) :
    ((copyStep img metaBuf s cur).run o).2 ≠ none := by
  intro hok
  have hto := copyStep_to o img metaBuf s cur
  generalize (copyStep img metaBuf s cur).run o = r at hok hto
  cases hto with
  | marker hmarker =>
    rw [hm] at hmarker
    cases hmarker
  | failed e => cases hok
  | name _ hread' hshare =>
    cases hread.symm.trans hread'
    simp [sharesNid, hdir] at hshare
  | entry _ hread' _ _ hcontent =>
    cases hread.symm.trans hread'
    have hents := (copiedContent_cases hcontent).2
    rw [if_pos (show (s.w.copiedEntry cur.path ino xattrs).mode.typ = Mode.dir from hdir)] at hents
    exact (copiedDir_ok hents).1 hagain

/-! ## The end of the loop -/

variable (o img metaBuf) in
/-- The loop that starts with `s` ends with the result `r`, having taken no more than `bound`
entries off its queue: the queue is empty, or the last entry taken off is an error. -/
inductive EndsWithin (bound : ℕ) (s : CopyState) : Result → Prop
  | emptied {n : ℕ} {t : CopyState} (h : after (turnOf o img metaBuf) n s = some t)
      (hq : t.queue = []) (hn : n ≤ bound) : EndsWithin bound s (t.w, none)
  | failed {n : ℕ} {t t' : CopyState} {cur : ImgQEntry} {queue : List ImgQEntry} {e : GoError}
      (h : after (turnOf o img metaBuf) n s = some t) (hq : t.queue = cur :: queue)
      (he : (copyStep img metaBuf { t with queue } cur).run o = (t', some e)) (hn : n + 1 ≤ bound) :
      EndsWithin bound s (t'.w, some e)

theorem left_copyStart (w : Writer) :
    left o img metaBuf (w.copyStart img) = 1 + img.totalDirents o metaBuf := by
  simp [left, copyStart, Image.totalDirents]

/-- The state in which the loop ends. -/
theorem exists_end (s : CopyState) (he : Expanded img s.expanded) (hroom : room img s ≤ n) :
    EndsWithin o img metaBuf (left o img metaBuf s) s ((copyLoop img metaBuf n s).run o) := by
  have hstep : ∀ t u : CopyState, Expanded img t.expanded → turnOf o img metaBuf t = some u →
      Expanded img u.expanded ∧ room img u < room img t := fun _ _ ht hu => turnOf_room_lt ht hu
  obtain ⟨m, t, ht, hstop⟩ := after_stops hstep he
  obtain ⟨-, hm⟩ := after_paid hstep he ht
  obtain ⟨-, hleft⟩ := after_paid (I := fun _ => True) (μ := left o img metaBuf)
    (fun _ _ _ hu => ⟨trivial, turnOf_left_lt hu⟩) trivial ht
  obtain ⟨k, rfl⟩ : ∃ k, n = m + k := ⟨n - m, by omega⟩
  rw [copyLoop_after ht]
  cases hq : t.queue with
  | nil =>
    rw [(copyLoop_nil k hq).1]
    exact .emptied ht hq (by omega)
  | cons cur queue =>
    have hqroom : 1 ≤ room img t := by simp only [room, hq, List.length_cons]; omega
    have hqleft : 1 ≤ left o img metaBuf t := by simp only [left, hq, List.length_cons]; omega
    obtain ⟨k, rfl⟩ : ∃ j, k = j + 1 := ⟨k - 1, by omega⟩
    rw [turnOf, hq] at hstop
    dsimp only at hstop
    cases hr : (copyStep img metaBuf { t with queue } cur).run o with
    | mk t' err =>
      cases err with
      | none =>
        rw [hr] at hstop
        cases hstop
      | some e =>
        rw [(copyLoop_cons hq hr).1]
        exact .failed ht hq hr (by omega)

variable (o img) in
/-- How `copyFromImage` goes through its queue. -/
structure CopyEnds (w : Writer) : Prop where
  /-- The copy returns before its loop, or the loop ends after at most as many entries as there are
  dirents, and the root. -/
  ends : ∀ actual, (w.copyFromImage img actual).run o = (w, none) ∨
    (∃ e, (w.copyFromImage img actual).run o = (w, some e)) ∨
    EndsWithin o img (img.readMeta.run o) (1 + img.totalDirents o (img.readMeta.run o))
      (w.copyStart img) ((w.copyFromImage img actual).run o)
  /-- No directory is expanded twice. -/
  once : ∀ n s, after (turnOf o img (img.readMeta.run o)) n (w.copyStart img) = some s →
    s.expanded.Nodup
  /-- A directory that comes up again is an error. -/
  again : ∀ n s cur queue ino xattrs,
    after (turnOf o img (img.readMeta.run o)) n (w.copyStart img) = some s →
    s.queue = cur :: queue → s.w.isImageMarker cur.path = false →
    (img.readCopied (img.readMeta.run o) cur).run o = .ok (ino, xattrs) →
    ino.rawMode.typ = Mode.dir → img.inodeStart ino.nid ∈ s.expanded →
      ((copyStep img (img.readMeta.run o) { s with queue } cur).run o).2 ≠ none

/-- **The image copy ends**, whatever the source holds. -/
theorem copy_ends (o : Req → Answer) (img : Image) (w : Writer) : CopyEnds o img w where
  ends actual := by
    unfold copyFromImage
    split_ifs
    · exact .inl rfl
    cases checkImage img actual with
    | error e => exact .inr (.inl ⟨e, rfl⟩)
    | ok u =>
      dsimp only
      rw [Prog.run_bind, ← left_copyStart w]
      exact .inr (.inr (exists_end _ (expanded_nil img) (room_copyStart w img).le))
  once n s h := by
    have hstep : ∀ t u : CopyState, Expanded img t.expanded →
        turnOf o img (img.readMeta.run o) t = some u →
          Expanded img u.expanded ∧ room img u < room img t := fun _ _ ht hu => turnOf_room_lt ht hu
    exact (after_paid hstep (expanded_nil img) h).1.nodup
  again n s cur queue ino xattrs _ _ hm hread hdir hagain := copyStep_again hm hread hdir hagain

end Writer

end Erofs
