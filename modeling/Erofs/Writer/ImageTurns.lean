import Erofs.Writer.Marker

/-!
# The turns of the image copy

The loop of `copyFromImage` ends with its queue empty: a directory is expanded once, and what it
queues is bounded by its size.  A turn registers nothing but the path it took off the queue, and no
path is taken off twice if no directory names an entry twice.

The main results:

* `StepTo.room_le` — a turn does not add to what the loop can still take off its queue;
* `Queued.step` — the paths of the queue are distinct, and each lies in a directory taken off
  before;
* `missing_reaches` — in a copy that succeeds, a queued entry whose directory is gone is taken off
  with its directory still gone.
-/

namespace Erofs

open GoPath PathTree Oracle DirBlock

/-! ## How much is queued -/

theorem readerAt_length (o : Req → Answer) (reader : ℕ) (off : Int) (n : ℕ) :
    ((readerAt reader off n).run o).data.length ≤ n := by
  rw [readerAt, Prog.run_ask, Prog.run_done]
  exact List.length_take_le _ _

theorem sectionReadAt_length (o : Req → Answer) (reader : ℕ) (base len off : Int) (n : ℕ) :
    ((sectionReadAt (readerAt reader) base len off n).run o).data.length ≤ n := by
  unfold sectionReadAt
  dsimp only
  split_ifs with hout hshort
  · exact Nat.zero_le n
  · rw [Prog.run_bind, Prog.run_done]
    have hread := readerAt_length o reader (off + base) (sectionLimit base len - (off + base)).toNat
    dsimp only
    omega
  · exact readerAt_length o reader _ n

namespace Image

variable {img : Image} {o : Req → Answer} {metaBuf : Option Bytes} {ino : Inode} {data : Bytes}

theorem length_buffer {n : ℕ} (h : data.length ≤ n) : (buffer n data).length = n := by
  rw [buffer, List.length_append, List.length_replicate]
  omega

theorem deviceReader_length (dev : ℕ) (off : Int) (n : ℕ) :
    ((img.deviceReader dev off n).run o).data.length ≤ n := by
  unfold deviceReader
  split_ifs
  · exact readerAt_length o 0 off n
  split
  · exact sectionReadAt_length o 0 _ _ off n
  · exact readerAt_length o dev off n

theorem span_length {off n : ℕ} (h : (img.span metaBuf off n).run o = .ok data) :
    data.length = n := by
  unfold span at h
  split_ifs at h
  · cases h
  rw [Prog.run_bind] at h
  split_ifs at h with hlen
  · cases h
    rw [List.length_take, min_eq_left hlen]
  · rw [Prog.run_bind, Prog.run_done] at h
    cases herr : ((readerAt 0 off n).run o).err with
    | some e =>
      rw [herr] at h
      cases h
    | none =>
      rw [herr] at h
      cases h
      exact length_buffer (readerAt_length o _ _ _)

theorem readStart_length {n : ℕ} (h : (img.readStart ino n).run o = .ok data) :
    data.length = n := by
  unfold readStart at h
  cases hpa : img.blockAddr ino.nid ino.startBlock with
  | error e =>
    rw [hpa] at h
    cases h
  | ok pa =>
    rw [hpa] at h
    dsimp only at h
    unfold readFlat at h
    cases hl : img.locateRange pa n with
    | error e =>
      rw [hl] at h
      cases h
    | ok r =>
      rw [hl] at h
      dsimp only at h
      rw [Prog.run_bind, Prog.run_done] at h
      cases herr : ((img.deviceReader r.1 r.2 n).run o).err with
      | some e =>
        rw [herr] at h
        cases h
      | none =>
        rw [herr] at h
        cases h
        exact length_buffer (deviceReader_length _ _ _)

/-- The content of an inode is as long as its size says. -/
theorem inlineData_length (h : (img.inlineData metaBuf ino).run o = .ok data) :
    data.length = ino.size := by
  have htail : img.inlineTail ino ≤ ino.size := by
    unfold inlineTail
    split_ifs
    · exact Nat.sub_le _ _
    · exact Nat.zero_le _
  unfold inlineData at h
  dsimp only at h
  split_ifs at h with hplain hall
  · exact readStart_length h
  · rw [span_length h, hall]
  · obtain ⟨blocks, hb, h⟩ := Prog.exec_bind_ok h
    obtain ⟨end_, he, h⟩ := Prog.exec_bind_ok h
    cases h
    rw [List.length_append, readStart_length hb, span_length he]
    omega

end Image

theorem length_queuedFrom_le (parent : Path) (buf : Bytes) (i k : ℕ) :
    (queuedFrom parent buf i k).length ≤ k := by
  rw [queuedFrom, List.length_flatMap]
  calc ((List.range' i k).map fun j =>
        (if Hidden buf j then [] else [queued parent buf j]).length).sum
      ≤ ((List.range' i k).map fun _ => 1).sum := by
        refine List.sum_le_sum fun j _ => ?_
        split_ifs <;> simp
    _ = k := by simp

theorem copiedBlock_length {parent : Path} {buf : Bytes} {q : List ImgQEntry}
    (h : copiedBlock parent buf = .ok q) : Disk.sizeDirent * q.length ≤ buf.length := by
  obtain ⟨⟨hs, -⟩, rfl⟩ := copiedBlock_iff.1 h
  have hlen := length_queuedFrom_le parent buf 0 (count buf)
  have h1 := hs.head.aligned
  have h2 := hs.head.inside
  simp only [Disk.sizeDirent]
  omega

theorem parseDirBlock_length {parent : Path} {blockSize fuel : ℕ} {data : Bytes}
    {q : List ImgQEntry} (h : parseDirBlock parent blockSize fuel data = .ok q) :
    Disk.sizeDirent * q.length ≤ data.length := by
  induction fuel generalizing data q with
  | zero =>
    obtain rfl := Except.ok.inj h
    simp
  | succ fuel ih =>
    rw [parseDirBlock] at h
    split_ifs at h
    · obtain rfl := Except.ok.inj h
      simp
    · obtain ⟨ents, he, h⟩ := except_bind_ok h
      obtain ⟨rest, hr, h⟩ := except_bind_ok h
      obtain rfl := Except.ok.inj h
      have h1 := copiedBlock_length he
      have h2 := ih hr
      rw [List.length_take] at h1
      rw [List.length_drop] at h2
      rw [List.length_append, Nat.mul_add]
      omega

namespace Writer

variable {w w' : Writer} {img : Image} {o : Req → Answer} {metaBuf : Option Bytes}
  {s s' : CopyState} {cur : ImgQEntry}

/-! ## The loop empties its queue -/

/-- How many inodes can start in the image. -/
def maxDirs (img : Image) : ℕ :=
  (img.totalBytes - img.metaStartPos) / Disk.sizeInodeCompact + 1

/-- How many dirents a directory of the image can have. -/
def maxEnts (img : Image) : ℕ := img.totalBytes / Disk.sizeDirent

/-- The directories that were expanded are different inodes of the image. -/
structure Expanded (img : Image) (l : List ℕ) : Prop where
  nodup : l.Nodup
  start : ∀ a ∈ l, ∃ nid < maxDirs img, img.inodeStart nid = a

theorem Expanded.length_le {l : List ℕ} (h : Expanded img l) : l.length ≤ maxDirs img := by
  have hsub : l ⊆ (List.range (maxDirs img)).map img.inodeStart := by
    intro a ha
    obtain ⟨nid, hnid, rfl⟩ := h.start a ha
    exact List.mem_map_of_mem (List.mem_range.2 hnid)
  simpa using (h.nodup.subperm hsub).length_le

/-- A bound on what the loop can still take off its queue. -/
def room (img : Image) (s : CopyState) : ℕ :=
  s.queue.length + (maxDirs img - s.expanded.length) * maxEnts img

theorem copiedDir_length {expanded : List ℕ} {p : Path} {ino : Inode} {ents : List ImgQEntry}
    (h : (copiedDir img metaBuf expanded p ino).run o = .ok ents) :
    Disk.sizeDirent * ents.length ≤ ino.size := by
  obtain rfl | ⟨data, hdata, hparse⟩ := (copiedDir_ok h).2
  · simp
  · rw [← Image.inlineData_length hdata]
    exact parseDirBlock_length hparse

theorem checkExtent_size {ino : Inode} (h : img.checkExtent ino = .ok ())
    (hdir : ino.rawMode.typ = Mode.dir) : ino.size ≤ img.totalBytes := by
  have hreg : Mode.dir ≠ Mode.reg := by decide
  unfold Image.checkExtent at h
  split_ifs at h with hsize
  exact not_lt.1 fun hlt => hsize ⟨hdir ▸ hreg, hlt⟩

/-- A turn keeps to different directories, and does not add to what is left to do. -/
theorem StepTo.room_le (h : StepTo o img metaBuf s cur (s', none)) (he : Expanded img s.expanded) :
    Expanded img s'.expanded ∧ room img s' ≤ room img s := by
  cases h with
  | marker hm => exact ⟨he, le_rfl⟩
  | name hm hread hshare hprior hw => exact ⟨he, le_rfl⟩
  | @entry hm ino xattrs hread hfirst hextent fe ents hcontent =>
    have hents := (copiedContent_cases hcontent).2
    have hdec := Image.readCopied_ok hread
    unfold CopyState.placed room
    dsimp only
    by_cases hdir : ino.rawMode.typ = Mode.dir
    · rw [if_pos
        (show (s.w.copiedEntry cur.path ino xattrs).mode.typ = Mode.dir from hdir)] at hents
      have hnew : Expanded img (img.inodeStart ino.nid :: s.expanded) := by
        refine ⟨List.nodup_cons.2 ⟨(copiedDir_ok hents).1, he.nodup⟩, ?_⟩
        rintro a (_ | ⟨_, ha⟩)
        · exact ⟨ino.nid, Nat.lt_succ_of_le (hdec.nid ▸ hdec.range), rfl⟩
        · exact he.start a ha
      have hlen : ents.length ≤ maxEnts img := by
        have h₁ := copiedDir_length hents
        have h₂ := checkExtent_size hextent hdir
        simp only [maxEnts, Disk.sizeDirent] at h₁ ⊢
        omega
      rw [if_pos hdir]
      refine ⟨hnew, ?_⟩
      -- the directory's share of the bound pays for what it queues
      obtain ⟨k, hk⟩ := Nat.exists_eq_add_of_le hnew.length_le
      rw [List.length_cons] at hk ⊢
      have h₁ : maxDirs img - s.expanded.length = k + 1 := by omega
      have h₂ : maxDirs img - (s.expanded.length + 1) = k := by omega
      rw [h₁, h₂, List.length_append, Nat.succ_mul]
      omega
    · rw [if_neg
        (show ¬ (s.w.copiedEntry cur.path ino xattrs).mode.typ = Mode.dir from hdir)] at hents
      rw [if_neg hdir, hents, List.append_nil]
      exact ⟨he, le_rfl⟩

theorem room_copyStart (w : Writer) (img : Image) : room img (w.copyStart img) = queueBound img :=
  rfl

theorem expanded_nil (img : Image) : Expanded img [] := ⟨List.nodup_nil, by simp⟩

/-! ## The paths of the queue -/

/-- The paths that were taken off and those that are queued. -/
structure Queued (done : List Path) (queue : List ImgQEntry) : Prop where
  nodup : (done ++ queue.map (·.path)).Nodup
  parent : ∀ p ∈ done ++ queue.map (·.path), p ≠ [] → p.dropLast ∈ done
  canonical : ∀ x ∈ queue, Canonical x.path

namespace Queued

variable {done : List Path} {queue ents : List ImgQEntry}

/-- The directories above a path were taken off before it. -/
theorem above (h : Queued done queue) {p r : Path} (hp : p ∈ done ++ queue.map (·.path))
    (hr : Below r p) : r ∈ done := by
  induction hn : p.length generalizing p with
  | zero => exact absurd (List.length_eq_zero_iff.1 hn) hr.ne_nil
  | succ n ih =>
    have hd := h.parent p hp hr.ne_nil
    rcases prefix_or_below hr.dropLast with rfl | hb
    · exact hd
    · exact ih (List.mem_append_left _ hd) hb (by rw [List.length_dropLast, hn]; rfl)

theorem not_mem_done (h : Queued done queue) {x : ImgQEntry} (hx : x ∈ queue) : x.path ∉ done :=
  fun hd => List.disjoint_of_nodup_append h.nodup hd (List.mem_map_of_mem hx)

/-- The first entry of the queue lies above no other. -/
theorem not_below (h : Queued done (cur :: queue)) {x : ImgQEntry} (hx : x ∈ queue) :
    ¬ cur.path <+: x.path := by
  intro hpre
  rcases prefix_or_below hpre with he | hb
  · have hnd := (List.nodup_append.1 h.nodup).2.1
    rw [List.map_cons, List.nodup_cons] at hnd
    exact hnd.1 (he ▸ List.mem_map_of_mem hx)
  · exact h.not_mem_done List.mem_cons_self
      (h.above (List.mem_append_right _ (List.mem_map_of_mem (List.mem_cons_of_mem _ hx))) hb)

/-- A turn takes the first entry off and queues what lies right below it. -/
theorem step (h : Queued done (cur :: queue)) (hnd : (ents.map (·.path)).Nodup)
    (hents : ∀ x ∈ ents, ∃ n, x.path = cur.path ++ [n] ∧ IsName n) :
    Queued (done ++ [cur.path]) (queue ++ ents) := by
  have heq : done ++ [cur.path] ++ (queue ++ ents).map (·.path) =
      (done ++ (cur :: queue).map (·.path)) ++ ents.map (·.path) := by simp
  have hcur : cur.path ∉ done := h.not_mem_done List.mem_cons_self
  refine ⟨?_, ?_, ?_⟩
  · rw [heq]
    refine List.Nodup.append h.nodup hnd ?_
    intro p hp hp'
    obtain ⟨x, hx, rfl⟩ := List.mem_map.1 hp'
    obtain ⟨n, hn, -⟩ := hents x hx
    have := h.parent _ hp (by simp [hn])
    rw [hn, List.dropLast_concat] at this
    exact hcur this
  · rw [heq]
    intro p hp hne
    rcases List.mem_append.1 hp with hp | hp
    · exact List.mem_append_left _ (h.parent p hp hne)
    · obtain ⟨x, hx, rfl⟩ := List.mem_map.1 hp
      obtain ⟨n, hn, -⟩ := hents x hx
      rw [hn, List.dropLast_concat]
      simp
  · intro x hx
    rcases List.mem_append.1 hx with hx | hx
    · exact h.canonical x (List.mem_cons_of_mem _ hx)
    · obtain ⟨n, hn, hname⟩ := hents x hx
      rw [hn]
      refine (h.canonical cur List.mem_cons_self).append fun y hy => ?_
      rwa [List.mem_singleton.1 hy]

theorem start (nid : ℕ) : Queued [] [⟨nid, [], 0⟩] :=
  ⟨by simp, by simp, by simp [Canonical]⟩

end Queued

/-- The directory that the entry stands for, if it is one, names no entry twice. -/
def NamesOnce (o : Req → Answer) (img : Image) (metaBuf : Option Bytes) (cur : ImgQEntry) : Prop :=
  ∀ ino xattrs ents, (img.readCopied metaBuf cur).run o = .ok (ino, xattrs) →
    ino.rawMode.typ = Mode.dir → (copiedDir img metaBuf [] cur.path ino).run o = .ok ents →
      (ents.map (·.path)).Nodup

instance (o : Req → Answer) (img : Image) (metaBuf : Option Bytes) (cur : ImgQEntry) :
    Decidable (NamesOnce o img metaBuf cur) :=
  match hr : (img.readCopied metaBuf cur).run o with
  | .error _ => .isTrue fun _ _ _ h => by cases hr.symm.trans h
  | .ok (ino, _) =>
    match hd : (copiedDir img metaBuf [] cur.path ino).run o with
    | .error _ => .isTrue fun _ _ _ h _ hents => by
        cases hr.symm.trans h
        cases hd.symm.trans hents
    | .ok ents =>
      decidable_of_iff (ino.rawMode.typ = Mode.dir → (ents.map (·.path)).Nodup)
        ⟨fun hn _ _ _ h htyp hents => by
          cases hr.symm.trans h
          cases hd.symm.trans hents
          exact hn htyp, fun hn htyp => hn _ _ _ hr htyp hd⟩

/-- What was expanded before decides only whether a directory is read. -/
theorem copiedDir_nil {expanded : List ℕ} {p : Path} {ino : Inode} {ents : List ImgQEntry}
    (h : (copiedDir img metaBuf expanded p ino).run o = .ok ents) :
    (copiedDir img metaBuf [] p ino).run o = .ok ents := by
  have hnew := (copiedDir_ok h).1
  unfold copiedDir at h ⊢
  rw [if_neg hnew] at h
  rwa [if_neg List.not_mem_nil]

/-- A turn takes nothing else off the queue. -/
theorem StepTo.queue_subset (h : StepTo o img metaBuf s cur (s', none)) : s.queue ⊆ s'.queue := by
  cases h with
  | marker hm => exact List.Subset.refl _
  | name hm hread hshare hprior hw => exact List.Subset.refl _
  | entry hm hread hfirst hextent hcontent => exact List.subset_append_left _ _

/-- What a turn queues: nothing, or the entries of the directory it placed. -/
theorem StepTo.queued (h : StepTo o img metaBuf s cur (s', none))
    (hn : NamesOnce o img metaBuf cur) {done : List Path}
    (hq : Queued done (cur :: s.queue)) : Queued (done ++ [cur.path]) s'.queue := by
  have hnone : Queued (done ++ [cur.path]) s.queue := by
    simpa using @Queued.step cur done s.queue [] hq List.nodup_nil (by simp)
  cases h with
  | marker hm => exact hnone
  | name hm hread hshare hprior hw => exact hnone
  | @entry hm ino xattrs hread hfirst hextent fe ents hcontent =>
    refine hq.step ?_ fun x hx => ?_
    · have hents := (copiedContent_cases hcontent).2
      split_ifs at hents with hdir
      · exact hn ino xattrs ents hread hdir (copiedDir_nil hents)
      · rw [hents]
        exact List.nodup_nil
    · obtain ⟨n, hx, -, hname, -⟩ := (copiedContent_ok hcontent).2 x hx
      exact ⟨n, hx, hname⟩

/-! ## What a turn registers -/

theorem addChild_none {fe : FsEntry} {p : Path} (hne : p ≠ fe.path) (h : w.byPath p = none) :
    (w.addChild fe).byPath p = none := by
  simp [addChild, hne, h]

theorem placeEntry_none {fe : FsEntry} {p : Path} (hne : p ≠ fe.path) (h : w.byPath p = none) :
    (w.placeEntry fe).1.byPath p = none := by
  unfold Writer.placeEntry
  cases w.byPath fe.path with
  | none => exact addChild_none hne h
  | some e =>
    dsimp only
    split_ifs
    · exact addChild_none hne (unlinkEntry_none h e)
    · exact h

theorem addAlias_none {q p : Path} {t : EntryId} (hw : w.addAlias q t = .ok w') (hne : p ≠ q)
    (h : w.byPath p = none) : w'.byPath p = none := by
  unfold Writer.addAlias at hw
  cases he : w.byPath q with
  | none =>
    rw [he] at hw
    obtain rfl := Except.ok.inj hw
    exact addChild_none hne h
  | some e =>
    rw [he] at hw
    dsimp only at hw
    split_ifs at hw
    · obtain rfl := Except.ok.inj hw
      exact h
    · obtain rfl := Except.ok.inj hw
      exact addChild_none hne (unlinkEntry_none h e)

theorem removeTree_none {q p : Path} (h : w.byPath p = none) :
    (w.removeTree q).byPath p = none := by
  unfold Writer.removeTree
  cases w.byPath q with
  | none => exact h
  | some e =>
    dsimp only
    unfold removeEntry
    split_ifs
    · exact removeSubtree_none _ (unlinkEntry_none h e) e
    · exact unlinkEntry_none h e

theorem removeChildren_none {q p : Path} (h : w.byPath p = none) :
    (w.removeChildren q).byPath p = none := by
  unfold Writer.removeChildren
  cases w.byPath q with
  | none => exact h
  | some e => exact removeSubtree_none _ h e

theorem applyMarker_none {q p : Path} (h : w.byPath p = none) :
    (w.applyMarker q).byPath p = none := by
  unfold Writer.applyMarker
  split_ifs
  · exact removeChildren_none h
  · exact removeTree_none h

/-- **A turn registers no path but its own.** -/
theorem StepTo.byPath_none (h : StepTo o img metaBuf s cur (s', none)) {p : Path}
    (hne : p ≠ cur.path) (hp : s.w.byPath p = none) : s'.w.byPath p = none := by
  cases h with
  | marker hm => exact applyMarker_none hp
  | name hm hread hshare hprior hw => exact addAlias_none hw hne hp
  | @entry hm ino xattrs hread hfirst hextent fe ents hcontent =>
    have hpath : fe.path = cur.path := by
      rw [(copiedContent_cases hcontent).1]
      rfl
    have hpl := placeEntry_none (hpath ▸ hne) hp
    unfold CopyState.placed Writer.registerCopied Writer.placeItem
    dsimp only
    split_ifs
    · exact hp
    · exact hpl
    · exact hpl

theorem applyMarker_copyMerge (w : Writer) (p : Path) :
    (w.applyMarker p).copyMerge = w.copyMerge := by
  unfold Writer.applyMarker
  split_ifs
  · exact copyMerge_of_bare (bare_removeChildren w _)
  · exact copyMerge_of_bare (bare_removeTree w _)

/-- A turn leaves the options of the copy alone. -/
theorem StepTo.copyMerge (h : StepTo o img metaBuf s cur (s', none)) :
    s'.w.copyMerge = s.w.copyMerge := by
  cases h with
  | marker hm => exact applyMarker_copyMerge s.w cur.path
  | name hm hread hshare hprior hw => exact copyMerge_of_bare (bare_addAlias hw)
  | @entry hm ino xattrs hread hfirst hextent fe ents hcontent =>
    have hpl := copyMerge_of_bare (bare_placeEntry s.w fe)
    unfold CopyState.placed Writer.registerCopied Writer.placeItem
    dsimp only
    split_ifs
    · rfl
    · exact hpl
    · exact hpl

/-- A queued entry is taken off with its path and its directory unregistered, if they were when the
loop came to it. -/
theorem missing_reaches {fuel : ℕ} {done : List Path} {x : ImgQEntry}
    (hq : Queued done s.queue) (he : Expanded img s.expanded) (hroom : room img s ≤ fuel)
    (hn : ∀ t ∈ turns o img metaBuf fuel s, NamesOnce o img metaBuf t.2)
    (hok : ((copyLoop img metaBuf fuel s).run o).2 = none) (hx : x ∈ s.queue)
    (hself : s.w.byPath x.path = none) (hdir : s.w.byPath x.path.dropLast = none)
    (hd : x.path.dropLast ∈ done) :
    ∃ t ∈ turns o img metaBuf fuel s, t.2 = x ∧ t.1.w.byPath x.path = none ∧
      t.1.w.byPath x.path.dropLast = none ∧ t.1.w.copyMerge = s.w.copyMerge := by
  induction fuel generalizing s done with
  | zero =>
    -- there would be nothing queued
    have hlen := List.length_pos_of_mem hx
    unfold room at hroom
    omega
  | succ fuel ih =>
    cases hqueue : s.queue with
    | nil =>
      rw [hqueue] at hx
      cases hx
    | cons cur queue =>
      rw [hqueue] at hq hx
      have hto := copyStep_to o img metaBuf { s with queue } cur
      obtain ⟨hloop, hturns⟩ := @copyLoop_cons img o metaBuf s cur fuel queue _ hqueue rfl
      rw [hloop] at hok
      rw [hturns] at hn ⊢
      generalize (Writer.copyStep img metaBuf { s with queue } cur).run o = r at hto hok hn ⊢
      obtain ⟨s', _ | e⟩ := r
      · simp only [Option.isNone_none, if_true] at hok hn ⊢
        rcases List.mem_cons.1 hx with rfl | hx
        · exact ⟨_, List.mem_cons_self, rfl, hself, hdir, rfl⟩
        · have hne : x.path ≠ cur.path := fun e => hq.not_below hx (e ▸ List.prefix_rfl)
          have hne' : x.path.dropLast ≠ cur.path := fun e =>
            hq.not_mem_done List.mem_cons_self (e ▸ hd)
          have hcount : room img { s with queue } + 1 = room img s := by
            simp only [room, hqueue, List.length_cons]
            omega
          obtain ⟨he', hroom'⟩ := hto.room_le he
          have hmem : x ∈ s'.queue := hto.queue_subset hx
          obtain ⟨t, ht, hx, hself, hdir, hm⟩ :=
            ih (hto.queued (hn _ List.mem_cons_self) hq) he' (by omega)
              (fun t ht => hn t (List.mem_cons_of_mem _ ht)) hok hmem
            (hto.byPath_none hne hself) (hto.byPath_none hne' hdir) (List.mem_append_left _ hd)
          exact ⟨t, List.mem_cons_of_mem _ ht, hx, hself, hdir, hm.trans hto.copyMerge⟩
      · cases hok

end Writer

end Erofs
