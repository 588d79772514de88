import Erofs.Writer.ImageTurns
import Erofs.Writer.RemoveRoot

/-!
# Where the image copy hangs its entries

`copyFromImage` never creates a parent: an entry is hung under whatever is registered at the
directory of its path, and under the root if nothing is.  A turn of the loop is one event of the
overlay, and the directories of what is queued are there as long as no marker erases one of them.

The main results:

* `Copied.step` — what a turn keeps;
* `copyImage_positioned_iff` — every entry hangs where its path says, and the root stands in for no
  missing directory, exactly when no marker erases the directory of an entry still queued.
-/

namespace Erofs

open GoPath PathTree Overlay Oracle DirBlock

namespace Writer

variable {w w' : Writer} {g : Path → Option EntryId} {S : Set Path} {img : Image} {o : Req → Answer}
  {metaBuf : Option Bytes} {s s' : CopyState} {cur : ImgQEntry} {done : List Path}
  {queue : List ImgQEntry}

/-! ## Markers as events -/

/-- What the marker at `p` takes away. -/
def markerEvent (p : Path) : Event Bytes :=
  if base p = opaqueWhiteout then .clear p.dropLast
  else .erase (joinElem p.dropLast (markedName p))

theorem base_mem {p : Path} (hne : p ≠ []) : base p ∈ p := by
  have hmem : base p ∈ p.dropLast ++ [base p] := by simp
  rwa [dropLast_append_base hne] at hmem

/-- A path above what a marker names is above the marker. -/
theorem below_marked {p r : Path} (hc : Canonical p) (hne : p ≠ [])
    (hb : Below r (joinElem p.dropLast (markedName p))) : Below r p := by
  by_cases hn : NamesEntry (markedName p)
  · have hbase : IsName (base p) := hc _ (base_mem hne)
    have hname : IsName (markedName p) :=
      ⟨⟨hn.1, fun hs => hbase.1.2 (List.mem_of_mem_drop hs)⟩, hn.2⟩
    rw [joinElem_name hc.dropLast hname] at hb
    have hpre := hb.dropLast
    rw [List.dropLast_concat] at hpre
    exact prefix_trans_below hpre (below_dropLast hne)
  · exact hb.mono ((joinElem_above hc.dropLast hn).trans (List.dropLast_prefix p))

/-- A marker that does not name the root is one event. -/
theorem Copying.marker (h : Copying w g S) {p : Path} (hc : Canonical p) (hne : p ≠ [])
    (hfree : ∀ r ∈ S, ¬ Below r p) (hdir : w.kind g p.dropLast ≠ some false)
    (hroot : ¬ (markerEvent p).Erases []) :
    Advances w g (markerEvent p) (w.applyMarker p) S := by
  unfold Writer.applyMarker markerEvent at *
  rw [dir_of_canonical hc]
  by_cases hopq : base p = opaqueWhiteout
  · rw [if_pos hopq, if_pos hopq]
    obtain ⟨hcopy, hk⟩ := h.removeChildren (p := p.dropLast)
      (fun r hr hb => hfree r hr (hb.mono (List.dropLast_prefix p))) hdir
    exact ⟨_, hcopy, hk, copyMerge_of_bare (bare_removeChildren w _)⟩
  · rw [if_neg hopq] at hroot ⊢
    rw [if_neg hopq, ← markedName]
    have htarget : joinElem p.dropLast (markedName p) ≠ [] := fun e => hroot (e ▸ List.prefix_rfl)
    obtain ⟨hcopy, hk⟩ := h.removeTree htarget
      fun r hr hb => hfree r hr (below_marked hc hne hb)
    exact ⟨_, hcopy, hk, copyMerge_of_bare (bare_removeTree w _)⟩

theorem not_sets_markerEvent (p x : Path) : ¬ (markerEvent p).Sets x := by
  unfold markerEvent
  split_ifs
  · exact id
  · exact id

/-! ## The state between two turns -/

/-- The state of the copy when the paths in `done` have been taken off the queue. -/
structure Copied (w : Writer) (g : Path → Option EntryId) (S : Set Path) (done : List Path)
    (queue : List ImgQEntry) : Prop where
  copying : Copying w g S
  queued : Queued done queue
  /-- The files that were put are at paths that were taken off. -/
  files : ∀ r ∈ S, r ∈ done
  free : ∀ x ∈ queue, ∀ r ∈ S, ¬ Below r x.path
  /-- The directory of an entry is there, or a marker took it. -/
  dirs : ∀ x ∈ queue, x.path ≠ [] → w.kind g x.path.dropLast ≠ some false
  parents : ∀ x ∈ queue, x.path ≠ [] → w.isImageMarker x.path = false →
    w.kind g x.path.dropLast = some true

namespace Copied

theorem split (h : Copied w g S done (cur :: queue)) (hne : cur.path ≠ [])
    (hm : w.isImageMarker cur.path = false) :
    ∃ q n d, cur.path = q ++ [n] ∧ IsName n ∧ g q = some d ∧ (w.ent d).isDir = true := by
  obtain ⟨d, hd, hdir⟩ := kind_eq_some.1 (h.parents cur List.mem_cons_self hne hm)
  exact ⟨cur.path.dropLast, base cur.path, d, (dropLast_append_base hne).symm,
    h.queued.canonical cur List.mem_cons_self _ (base_mem hne), hd, hdir⟩

/-- A turn that is no marker puts its entry, and queues what lies right below a directory. -/
theorem put (h : Copied s.w g S done (cur :: s.queue))
    (hto : StepTo o img metaBuf s cur (s', none)) (hm : s.w.isImageMarker cur.path = false) :
    Advances s.w g (.put cur.path cur.isDir) s'.w (withPut S cur.path cur.isDir) ∧
      ∀ x ∈ s'.queue, x ∈ s.queue ∨ cur.isDir = true ∧ ∃ n, x.path = cur.path ++ [n] := by
  have hfree := h.free cur List.mem_cons_self
  have hnew : cur.path ∉ S := fun hS =>
    h.queued.not_mem_done List.mem_cons_self (h.files _ hS)
  cases hto with
  | marker hmark =>
    rw [hm] at hmark
    cases hmark
  | name hm hread hshare hprior hw =>
    have hisDir := (Image.readCopied_ok hread).isDir
    have hfile : cur.isDir = false := by
      rw [hisDir]
      simp only [sharesNid, Bool.and_eq_true, bne_iff_ne, ne_eq] at hshare
      simpa [modeIsDir] using hshare.1
    have hne : cur.path ≠ [] := fun hp => by
      rw [ImgQEntry.isDir, hp] at hfile
      simp at hfile
    obtain ⟨q, n, d, hpath, hname, hq, hdir⟩ := h.split hne hm
    refine ⟨?_, fun x hx => .inl hx⟩
    rw [hisDir]
    rw [hpath] at hw hfree ⊢
    exact h.copying.addAliasEntry hname hq hdir hfree hprior (hisDir ▸ hfile) hw
  | @entry hm ino xattrs hread hfirst hextent fe ents hcontent =>
    obtain ⟨hfe, hents⟩ := copiedContent_cases hcontent
    have hdir : cur.isDir = fe.isDir := by
      rw [(Image.readCopied_ok hread).isDir, hfe]
      rfl
    have hpath : fe.path = cur.path := by
      rw [hfe]
      rfl
    refine ⟨?_, fun x hx => ?_⟩
    · rw [hdir, ← hpath]
      unfold CopyState.placed Writer.registerCopied
      dsimp only
      by_cases hroot : fe.path = []
      · have hmode : modeIsDir fe.mode = true := by
          show fe.isDir = true
          rw [← hdir, ImgQEntry.isDir, ← hpath, hroot]
          rfl
        rw [if_pos hroot, hroot]
        exact h.copying.setRoot hmode
      · rw [if_neg hroot]
        obtain ⟨q, n, d, hsplit, hname, hq, hd⟩ := h.split (hpath ▸ hroot) hm
        refine h.copying.placeItem ?_ ?_ (hpath.trans hsplit) hname hq hd (fun _ => hpath ▸ hnew)
          (hpath ▸ hfree) (fun hshare => ?_) _
        · rw [hfe]
          exact ⟨rfl, rfl, rfl⟩
        · rw [hfe]
          rfl
        · rw [hfe]
          simp only [sharesNid, Bool.and_eq_true, bne_iff_ne, ne_eq] at hshare
          simpa [FsEntry.isDir, copiedEntry] using hshare.1
    · rcases List.mem_append.1 hx with hx | hx
      · exact .inl hx
      · obtain ⟨n, hx', -⟩ := (copiedContent_ok hcontent).2 x hx
        refine .inr ⟨?_, n, hx'⟩
        split_ifs at hents with hd
        · rw [hdir, hfe]
          simpa [FsEntry.isDir] using hd
        · rw [hents] at hx
          cases hx

/-- What is queued lies elsewhere than the entry that is put. -/
theorem kind_of_put (h : Copied w g S done (cur :: queue)) {K : Path → Option Bool} {x : ImgQEntry}
    (hx : x ∈ queue) : apply K (.put cur.path cur.isDir) x.path.dropLast = K x.path.dropLast := by
  have hpre := List.dropLast_prefix x.path
  refine apply_other (fun e => ?_) fun e => ?_
  · have e : cur.path = x.path.dropLast := e
    exact h.queued.not_below hx (e ▸ hpre)
  · exact h.queued.not_below hx (e.2.1.trans hpre)

theorem stepPut (h : Copied s.w g S done (cur :: s.queue))
    (hto : StepTo o img metaBuf s cur (s', none)) (hm : s.w.isImageMarker cur.path = false)
    (hq : Queued (done ++ [cur.path]) s'.queue) :
    ∃ g', Copied s'.w g' (withPut S cur.path cur.isDir) (done ++ [cur.path]) s'.queue := by
  obtain ⟨⟨g', hc, hk, hmerge⟩, hqueue⟩ := h.put hto hm
  have hnew : cur.path ∉ S := fun hS =>
    h.queued.not_mem_done List.mem_cons_self (h.files _ hS)
  refine ⟨g', hc, hq, fun r hr => ?_, fun x hx r hr hb => ?_, fun x hx hne => ?_,
    fun x hx hne hxm => ?_⟩
  · unfold withPut at hr
    split_ifs at hr
    · exact List.mem_append_left _ (h.files r hr)
    · rcases hr with rfl | hr
      · simp
      · exact List.mem_append_left _ (h.files r hr)
  · rcases hqueue x hx with hx | ⟨hd, n, hn⟩
    · unfold withPut at hr
      split_ifs at hr
      · exact h.free x (List.mem_cons_of_mem _ hx) r hr hb
      · rcases hr with rfl | hr
        · exact h.queued.not_below hx hb.1
        · exact h.free x (List.mem_cons_of_mem _ hx) r hr hb
    · rw [withPut, if_pos hd] at hr
      have hpre := hb.dropLast
      rw [hn, List.dropLast_concat] at hpre
      rcases prefix_or_below hpre with rfl | hb
      · exact hnew hr
      · exact h.free cur List.mem_cons_self r hr hb
  · rw [hk]
    rcases hqueue x hx with hx | ⟨hd, n, hn⟩
    · rw [h.kind_of_put hx]
      exact h.dirs x (List.mem_cons_of_mem _ hx) hne
    · rw [hn, List.dropLast_concat, apply_of_sets, hd]
      simp
  · rw [hk]
    rcases hqueue x hx with hx | ⟨hd, n, hn⟩
    · rw [h.kind_of_put hx]
      refine h.parents x (List.mem_cons_of_mem _ hx) hne ?_
      rwa [isImageMarker, ← hmerge]
    · rw [hn, List.dropLast_concat, apply_of_sets, hd]

end Copied

/-- The turn's marker, if it is one, erases the directory of no entry that is still to be placed. -/
def Spares (t : CopyState × ImgQEntry) : Prop :=
  t.1.w.isImageMarker t.2.path = true → ∀ x ∈ t.1.queue, t.1.w.isImageMarker x.path = false →
    ¬ (markerEvent t.2.path).Erases x.path.dropLast

instance (t : CopyState × ImgQEntry) : Decidable (Spares t) :=
  inferInstanceAs (Decidable (_ = true → ∀ x ∈ t.1.queue, _ = false → ¬ _))

theorem ne_nil_of_isImageMarker {p : Path} (hm : w.isImageMarker p = true) : p ≠ [] := by
  rintro rfl
  simp [isImageMarker] at hm

namespace Copied

theorem marker (h : Copied w g S done (cur :: queue)) (hm : w.isImageMarker cur.path = true)
    (hroot : ¬ (markerEvent cur.path).Erases []) :
    Advances w g (markerEvent cur.path) (w.applyMarker cur.path) S := by
  have hne := ne_nil_of_isImageMarker hm
  exact h.copying.marker (h.queued.canonical cur List.mem_cons_self) hne
    (h.free cur List.mem_cons_self) (h.dirs cur List.mem_cons_self hne) hroot

theorem stepMarker (h : Copied s.w g S done (cur :: s.queue))
    (hm : s.w.isImageMarker cur.path = true) (hspare : Spares (s, cur))
    (hroot : ¬ (markerEvent cur.path).Erases []) :
    ∃ g', Copied (s.w.applyMarker cur.path) g' S (done ++ [cur.path]) s.queue := by
  obtain ⟨g', hc, hk, hmerge⟩ := h.marker hm hroot
  have hq : Queued (done ++ [cur.path]) s.queue := by
    simpa using @Queued.step cur done s.queue [] h.queued List.nodup_nil (by simp)
  refine ⟨g', hc, hq, fun r hr => List.mem_append_left _ (h.files r hr),
    fun x hx => h.free x (List.mem_cons_of_mem _ hx), fun x hx hne => ?_, fun x hx hne hxm => ?_⟩
  · rw [hk]
    by_cases he : (markerEvent cur.path).Erases x.path.dropLast
    · rw [apply_of_erases he]
      simp
    · rw [apply_other (not_sets_markerEvent _ _) he]
      exact h.dirs x (List.mem_cons_of_mem _ hx) hne
  · rw [isImageMarker, hmerge] at hxm
    rw [hk, apply_other (not_sets_markerEvent _ _) (hspare hm x hx hxm)]
    exact h.parents x (List.mem_cons_of_mem _ hx) hne hxm

end Copied

/-! ## A root that was erased -/

/-- `w` is the emptied tree of `w₀`, whose root has lost its name. -/
structure Emptied (w w₀ : Writer) (g : Path → Option EntryId) (S : Set Path)
    (queue : List ImgQEntry) : Prop where
  dropped : w = w₀.dropRoot
  copying : Copying w₀ g S
  empty : ∀ q, q ≠ [] → g q = none
  canonical : ∀ x ∈ queue, Canonical x.path
  free : ∀ x ∈ queue, ∀ r ∈ S, ¬ Below r x.path

theorem erases_nil_iff {p : Path} : (markerEvent p).Erases [] ↔
    base p ≠ opaqueWhiteout ∧ joinElem p.dropLast (markedName p) = [] := by
  unfold markerEvent
  split_ifs with hopq
  · exact iff_of_false (fun hb => hb.ne_nil rfl) fun h => h.1 hopq
  · exact ⟨fun hpre => ⟨hopq, List.prefix_nil.1 hpre⟩, fun h => h.2 ▸ List.prefix_rfl⟩

/-- A marker of the root takes every path. -/
theorem erases_all {p : Path} (h : (markerEvent p).Erases []) (x : Path) :
    (markerEvent p).Erases x := by
  obtain ⟨hopq, htarget⟩ := erases_nil_iff.1 h
  rw [markerEvent, if_neg hopq, htarget]
  exact List.nil_prefix

theorem Copied.empties (h : Copied w g S done (cur :: queue))
    (hroot : (markerEvent cur.path).Erases []) :
    Emptied (w.applyMarker cur.path) (w.removeChildren []) (cut g []) S queue := by
  obtain ⟨hopq, htarget⟩ := erases_nil_iff.1 hroot
  have hkind : w.kind g [] ≠ some false := by
    rw [kind_eq_some.2 ⟨w.root, h.copying.tree.rootAt, h.copying.tree.rootDir⟩]
    simp
  refine ⟨?_, (h.copying.removeChildren (fun r _ hb => hb.ne_nil rfl) hkind).1, fun q hq => ?_,
    fun x hx => h.queued.canonical x (List.mem_cons_of_mem _ hx),
    fun x hx => h.free x (List.mem_cons_of_mem _ hx)⟩
  · rw [Writer.applyMarker, if_neg hopq,
      dir_of_canonical (h.queued.canonical cur List.mem_cons_self), ← markedName, htarget]
    exact h.copying.removeTree_root
  · exact if_pos ⟨List.nil_prefix, hq.symm⟩

namespace Emptied

variable {w₀ : Writer}

theorem byPath_none (h : Emptied w w₀ g S queue) {q : Path} (hfree : ∀ r ∈ S, ¬ Below r q) :
    w.byPath q = none := by
  have hroot : (w₀.ent w₀.root).path = [] := h.copying.tree.nodePath h.copying.tree.rootAt
  rw [h.dropped, dropRoot, dropName_byPath, hroot, Function.update_apply]
  split_ifs with hq
  · rfl
  · rw [h.copying.byPath_eq hfree, h.empty q hq]

/-- A further marker finds nothing. -/
theorem applyMarker (h : Emptied w w₀ g S queue) {x : ImgQEntry} (hx : x ∈ queue)
    (hne : x.path ≠ []) : w.applyMarker x.path = w := by
  have hc := h.canonical x hx
  unfold Writer.applyMarker
  rw [dir_of_canonical hc]
  split_ifs
  · rw [Writer.removeChildren, h.byPath_none fun r hr hb =>
      h.free x hx r hr (hb.mono (List.dropLast_prefix _))]
  · rw [Writer.removeTree, ← markedName, h.byPath_none fun r hr hb =>
      h.free x hx r hr (below_marked hc hne hb)]

/-- The image shows nothing but the root. -/
theorem not_shown (h : Emptied w w₀ g S queue) {p : Path} {i : EntryId} (hne : p ≠ []) :
    ¬ w.Shown p i := by
  cases p with
  | nil => exact absurd rfl hne
  | cons n r =>
    rintro ⟨-, c, hc, hlive, -, -⟩
    have ht := h.copying.tree
    rw [h.dropped, dropRoot_root, dropRoot_children] at hc
    rw [h.dropped, dropRoot_ent (ht.child_ne_root ht.rootAt ht.rootDir hc)] at hlive
    obtain ⟨-, m, hm⟩ := ht.childOf ht.rootAt ht.rootDir hc hlive
    rw [h.empty _ (by simp)] at hm
    cases hm

end Emptied

/-! ## The property and the run -/

/-- Every entry that the image shows below the root hangs under the directory its path names. -/
def Positioned (w : Writer) : Prop :=
  ∀ p i, w.Shown p i → p ≠ [] → (w.ent i).path = p ∧
    ∃ d, w.byPath (dir (w.ent i).path) = some d ∧ (w.ent d).removed = false ∧
      (w.ent d).isDir = true ∧ i ∈ (w.ent d).children ∧ (w.ent i).parent = some d

/-- The turn adds an entry for whose directory the root stands in. -/
def FallsBack (t : CopyState × ImgQEntry) : Prop :=
  t.1.w.isImageMarker t.2.path = false ∧ t.2.path ≠ [] ∧ t.1.w.byPath t.2.path = none ∧
    t.1.w.byPath (dir t.2.path) = none

theorem Copying.positioned (h : Copying w g S) : Positioned w := by
  intro p i hp hne
  have hg := (h.tree.shown_iff h.settled).1 hp
  obtain ⟨d, hd, hdir, hmem, hparent⟩ := h.tree.parentOf hg hne
  have hpath := h.tree.nodePath hg
  refine ⟨hpath, d, ?_, h.live hd, hdir, hmem, hparent⟩
  rw [hpath, dir_of_canonical (h.tree.canonical hg)]
  exact h.tree.live hd (h.live hd)

/-- What holds before each turn: the copy goes on, or only markers are left and the tree is
empty. -/
def Placing (w : Writer) (done : List Path) (queue : List ImgQEntry) : Prop :=
  (∃ g S, Copied w g S done queue) ∨
    (∃ w₀ g S, Emptied w w₀ g S queue) ∧ ∀ x ∈ queue, w.isImageMarker x.path = true

namespace Placing

theorem positioned (h : Placing w done queue) : Positioned w := by
  obtain ⟨g, S, h⟩ | ⟨⟨w₀, g, S, h⟩, -⟩ := h
  · exact h.copying.positioned
  · exact fun p i hp hne => absurd hp (h.not_shown hne)

theorem not_fallsBack (h : Placing s.w done (cur :: s.queue)) : ¬ FallsBack (s, cur) := by
  rintro ⟨hm, hne, -, hnone⟩
  obtain ⟨g, S, h⟩ | ⟨-, hall⟩ := h
  · obtain ⟨d, hd, -⟩ := kind_eq_some.1 (h.parents cur List.mem_cons_self hne hm)
    rw [dir_of_canonical (h.queued.canonical cur List.mem_cons_self),
      h.copying.tree.live hd (h.copying.live hd)] at hnone
    cases hnone
  · have hm' := hall cur List.mem_cons_self
    dsimp only at hm
    rw [hm] at hm'
    cases hm'

/-- **One turn.** -/
theorem step (h : Placing s.w done (cur :: s.queue)) (hto : StepTo o img metaBuf s cur (s', none))
    (hn : NamesOnce o img metaBuf cur) (hspare : Spares (s, cur)) :
    Placing s'.w (done ++ [cur.path]) s'.queue := by
  obtain ⟨g, S, h⟩ | ⟨⟨w₀, g, S, h⟩, hall⟩ := h
  · by_cases hm : s.w.isImageMarker cur.path = true
    · cases hto with
      | marker _ =>
        by_cases hroot : (markerEvent cur.path).Erases []
        · refine .inr ⟨⟨_, _, S, h.empties hroot⟩, fun x hx => ?_⟩
          -- nothing that is queued is spared
          by_contra hxm
          rw [isImageMarker, applyMarker_copyMerge] at hxm
          exact hspare hm x hx (by simpa [isImageMarker] using hxm) (erases_all hroot _)
        · obtain ⟨g', h'⟩ := h.stepMarker hm hspare hroot
          exact .inl ⟨g', S, h'⟩
      | name hm' => simp [hm'] at hm
      | entry hm' => simp [hm'] at hm
    · obtain ⟨g', h'⟩ := h.stepPut hto (by simpa using hm) (hto.queued hn h.queued)
      exact .inl ⟨g', _, h'⟩
  · have hm := hall cur List.mem_cons_self
    have hkeep := h.applyMarker List.mem_cons_self (ne_nil_of_isImageMarker hm)
    cases hto with
    | marker _ =>
      refine .inr ⟨⟨w₀, g, S, ?_⟩, fun x hx => ?_⟩
      · dsimp only
        rw [hkeep]
        exact ⟨h.dropped, h.copying, h.empty, fun x hx => h.canonical x (List.mem_cons_of_mem _ hx),
          fun x hx => h.free x (List.mem_cons_of_mem _ hx)⟩
      · dsimp only
        rw [hkeep]
        exact hall x (List.mem_cons_of_mem _ hx)
    | name hm' => simp [hm'] at hm
    | entry hm' => simp [hm'] at hm

/-- Every entry is in its place at the end of a loop whose markers spare what is queued. -/
theorem copyLoop {fuel : ℕ} (h : Placing s.w done s.queue)
    (hn : ∀ t ∈ turns o img metaBuf fuel s, NamesOnce o img metaBuf t.2)
    (hspare : ∀ t ∈ turns o img metaBuf fuel s, Spares t)
    (hok : ((copyLoop img metaBuf fuel s).run o).2 = none) :
    Positioned ((Writer.copyLoop img metaBuf fuel s).run o).1 ∧
      ∀ t ∈ turns o img metaBuf fuel s, ¬ FallsBack t := by
  induction fuel generalizing s done with
  | zero => exact ⟨h.positioned, fun t ht => absurd ht List.not_mem_nil⟩
  | succ fuel ih =>
    cases hqueue : s.queue with
    | nil =>
      obtain ⟨hloop, hturns⟩ := @copyLoop_nil img o metaBuf s (fuel + 1) hqueue
      rw [hloop, hturns]
      exact ⟨h.positioned, fun t ht => absurd ht List.not_mem_nil⟩
    | cons cur queue =>
      rw [hqueue] at h
      have hto := copyStep_to o img metaBuf { s with queue } cur
      obtain ⟨hloop, hturns⟩ := @copyLoop_cons img o metaBuf s cur fuel queue _ hqueue rfl
      rw [hloop] at hok ⊢
      rw [hturns] at hn hspare ⊢
      generalize (Writer.copyStep img metaBuf { s with queue } cur).run o = r
        at hto hok hn hspare ⊢
      obtain ⟨s', _ | e⟩ := r
      · simp only [Option.isNone_none, if_true] at hok hn hspare ⊢
        have hstep := step (s := { s with queue }) h hto (hn _ List.mem_cons_self)
          (hspare _ List.mem_cons_self)
        obtain ⟨hpos, hrest⟩ := ih hstep (fun t ht => hn t (List.mem_cons_of_mem _ ht))
          (fun t ht => hspare t (List.mem_cons_of_mem _ ht)) hok
        refine ⟨hpos, List.forall_mem_cons.2 ⟨?_, hrest⟩⟩
        exact not_fallsBack (s := { s with queue }) h
      · cases hok

end Placing

/-- What a marker erases is not registered afterwards, nor is what lies right below it. -/
theorem Copied.erased (h : Copied w g S done (cur :: queue))
    (hm : w.isImageMarker cur.path = true) {x : ImgQEntry} (hx : x ∈ queue)
    (he : (markerEvent cur.path).Erases x.path.dropLast) :
    (w.applyMarker cur.path).byPath x.path = none ∧
      (w.applyMarker cur.path).byPath x.path.dropLast = none := by
  have hpre := List.dropLast_prefix x.path
  have hfree := h.free x (List.mem_cons_of_mem _ hx)
  have hfree' : ∀ r ∈ S, ¬ Below r x.path.dropLast := fun r hr hb => hfree r hr (hb.mono hpre)
  by_cases hroot : (markerEvent cur.path).Erases []
  · have hempty := h.empties hroot
    exact ⟨hempty.byPath_none hfree, hempty.byPath_none hfree'⟩
  · obtain ⟨g', hc, hk, -⟩ := h.marker hm hroot
    have hself : (markerEvent cur.path).Erases x.path := by
      unfold markerEvent at he ⊢
      split_ifs at he ⊢
      · exact Below.mono he hpre
      · exact List.IsPrefix.trans he hpre
    have hnone : ∀ {p}, (markerEvent cur.path).Erases p → (∀ r ∈ S, ¬ Below r p) →
        (w.applyMarker cur.path).byPath p = none := by
      intro p hp hf
      have hkp : (w.applyMarker cur.path).kind g' p = none := by rw [hk, apply_of_erases hp]
      rw [hc.byPath_eq hf]
      simpa [kind] using hkp
    exact ⟨hnone hself hfree, hnone he hfree'⟩

/-- An entry whose directory a marker has erased comes off the queue later, and the root stands
in. -/
theorem Copied.fallsBack {fuel : ℕ} (h : Copied s.w g S done (cur :: s.queue))
    (hto : StepTo o img metaBuf s cur (s', none)) (hm : s.w.isImageMarker cur.path = true)
    {x : ImgQEntry} (hx : x ∈ s.queue) (hxm : s.w.isImageMarker x.path = false)
    (her : (markerEvent cur.path).Erases x.path.dropLast) (he : Expanded img s'.expanded)
    (hroom : room img s' ≤ fuel) (hcur : NamesOnce o img metaBuf cur)
    (hn : ∀ t ∈ turns o img metaBuf fuel s', NamesOnce o img metaBuf t.2)
    (hok : ((Writer.copyLoop img metaBuf fuel s').run o).2 = none) :
    ∃ t ∈ turns o img metaBuf fuel s', FallsBack t := by
  have hmem : x ∈ cur :: s.queue := List.mem_cons_of_mem _ hx
  have hpath : ∀ {y}, y ∈ cur :: s.queue → y.path ∈ done ++ (cur :: s.queue).map (·.path) :=
    fun hy => List.mem_append_right _ (List.mem_map_of_mem hy)
  have hne : x.path ≠ [] := by
    intro e
    -- the root came off before the marker did
    have hroot : Below [] cur.path := ⟨List.nil_prefix, (ne_nil_of_isImageMarker hm).symm⟩
    exact h.queued.not_mem_done hmem (e ▸ h.queued.above (hpath List.mem_cons_self) hroot)
  have hq := hto.queued hcur h.queued
  have hmerge := hto.copyMerge
  obtain ⟨hself, hdir⟩ := h.erased hm hx her
  cases hto with
  | marker _ =>
    obtain ⟨t, ht, rfl, htself, htdir, htm⟩ := missing_reaches hq he hroom hn hok hx hself hdir
      (List.mem_append_left _ (h.queued.parent _ (hpath hmem) hne))
    refine ⟨t, ht, ?_, hne, htself, ?_⟩
    · rw [isImageMarker, htm, hmerge]
      exact hxm
    · rw [dir_of_canonical (h.queued.canonical _ hmem)]
      exact htdir
  | name hm' => simp [hm'] at hm
  | entry hm' => simp [hm'] at hm

/-- In a loop that never lets the root stand in, the markers spare what is queued. -/
theorem Placing.spares {fuel : ℕ} (h : Placing s.w done s.queue) (he : Expanded img s.expanded)
    (hroom : room img s ≤ fuel)
    (hn : ∀ t ∈ turns o img metaBuf fuel s, NamesOnce o img metaBuf t.2)
    (hok : ((Writer.copyLoop img metaBuf fuel s).run o).2 = none)
    (hfall : ∀ t ∈ turns o img metaBuf fuel s, ¬ FallsBack t) :
    ∀ t ∈ turns o img metaBuf fuel s, Spares t := by
  induction fuel generalizing s done with
  | zero => exact fun t ht => absurd ht List.not_mem_nil
  | succ fuel ih =>
    cases hqueue : s.queue with
    | nil =>
      rw [(@copyLoop_nil img o metaBuf s (fuel + 1) hqueue).2]
      exact fun t ht => absurd ht List.not_mem_nil
    | cons cur queue =>
      rw [hqueue] at h
      have hto := copyStep_to o img metaBuf { s with queue } cur
      obtain ⟨hloop, hturns⟩ := @copyLoop_cons img o metaBuf s cur fuel queue _ hqueue rfl
      have hcount : room img { s with queue } + 1 = room img s := by
        simp only [room, hqueue, List.length_cons]
        omega
      rw [hloop] at hok
      rw [hturns] at hn hfall ⊢
      generalize (Writer.copyStep img metaBuf { s with queue } cur).run o = r at hto hok hn hfall ⊢
      obtain ⟨s', _ | e⟩ := r
      · simp only [Option.isNone_none, if_true] at hok hn hfall ⊢
        obtain ⟨he', hroom'⟩ := hto.room_le he
        have hnow : Spares ({ s with queue }, cur) := by
          -- otherwise an entry comes off the queue with its directory gone
          by_contra hbad
          unfold Spares at hbad
          push Not at hbad
          obtain ⟨hm, x, hx, hxm, her⟩ := hbad
          obtain ⟨g, S, hc⟩ | ⟨-, hall⟩ := h
          · obtain ⟨t, ht, hback⟩ :=
              Copied.fallsBack (s := { s with queue }) hc hto hm hx hxm her he' (by omega)
                (hn _ List.mem_cons_self) (fun t ht => hn t (List.mem_cons_of_mem _ ht)) hok
            exact hfall t (List.mem_cons_of_mem _ ht) hback
          · have := hall x (List.mem_cons_of_mem _ hx)
            dsimp only at hxm
            rw [hxm] at this
            cases this
        have hstep := Placing.step (s := { s with queue }) h hto (hn _ List.mem_cons_self) hnow
        exact List.forall_mem_cons.2 ⟨hnow, ih hstep he' (by omega)
          (fun t ht => hn t (List.mem_cons_of_mem _ ht)) hok
          fun t ht => hfall t (List.mem_cons_of_mem _ ht)⟩
      · cases hok

/-! ## A whole copy -/

theorem Copying.start (h : Copying w g ∅) (img : Image) :
    Placing w [] (w.copyStart img).queue := by
  refine .inl ⟨g, ∅, h, Queued.start img.sb.rootNid, by simp, by simp, ?_, ?_⟩
  · intro x hx hne
    obtain rfl := List.mem_singleton.1 hx
    exact absurd rfl hne
  · intro x hx hne
    obtain rfl := List.mem_singleton.1 hx
    exact absurd rfl hne

/-- An image of no blocks has one turn, that of the root. -/
theorem copyTurns_zero (h : img.totalBytes = 0) :
    copyTurns o w img = [(⟨w, [], []⟩, ⟨img.sb.rootNid, [], 0⟩)] := by
  have hbound : queueBound img = 1 := by simp [queueBound, h]
  rw [copyTurns, hbound]
  simp [turns, copyStart]

/-- **Tree position.**  After the copy of an image every entry hangs where its path says, and the
root has stood in for no missing directory, exactly when no marker has erased the directory of an
entry that was queued and is no marker itself. -/
theorem copyImage_positioned_iff {w₀ : Writer} {actual : Option Int} {merge : Bool}
    (h : WellFormed w) (hstart : w.imageStart img merge = .ok w₀)
    (hn : ∀ t ∈ copyTurns o w₀ img, NamesOnce o img (img.readMeta.run o) t.2)
    (hok : ((w.copyImage img actual merge).run o).2 = none) :
    (Positioned ((w.copyImage img actual merge).run o).1 ∧
        ∀ t ∈ copyTurns o w₀ img, ¬ FallsBack t) ↔
      ∀ t ∈ copyTurns o w₀ img, Spares t := by
  obtain ⟨w', e, -, hrun⟩ | ⟨w₁, hw₁, hs, hrun⟩ := w.copyImage_cases img o actual merge
  · rw [hrun] at hok
    cases hok
  obtain rfl : w₁ = w₀ := Except.ok.inj (hw₁.symm.trans hstart)
  have hcopy : Copying w₁ w.byPath ∅ := hs.copying (h.beginCopy _)
  rw [hrun] at hok ⊢
  unfold Writer.copyFromImage at hok ⊢
  by_cases hzero : img.totalBytes = 0
  · rw [if_pos hzero, copyTurns_zero hzero]
    refine iff_of_true ⟨hcopy.positioned, ?_⟩ ?_
    · exact List.forall_mem_singleton.2 fun hback => hback.2.1 rfl
    · refine List.forall_mem_singleton.2 fun hm => absurd hm ?_
      simp [isImageMarker]
  · rw [if_neg hzero] at hok ⊢
    cases hcheck : checkImage img actual with
    | error e =>
      rw [hcheck] at hok
      cases hok
    | ok _ =>
      rw [hcheck] at hok
      dsimp only at hok ⊢
      rw [Prog.run_bind] at hok ⊢
      have hplace := hcopy.start img
      constructor
      · rintro ⟨-, hfall⟩
        exact hplace.spares (s := w₁.copyStart img) (expanded_nil img) le_rfl hn hok hfall
      · exact fun hspare => hplace.copyLoop (s := w₁.copyStart img) hn hspare hok

theorem ok_of_any {ε α : Type} {e : Except ε α} {P : α → Prop} [DecidablePred P]
    (h : (e.toOption.any fun a => decide (P a)) = true) : ∃ a, e = .ok a ∧ P a := by
  cases e with
  | error _ => cases h
  | ok a => exact ⟨a, rfl, by simpa [Except.toOption] using h⟩

/-- An image whose root holds the directory `-d`, with one file `c`, and the marker `.wh.-` followed
by `c`; `-` sorts before the dot. -/
def dashImage (c : Byte) : Bytes :=
  Image.zeros 1024
    ++ [0xe2, 0xe1, 0xf5, 0xe0] ++ Image.zeros 8 ++ [9] ++ Image.zeros 23 ++ [5, 0, 0, 0, 3]
    ++ Image.zeros 471
    -- inode 0: compact, flat-inline, a directory of 59 bytes
    ++ [4, 0, 0, 0, 0xed, 0x41, 3, 0, 59] ++ Image.zeros 23
    -- its dirents "-d", ".", ".." and the marker
    ++ [3] ++ Image.zeros 7 ++ [48, 0, 2, 0] ++ Image.zeros 8 ++ [50, 0, 2, 0]
    ++ Image.zeros 8 ++ [51, 0, 2, 0] ++ [7] ++ Image.zeros 7 ++ [53, 0, 1, 0]
    ++ [45, 100, 46, 46, 46, 46, 119, 104, 46, 45, c] ++ Image.zeros 5
    -- inode 3: a directory with the dirents ".", ".." and "c"
    ++ [4, 0, 0, 0, 0xed, 0x41, 2, 0, 40] ++ Image.zeros 23
    ++ [3] ++ Image.zeros 7 ++ [36, 0, 2, 0] ++ Image.zeros 8 ++ [37, 0, 2, 0]
    ++ [6] ++ Image.zeros 7 ++ [39, 0, 1, 0] ++ [46, 46, 46, 99] ++ Image.zeros 24
    -- inodes 6 and 7: empty files
    ++ [0, 0, 0, 0, 0xa4, 0x81, 1] ++ Image.zeros 25 ++ [0, 0, 0, 0, 0xa4, 0x81, 1]
    ++ Image.zeros 793

/-- The readers of the image. -/
def dashReader (c : Byte) : Req → Answer := holding fun _ => dashImage c

/-- The marker `.wh.-d` comes after `-d` and before its file: the copy into a new Writer with
`Merge` succeeds, and the image shows the file `c` of `-d` in the root. -/
theorem dashMarker_strays :
    (openImage 0 fun _ => some 2560).run (dashReader 100) = .ok Image.oneFileFS ∧
      (∃ w₀, (create {}).imageStart Image.oneFileFS true = .ok w₀ ∧
        ∀ t ∈ copyTurns (dashReader 100) w₀ Image.oneFileFS,
          NamesOnce (dashReader 100) Image.oneFileFS
            (Image.oneFileFS.readMeta.run (dashReader 100)) t.2) ∧
      (((create {}).copyImage Image.oneFileFS none true).run (dashReader 100)).2 = none ∧
      ¬ Positioned (((create {}).copyImage Image.oneFileFS none true).run (dashReader 100)).1 := by
  refine ⟨by decide +kernel, ok_of_any (by decide +kernel), by decide +kernel, fun h => ?_⟩
  have hpath := (h [ascii ['c']] 2 ⟨by decide +kernel, 2, by decide +kernel, by decide +kernel,
    by decide +kernel, rfl⟩ (by simp)).1
  revert hpath
  decide +kernel

/-- With the marker `.wh.-e`, which names nothing, every entry is in its place. -/
theorem dashMarker_positioned :
    WellFormed (create {}) ∧ Positioned
      (((create {}).copyImage Image.oneFileFS none true).run (dashReader 101)).1 := by
  have hw : WellFormed (create {}) := wellFormed_create {}
  obtain ⟨w₀, hstart, hn, hspare⟩ : ∃ w₀, (create {}).imageStart Image.oneFileFS true = .ok w₀ ∧
      (∀ t ∈ copyTurns (dashReader 101) w₀ Image.oneFileFS,
        NamesOnce (dashReader 101) Image.oneFileFS
          (Image.oneFileFS.readMeta.run (dashReader 101)) t.2) ∧
      ∀ t ∈ copyTurns (dashReader 101) w₀ Image.oneFileFS, Spares t :=
    ok_of_any (by decide +kernel)
  exact ⟨hw, ((copyImage_positioned_iff hw hstart hn (by decide +kernel)).2 hspare).1⟩

end Writer

end Erofs
