import Erofs.Writer.CopyStep
import Erofs.Writer.Create

/-!
# Copies as runs of the overlay

A whole copy along the generic route: the walk visits the entries of a layer in order, and
the tree it leaves is the tree before it with the layer's events applied one after the
other.

The main results are `Copying.walkDir` and `WellFormed.copyFrom`: a copy that returns no error is a
run of the overlay.
-/

namespace Erofs

open GoPath PathTree Overlay

namespace Writer

variable {w w' : Writer} {g : Path → Option EntryId} {S : Set Path} {l : List WalkItem}

/-! ## Layers -/

/-- What `fs.WalkDir` delivers for a tree: the paths are canonical, each comes once and in
order, and every entry but the root hangs under a directory. -/
structure Layer (l : List WalkItem) : Prop where
  sorted : l.Pairwise fun a b => a.path < b.path
  canonical : ∀ a ∈ l, Canonical a.path
  root : ∀ a ∈ l, a.path = [] → a.isDir = true
  parent : ∀ a ∈ l, a.path ≠ [] → ∃ b ∈ l, b.path = a.path.dropLast ∧ b.isDir = true

/-- The markers of a layer are files, and each but the opaque ones names an entry. -/
structure MarkerFiles (l : List WalkItem) : Prop where
  file : ∀ a ∈ l, isMarker a.path = true → a.isDir = false
  name : ∀ a ∈ l, isMarker a.path = true → base a.path ≠ opaqueWhiteout →
    IsName (markedName a.path)

namespace Layer

theorem unique (h : Layer l) {a b : WalkItem} (ha : a ∈ l) (hb : b ∈ l) (hp : a.path = b.path) :
    a = b := by
  have hnd : (l.map WalkItem.path).Nodup :=
    List.pairwise_map.2 (h.sorted.imp fun hab => ne_of_lt hab)
  exact List.inj_on_of_nodup_map hnd ha hb hp

/-- Everything above an entry is a directory of the layer. -/
theorem above (h : Layer l) {a : WalkItem} (ha : a ∈ l) {r : Path} (hr : Below r a.path) :
    ∃ b ∈ l, b.path = r ∧ b.isDir = true := by
  induction hn : a.path.length generalizing a with
  | zero => exact absurd (List.length_eq_zero_iff.1 hn) hr.ne_nil
  | succ n ih =>
    obtain ⟨b, hb, hbp, hdir⟩ := h.parent a ha hr.ne_nil
    have hrb := hr.dropLast
    rw [← hbp] at hrb
    rcases prefix_or_below hrb with e | hrb
    · exact ⟨b, hb, e.symm, hdir⟩
    · exact ih hb hrb (by simp [hbp, hn])

/-- Where a list is cut in two, what comes first has the smaller path. -/
theorem lt_of_mem {done rest : List WalkItem} (h : Layer (done ++ rest)) {a b : WalkItem}
    (ha : a ∈ done) (hb : b ∈ rest) : a.path < b.path :=
  (List.pairwise_append.1 h.sorted).2.2 a ha b hb

end Layer

/-! ## The walk -/

/-- No event of an item erases a directory above the item. -/
theorem itemEvent_above {merge : Bool} {it : WalkItem} {r : Path} (hr : Below r it.path) :
    ¬ (itemEvent merge it).Erases r := by
  have hpar := hr.dropLast
  unfold itemEvent
  split_ifs with hm hopq
  · exact fun hb => Below.not_above hb hpar
  · intro hb
    have hlen := (hb.trans hpar).length_le
    simp [marked] at hlen
  · exact fun hb => Below.not_above hb.2 hr.1

/-- The state of the copy when `done` has been visited and `rest` is still to come. -/
structure Walked (w : Writer) (g : Path → Option EntryId) (S : Set Path)
    (done rest : List WalkItem) : Prop where
  copying : Copying w g S
  /-- The paths in `S` are those of the files that were put. -/
  files : ∀ r ∈ S, ∃ a ∈ done, a.path = r ∧ a.isDir = false
  /-- A directory with entries to come is there. -/
  dirs : ∀ b ∈ done, b.isDir = true → ∀ a ∈ rest, Below b.path a.path →
    w.kind g b.path = some true

namespace Walked

variable {done rest : List WalkItem} {it : WalkItem}

theorem ready (h : Walked w g S done (it :: rest)) (hl : Layer (done ++ it :: rest))
    (hm : w.copyMerge = true → MarkerFiles (done ++ it :: rest)) : ItemReady w g S it where
  canonical := hl.canonical it (by simp)
  parent hne := by
    obtain ⟨b, hb, hbp, hdir⟩ := hl.parent it (by simp) hne
    have hbelow : Below b.path it.path := hbp ▸ below_dropLast hne
    rw [← hbp]
    refine h.dirs b ?_ hdir it (by simp) hbelow
    -- The directory was visited before, since its path is the smaller one.
    rcases List.mem_append.1 hb with hb | hb
    · exact hb
    · rcases List.mem_cons.1 hb with rfl | hb
      · exact absurd rfl hbelow.2
      · have hlt := (List.pairwise_cons.1 (List.pairwise_append.1 hl.sorted).2.1).1 b hb
        exact absurd (lt_of_below hbelow) (lt_asymm hlt)
  above r hr hb := by
    obtain ⟨a, ha, rfl, hfile⟩ := h.files r hr
    obtain ⟨b, hbl, hbp, hdir⟩ := hl.above (a := it) (by simp) hb
    rw [hl.unique hbl (List.mem_append_left _ ha) hbp, hfile] at hdir
    cases hdir
  root := hl.root it (by simp)
  fresh _ hS := by
    obtain ⟨a, ha, hp, -⟩ := h.files _ hS
    exact absurd hp (ne_of_lt (hl.lt_of_mem ha (by simp)))
  name hmerge := (hm hmerge).name it (by simp)

/-- One call of the callback. -/
theorem step (h : Walked w g S done (it :: rest)) (hl : Layer (done ++ it :: rest))
    (hm : w.copyMerge = true → MarkerFiles (done ++ it :: rest)) {src : Source}
    (hok : (walkStep src w it).2 = none) :
    ∃ g' S', Walked (walkStep src w it).1 g' S' (done ++ [it]) rest ∧
      (walkStep src w it).1.kind g' = apply (w.kind g) (itemEvent w.copyMerge it) ∧
      (walkStep src w it).1.copyMerge = w.copyMerge := by
  obtain ⟨g', hc, hk, hmerge⟩ := h.copying.walkStep (h.ready hl hm) hok
  refine ⟨g', _, ⟨hc, ?_, ?_⟩, hk, hmerge⟩
  · intro r hr
    have hold : r ∈ S → ∃ a ∈ done ++ [it], a.path = r ∧ a.isDir = false := by
      intro hr
      obtain ⟨a, ha, hp⟩ := h.files r hr
      exact ⟨a, List.mem_append_left _ ha, hp⟩
    unfold withItem withPut at hr
    split_ifs at hr with hmark hdir
    · exact hold hr
    · exact hold hr
    · rcases hr with rfl | hr
      · exact ⟨it, by simp, rfl, by simpa using hdir⟩
      · exact hold hr
  · intro b hb hdir a ha hba
    rw [hk]
    rcases List.mem_append.1 hb with hb | hb
    · -- The item lies between the directory and an entry of it, hence below the directory.
      have hlt₁ : b.path < it.path := hl.lt_of_mem hb (by simp)
      have hlt₂ : it.path < a.path :=
        (List.pairwise_cons.1 (List.pairwise_append.1 hl.sorted).2.1).1 a ha
      obtain ⟨r, hr⟩ := hba.1
      have hbit : Below b.path it.path := between_extension hlt₁ (r := r) (by rwa [hr])
      rw [apply_other ?_ (itemEvent_above hbit)]
      · exact h.dirs b hb hdir a (by simp [ha]) hba
      · unfold itemEvent
        split_ifs
        · exact id
        · exact id
        · exact fun e => hbit.2 e.symm
    · obtain rfl := List.mem_singleton.1 hb
      have hnot : ¬ (w.copyMerge && isMarker b.path) = true := by
        intro hmark
        rw [Bool.and_eq_true] at hmark
        have := (hm hmark.1).file b (by simp) hmark.2
        rw [hdir] at this
        cases this
      rw [itemEvent, if_neg hnot, hdir]
      exact apply_of_sets

/-- **The walk is a run of the overlay.** -/
theorem walkDir {src : Source} (h : Walked w g S done rest) (hl : Layer (done ++ rest))
    (hm : w.copyMerge = true → MarkerFiles (done ++ rest))
    (hok : (walkDir src w rest).2 = none) :
    ∃ g' S', Walked (walkDir src w rest).1 g' S' (done ++ rest) [] ∧
      (walkDir src w rest).1.kind g' = run (w.kind g) (rest.map (itemEvent w.copyMerge)) := by
  induction rest generalizing w g S done with
  | nil => exact ⟨g, S, by simpa [Writer.walkDir] using h, rfl⟩
  | cons it rest ih =>
    unfold Writer.walkDir Result.andThen at hok ⊢
    cases herr : (walkStep src w it).2 with
    | some e =>
      rw [herr] at hok
      cases hok
    | none =>
      rw [herr] at hok
      dsimp only at hok ⊢
      obtain ⟨g₁, S₁, h₁, hk₁, hm₁⟩ := h.step hl hm herr
      have hassoc : done ++ it :: rest = done ++ [it] ++ rest := by simp
      rw [hassoc] at hl hm ⊢
      obtain ⟨g', S', h', hk'⟩ := ih h₁ hl (hm₁ ▸ hm) hok
      refine ⟨g', S', h', ?_⟩
      rw [hk', hk₁, hm₁]
      rfl

end Walked

/-! ## A whole copy -/

/-- `CopyFrom` starts with no inode remembered. -/
theorem WellFormed.beginCopy (h : WellFormed w) (opts : CopyOpts) :
    Copying (w.beginCopy opts) w.byPath ∅ := by
  have s : SameTree w (w.beginCopy opts) := ⟨rfl, rfl, rfl, fun _ => .refl _⟩
  refine ⟨s.tree h.tree, s.covered ⟨?_, ?_, ?_⟩, h.settled, ⟨?_, ?_⟩⟩
  · intro q i hq hnone
    rw [hq] at hnone
    cases hnone
  · exact fun hp hd _ => h.files hp hd
  · exact fun hp hl _ => h.aliases hp hl
  · exact fun hk => absurd hk (by simp [Writer.beginCopy])
  · exact fun hk => absurd hk (by simp [Writer.beginCopy])

theorem SameCopy.sourceBlockSize {size : Option Int} (h : w.sourceBlockSize size = .ok w') :
    SameCopy w w' := by
  unfold Writer.sourceBlockSize setBlockSize at h
  cases size with
  | none =>
    obtain rfl := Except.ok.inj h
    exact .refl w
  | some n =>
    dsimp only at h
    split_ifs at h
    · obtain rfl := Except.ok.inj h
      exact ⟨⟨rfl, rfl, rfl, fun _ => .refl _⟩, rfl, rfl⟩
    · obtain rfl := Except.ok.inj h
      exact .refl w

theorem SameCopy.sourceBuildTime (w : Writer) (time : Option ℕ) :
    SameCopy w (w.sourceBuildTime time) := by
  unfold Writer.sourceBuildTime
  cases time with
  | none => exact .refl w
  | some t =>
    dsimp only
    split_ifs
    · exact .refl w
    · exact ⟨⟨rfl, rfl, rfl, fun _ => .refl _⟩, rfl, rfl⟩

theorem SameCopy.sourceDevice {blocks : Option ℕ} (h : w.sourceDevice blocks = .ok w') :
    SameCopy w w' := by
  unfold Writer.sourceDevice at h
  cases hb : (if w.copyMetadataOnly then blocks else none) with
  | none =>
    rw [hb] at h
    obtain rfl := Except.ok.inj h
    exact .refl w
  | some n =>
    rw [hb] at h
    dsimp only at h
    cases hc : w.checkDeviceCount 1 with
    | error e =>
      rw [hc] at h
      cases h
    | ok _ =>
      rw [hc] at h
      obtain rfl := Except.ok.inj h
      exact ⟨⟨rfl, rfl, rfl, fun _ => .refl _⟩, rfl, rfl⟩

/-- The state the walk of a copy starts from, if the copy comes to it. -/
def walkStart (w : Writer) (src : Source) (opts : CopyOpts) : Except GoError Writer := do
  let w ← (w.beginCopy opts).sourceBlockSize (src.image.map (·.1))
  let w ← (w.sourceBuildTime (src.image.map (·.2))).sourceBlockSize src.blockSizer
  let w ← w.sourceDevice src.deviceBlocker
  return w.sourceBuildTime src.buildTimer

/-- A copy that is refused leaves the tree alone, and any other walks the source. -/
theorem copyFrom_cases (w : Writer) (src : Source) (opts : CopyOpts) :
    (∃ w' e, SameTree w w' ∧ w.copyFrom src opts = (w', some e)) ∨
      ∃ w₀, w.walkStart src opts = .ok w₀ ∧ SameCopy (w.beginCopy opts) w₀ ∧
        w.copyFrom src opts = walkDir src w₀ src.walk := by
  have s₀ : SameTree w (w.beginCopy opts) := ⟨rfl, rfl, rfl, fun _ => .refl _⟩
  unfold copyFrom walkStart
  cases w.wErr with
  | some e => exact .inl ⟨w, e, .refl w, rfl⟩
  | none =>
    dsimp only
    obtain ⟨err, e⟩ | ⟨_, -, e⟩ := w.check_cases (w.checkNoOpenFile "call CopyFrom") _
    · exact .inl ⟨w, err, .refl w, e⟩
    rw [e]
    obtain ⟨err, e⟩ | ⟨w₁, h₁, e⟩ := (w.beginCopy opts).check_cases
      ((w.beginCopy opts).sourceBlockSize (src.image.map (·.1))) _
    · exact .inl ⟨_, err, s₀, e⟩
    rw [e, h₁]
    have s₁ := (SameCopy.sourceBlockSize h₁).trans (.sourceBuildTime w₁ (src.image.map (·.2)))
    obtain ⟨err, e⟩ | ⟨w₂, h₂, e⟩ := (w₁.sourceBuildTime (src.image.map (·.2))).check_cases
      ((w₁.sourceBuildTime (src.image.map (·.2))).sourceBlockSize src.blockSizer) _
    · exact .inl ⟨_, err, s₀.trans s₁.toSameTree, e⟩
    rw [e]
    have s₂ := s₁.trans (.sourceBlockSize h₂)
    obtain ⟨err, e⟩ | ⟨w₃, h₃, e⟩ := w₂.check_cases (w₂.sourceDevice src.deviceBlocker) _
    · exact .inl ⟨_, err, s₀.trans s₂.toSameTree, e⟩
    rw [e]
    refine .inr ⟨_, ?_,
      (s₂.trans (.sourceDevice h₃)).trans (.sourceBuildTime w₃ src.buildTimer), rfl⟩
    simp only [bind, Except.bind, h₂, h₃, pure, Except.pure]

/-- A copy that returns no error walks the source, from a state with the tree of before. -/
theorem copyFrom_eq {src : Source} {opts : CopyOpts} (hok : (w.copyFrom src opts).2 = none) :
    ∃ w₀, SameCopy (w.beginCopy opts) w₀ ∧ w.copyFrom src opts = walkDir src w₀ src.walk := by
  obtain ⟨w', err, -, e⟩ | ⟨w₀, -, s, e⟩ := w.copyFrom_cases src opts
  · rw [e] at hok
    cases hok
  · exact ⟨w₀, s, e⟩

/-- **A copy is a run of the overlay** over the tree that was there. -/
theorem WellFormed.copyFrom (hw : WellFormed w) {src : Source} {opts : CopyOpts}
    (hl : Layer src.walk) (hm : opts.merge = true → MarkerFiles src.walk)
    (hok : (w.copyFrom src opts).2 = none) :
    ∃ g S, Walked (w.copyFrom src opts).1 g S src.walk [] ∧
      (w.copyFrom src opts).1.kind g =
        run (w.kind w.byPath) (src.walk.map (itemEvent opts.merge)) := by
  obtain ⟨w₀, s, e⟩ := copyFrom_eq hok
  rw [e] at hok ⊢
  have h₀ : Walked w₀ w.byPath ∅ [] src.walk :=
    ⟨s.copying (hw.beginCopy opts), fun r hr => absurd hr (Set.notMem_empty r),
      fun b hb => absurd hb List.not_mem_nil⟩
  have hmerge : w₀.copyMerge = opts.merge := s.copyMerge
  obtain ⟨g, S, h, hk⟩ := h₀.walkDir hl (hmerge ▸ hm) hok
  refine ⟨g, S, h, ?_⟩
  rw [hk, hmerge, s.toSameTree.kind]
  rfl

theorem WellFormed.live_copyFrom (hw : WellFormed w) {src : Source} {opts : CopyOpts} {p : Path}
    (hl : Layer src.walk) (hm : opts.merge = true → MarkerFiles src.walk)
    (hok : (w.copyFrom src opts).2 = none) :
    (w.copyFrom src opts).1.Live p ↔
      (run (w.kind w.byPath) (src.walk.map (itemEvent opts.merge)) p).isSome = true := by
  obtain ⟨g, S, h, hk⟩ := hw.copyFrom hl hm hok
  rw [← hk, h.copying.tree.live_iff h.copying.settled, kind, Option.isSome_map]

theorem dropLast_append_base {p : Path} (h : p ≠ []) : p.dropLast ++ [base p] = p := by
  rw [base, List.getLastD_eq_getLast?, List.getLast?_eq_some_getLast h, Option.getD_some,
    List.dropLast_append_getLast]

end Writer

end Erofs
