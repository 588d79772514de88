import Erofs.Writer.Merge
import Erofs.Writer.Settle

/-!
# Copies that keep a Writer well formed

A copy along the generic route, step by step, whether or not it succeeds: what is well formed before
a step is so after it, if the step's item fits where it is put.  The walk's main result,
`WellFormed.copyFrom_fits`, asks this of every item the walk comes to.
-/

namespace Erofs

open GoPath PathTree

namespace Writer

variable {w w' : Writer}

/-! ## One entry -/

/-- There is nothing to create above a registered path. -/
theorem WellFormed.ensureParent_registered (h : WellFormed w) {p : Path} {e : EntryId}
    (hp : w.byPath p = some e) (hne : p ≠ []) : w.ensureParent p = .ok w := by
  obtain ⟨d, hd, hdir, -, -⟩ := h.tree.parentOf hp hne
  have hres : w.resolve d = d := by
    rw [resolve, (h.tree.dirPlain hd hdir).1]
    rfl
  have hmissing : w.missingParents p.length p.dropLast = .ok [] := by
    obtain ⟨k, hk⟩ : ∃ k, p.length = k + 1 :=
      ⟨p.length - 1, by have := List.length_pos_of_ne_nil hne; omega⟩
    rw [hk, missingParents]
    split_ifs with hroot
    · rfl
    · rw [hd]
      simp only [hres, hdir, if_true]
  rw [Writer.ensureParent, dir_of_canonical (h.tree.canonical hp), hmissing]
  rfl

/-- What fits at a path still does once the path's directory is made. -/
theorem EntryFits.ensureParent {p : Path} {b : Bool} (hfit : EntryFits w p b) (h : Tidy w)
    (hne : p ≠ []) (hok : w.ensureParent p = .ok w') : Tidy w' ∧ Fits w' p b := by
  obtain ⟨hwf, s, hparent, hother⟩ := h.wellFormed.ensureParent hfit.canonical hok
  refine ⟨h.extends hwf s, ⟨hfit.canonical, hfit.root, ?_, ?_⟩, hne, hparent⟩
  all_goals
    cases hp : w.byPath p with
    | none =>
      have hfree : w'.byPath p = none := by
        rw [hother p (below_dropLast hne).not_above, hp]
      simp [hfree]
    | some e =>
      rw [h.wellFormed.ensureParent_registered hp hne] at hok
      obtain rfl := Except.ok.inj hok
      first | exact hfit.bare | exact hfit.unshared

/-- The root of a Writer stays a directory. -/
theorem WellFormed.sameCopy_setRoot (h : WellFormed w) {mode : Mode} {be : BuilderEntry}
    (hdir : modeIsDir mode = true) : SameCopy w (w.setRoot mode be) := by
  refine .modify ⟨rfl, ?_, rfl, rfl, rfl, rfl, rfl⟩
  have hroot := h.tree.rootDir
  simp only [FsEntry.isDir, modeIsDir, beq_iff_eq] at hroot hdir
  rw [hroot, hdir]

theorem priorName_some {k : HardlinkKey} {t : EntryId} (hk : w.priorName k = some t) :
    w.copyLinks k = some t := by
  unfold priorName at hk
  cases hl : w.copyLinks k with
  | none => simp [hl] at hk
  | some x =>
    simp only [hl] at hk
    split_ifs at hk
    exact hk

/-- `add` once its checks have passed. -/
theorem Tidy.addChecked (h : Tidy w) {p : Path} {mode : Mode} {size : ℕ} {be : BuilderEntry}
    {it : WalkItem} (hfit : EntryFits w p (modeIsDir mode)) :
    Tidy (w.addChecked p mode size be it).1 := by
  unfold Writer.addChecked
  by_cases hroot : p = []
  · rw [if_pos hroot]
    exact h.sameCopy (h.wellFormed.sameCopy_setRoot (hfit.root hroot))
  rw [if_neg hroot]
  obtain ⟨err, e⟩ | ⟨w₁, hw₁, e⟩ := w.check_cases (w.ensureParent p) _
  · rw [e]
    exact h
  rw [e]
  obtain ⟨h₁, hfit₁⟩ := hfit.ensureParent h hroot hw₁
  cases hprior : (if sharesInode mode be then w₁.priorName ⟨be.dev, be.ino⟩ else none) with
  | some prior =>
    split_ifs at hprior with hshare
    rw [modeIsDir_of_sharesInode hshare] at hfit₁
    obtain ⟨err, e⟩ | ⟨w₂, hw₂, e⟩ := w₁.check_cases (w₁.addAlias p prior) fun w => (w, none)
    · simp only [e]
      exact h₁
    · simp only [e]
      exact (h₁.addAlias hfit₁ (priorName_some hprior) hw₂).1
  | none =>
    have hplaced := @Tidy.placeItem w₁ (newEntry p mode size be) h₁ ⟨rfl, rfl, rfl⟩ rfl hfit₁
      (sharesInode mode be) modeIsDir_of_sharesInode ⟨be.dev, be.ino⟩
    exact hplaced.tidy.sameCopy (.fillEntry _ _ _ _ _ _ _)

/-! ## One call of the callback -/

/-- The callback can deal with the item: a marker does not name the root, anything else fits at its
path. -/
def ItemFits (w : Writer) (it : WalkItem) : Prop :=
  if w.copyMerge && isMarker it.path then
    base it.path ≠ opaqueWhiteout → joinElem (dir it.path) (markedName it.path) ≠ []
  else EntryFits w it.path it.isDir

theorem EntryFits.sameCopy {p : Path} {b : Bool} (hfit : EntryFits w p b) (s : SameCopy w w') :
    EntryFits w' p b where
  canonical := hfit.canonical
  root := hfit.root
  bare hd e he c hc := by
    rw [s.byPath] at he
    rw [(s.node e).children] at hc
    rw [(s.node c).removed]
    exact hfit.bare hd e he c hc
  unshared hd e k he := by
    rw [s.byPath] at he
    rw [s.copyLinks]
    exact hfit.unshared hd e k he

theorem Tidy.walkStep (h : Tidy w) {src : Source} {it : WalkItem} (hfit : ItemFits w it) :
    Tidy (walkStep src w it).1 := by
  unfold Writer.walkStep
  cases it.err with
  | some e => exact h
  | none =>
    cases hinfo : it.info with
    | error e => exact h
    | ok info =>
      dsimp only
      unfold ItemFits at hfit
      by_cases hm : w.copyMerge = true ∧ it.path ≠ [] ∧ isWhiteout (base it.path) = true
      · rw [if_pos (by simpa [isMarker] using hm)] at hfit
        rw [if_pos hm]
        exact (h.applyMarker hfit).1
      rw [if_neg (by simpa [isMarker] using hm)] at hfit
      rw [if_neg hm]
      obtain ⟨w₁, sys, s, e⟩ | hfail := addItem_ends w src info it
      · have hdir : it.isDir = modeIsDir (goModeToUnixMode info.mode) := by
          rw [WalkItem.isDir, hinfo]
        rw [e]
        obtain ⟨err, e⟩ | ⟨be, e⟩ := w₁.add_cases it.path info sys it
        · rw [e]
          exact h.sameCopy s
        · rw [e]
          exact (h.sameCopy s).addChecked (hdir ▸ hfit.sameCopy s)
      · exact h.sameCopy hfail.1

/-! ## The walk -/

/-- Every item the walk comes to fits. -/
def WalkFits (src : Source) : Writer → List WalkItem → Prop
  | _, [] => True
  | w, it :: rest => ItemFits w it ∧
      ((walkStep src w it).2 = none → WalkFits src (walkStep src w it).1 rest)

theorem Tidy.walkDir (h : Tidy w) {src : Source} {l : List WalkItem} (hfits : WalkFits src w l) :
    Tidy (walkDir src w l).1 := by
  induction l generalizing w with
  | nil => exact h
  | cons it rest ih =>
    obtain ⟨hit, hrest⟩ := hfits
    have h₁ := @Tidy.walkStep w h src it hit
    rw [Writer.walkDir, Result.andThen]
    cases hr : (Writer.walkStep src w it).2 with
    | some e => exact h₁
    | none => exact ih h₁ (hrest hr)

/-- Every item the walk of a copy comes to fits. -/
def CopyFits (w : Writer) (src : Source) (opts : CopyOpts) : Prop :=
  ∀ w₀, w.walkStart src opts = .ok w₀ → WalkFits src w₀ src.walk

/-- The state after `beginCopy`, which remembers no inode. -/
theorem WellFormed.tidy_beginCopy (h : WellFormed w) (opts : CopyOpts) :
    Tidy (w.beginCopy opts) := by
  have s : SameTree w (w.beginCopy opts) := ⟨rfl, rfl, rfl, fun _ => .refl _⟩
  refine ⟨s.wellFormed h, fun k t hk => ?_⟩
  cases hk

/-- **A copy keeps a Writer well formed**, also one that fails, if what it puts fits. -/
theorem WellFormed.copyFrom_fits (h : WellFormed w) {src : Source} {opts : CopyOpts}
    (hfits : CopyFits w src opts) : WellFormed (w.copyFrom src opts).1 := by
  obtain ⟨w', err, s, e⟩ | ⟨w₀, hw₀, s, e⟩ := w.copyFrom_cases src opts
  · rw [e]
    exact s.wellFormed h
  · rw [e]
    exact (((h.tidy_beginCopy opts).sameCopy s).walkDir (hfits w₀ hw₀)).wellFormed

end Writer

end Erofs
