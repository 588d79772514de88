import Erofs.Writer.Calls

/-!
# The overlay law of `Merge`

What `Merge` makes of a layer and the tree below it.  A layer is meant to show its own entries, and
what was there before where none of its markers and none of its files stands in the way.  The walk
applies a marker when it comes to it, so that an entry of the layer itself may fall to a marker that
sorts behind it.

The main result is `overlaid_iff_markersFirst`: the result is the overlay of the layer exactly when
every marker of the layer is visited before the entries of the layer that it names.
-/

namespace Erofs

open GoPath PathTree Overlay

namespace Writer

variable {w : Writer} {l : List WalkItem}

/-! ## The law -/

/-- A marker of the layer names `p` or something above it. -/
def Named (l : List WalkItem) (p : Path) : Prop :=
  ∃ a ∈ l, isMarker a.path = true ∧ base a.path ≠ opaqueWhiteout ∧ marked a.path <+: p

/-- A directory above `p` carries an opaque marker in the layer. -/
def UnderOpaque (l : List WalkItem) (p : Path) : Prop :=
  ∃ a ∈ l, isMarker a.path = true ∧ base a.path = opaqueWhiteout ∧ Below a.path.dropLast p

/-- The layer has something other than a directory at `p` or above it.  A marker is an
instruction and no entry. -/
def UnderFile (l : List WalkItem) (p : Path) : Prop :=
  ∃ a ∈ l, isMarker a.path = false ∧ a.isDir = false ∧ a.path <+: p

/-- `w'` shows the layer `l` over what `w` shows: the markers of `l` and its files take away what
`w` had, never an entry of `l`. -/
def Overlaid (w w' : Writer) (l : List WalkItem) : Prop :=
  ∀ p, isMarker p = false → (w'.Live p ↔ (∃ a ∈ l, a.path = p) ∨
    (w.Live p ∧ ¬ Named l p ∧ ¬ UnderOpaque l p ∧ ¬ UnderFile l p))

/-- Every marker is visited before the entries of its directory that it names; an opaque one
names them all. -/
def MarkersFirst (l : List WalkItem) : Prop :=
  ∀ a ∈ l, ∀ b ∈ l, isMarker a.path = true → isMarker b.path = false → b.path ≠ [] →
    b.path.dropLast = a.path.dropLast →
    base a.path = opaqueWhiteout ∨ base b.path = markedName a.path → base a.path < base b.path

/-- What a marker does. -/
theorem itemEvent_marker {a : WalkItem} (h : isMarker a.path = true) :
    itemEvent true a =
      if base a.path = opaqueWhiteout then .clear a.path.dropLast else .erase (marked a.path) := by
  rw [itemEvent, h, Bool.and_true, if_pos rfl]

theorem itemEvent_entry {a : WalkItem} (h : isMarker a.path = false) :
    itemEvent true a = .put a.path a.isDir := by
  rw [itemEvent, h, Bool.and_false, if_neg (by simp)]

theorem not_sets_of_ne {a : WalkItem} {p : Path} (h : a.path ≠ p) :
    ¬ (itemEvent true a).Sets p := by
  unfold itemEvent
  split_ifs
  · exact id
  · exact id
  · exact h

/-- A path that is no entry of the layer is taken away by a marker or a file of it. -/
theorem erases_iff {p : Path} (hp : ∀ a ∈ l, a.path ≠ p) :
    (∃ e ∈ l.map (itemEvent true), e.Erases p) ↔ Named l p ∨ UnderOpaque l p ∨ UnderFile l p := by
  simp only [List.mem_map, exists_exists_and_eq_and]
  constructor
  · rintro ⟨a, ha, he⟩
    cases hm : isMarker a.path with
    | true =>
      rw [itemEvent_marker hm] at he
      split_ifs at he with hopq
      · exact Or.inr (Or.inl ⟨a, ha, hm, hopq, he⟩)
      · exact Or.inl ⟨a, ha, hm, hopq, he⟩
    | false =>
      rw [itemEvent_entry hm] at he
      exact Or.inr (Or.inr ⟨a, ha, hm, he.1, he.2.1⟩)
  · rintro (⟨a, ha, hm, hopq, he⟩ | ⟨a, ha, hm, hopq, he⟩ | ⟨a, ha, hm, hdir, he⟩)
    · refine ⟨a, ha, ?_⟩
      rw [itemEvent_marker hm, if_neg hopq]
      exact he
    · refine ⟨a, ha, ?_⟩
      rw [itemEvent_marker hm, if_pos hopq]
      exact he
    · refine ⟨a, ha, ?_⟩
      rw [itemEvent_entry hm]
      exact ⟨hdir, he, hp a ha⟩

/-- A path the layer has no entry at is there afterwards if it was and nothing in the layer takes
it away. -/
theorem run_other {K : Path → Option Bool} {p : Path} (hp : ∀ a ∈ l, a.path ≠ p) :
    (Overlay.run K (l.map (itemEvent true)) p).isSome = true ↔
      (K p).isSome = true ∧ ¬ Named l p ∧ ¬ UnderOpaque l p ∧ ¬ UnderFile l p := by
  have hs : ∀ e ∈ l.map (itemEvent true), ¬ e.Sets p := by
    intro e he
    obtain ⟨a, ha, rfl⟩ := List.mem_map.1 he
    exact not_sets_of_ne (hp a ha)
  obtain ⟨hgone, hkept⟩ := run_of_not_set hs K
  have hiff := erases_iff hp
  by_cases he : ∃ e ∈ l.map (itemEvent true), e.Erases p
  · rw [hgone he]
    have := hiff.1 he
    simp only [Option.isSome_none, Bool.false_eq_true, false_iff]
    tauto
  · rw [hkept fun e hmem herases => he ⟨e, hmem, herases⟩]
    rw [hiff] at he
    tauto

/-- An entry of the layer is there afterwards unless a marker that is visited later erases it. -/
theorem Layer.run_entry (hl : Layer l) {K : Path → Option Bool} {a : WalkItem} (ha : a ∈ l)
    (hm : isMarker a.path = false) :
    (Overlay.run K (l.map (itemEvent true)) a.path).isSome = true ↔
      ∀ b ∈ l, a.path < b.path → isMarker b.path = true → ¬ (itemEvent true b).Erases a.path := by
  obtain ⟨l₁, l₂, rfl⟩ := List.append_of_mem ha
  have hafter : ∀ b ∈ l₂, a.path < b.path :=
    (List.pairwise_cons.1 (List.pairwise_append.1 hl.sorted).2.1).1
  have hlater : ∀ b ∈ l₁ ++ a :: l₂, a.path < b.path → b ∈ l₂ := by
    intro b hb hlt
    rcases List.mem_append.1 hb with hb | hb
    · exact absurd hlt (lt_asymm (hl.lt_of_mem hb (by simp)))
    · rcases List.mem_cons.1 hb with rfl | hb
      · exact absurd hlt (lt_irrefl _)
      · exact hb
  have hs : ∀ e ∈ l₂.map (itemEvent true), ¬ e.Sets a.path := by
    intro e he
    obtain ⟨b, hb, rfl⟩ := List.mem_map.1 he
    exact not_sets_of_ne (ne_of_gt (hafter b hb))
  obtain ⟨hgone, hkept⟩ := run_of_set (l := l₁.map (itemEvent true)) (b := a.isDir) hs K
  rw [List.map_append, List.map_cons, itemEvent_entry hm]
  constructor
  · intro hlive b hb hlt _ he
    rw [hgone ⟨_, List.mem_map_of_mem (hlater b hb hlt), he⟩] at hlive
    cases hlive
  · intro hno
    rw [hkept]
    · rfl
    · intro e he hera
      obtain ⟨b, hb, rfl⟩ := List.mem_map.1 he
      cases hbm : isMarker b.path with
      | true => exact hno b (by simp [hb]) (hafter b hb) hbm hera
      | false =>
        -- A file that is visited later does not lie above the entry.
        rw [itemEvent_entry hbm] at hera
        exact lt_asymm (hafter b hb) (lt_of_below hera.2)

theorem ne_nil_of_isMarker {p : Path} (h : isMarker p = true) : p ≠ [] := by
  rintro rfl
  cases h

/-- What a marker erases lies in its directory, at or below an entry that it names. -/
theorem erased_below {b : WalkItem} (hm : isMarker b.path = true) {p : Path}
    (he : (itemEvent true b).Erases p) :
    ∃ n r, p = b.path.dropLast ++ n :: r ∧
      (base b.path = opaqueWhiteout ∨ n = markedName b.path) := by
  rw [itemEvent_marker hm] at he
  split_ifs at he with hopq
  · obtain ⟨n, r, hp⟩ := below_iff.1 he
    exact ⟨n, r, hp, Or.inl hopq⟩
  · obtain ⟨r, hp⟩ := he
    exact ⟨markedName b.path, r, by simpa [marked] using hp.symm, Or.inr rfl⟩

theorem erases_sibling {b : WalkItem} (hm : isMarker b.path = true) {p : Path} (hne : p ≠ [])
    (hdir : p.dropLast = b.path.dropLast)
    (hname : base b.path = opaqueWhiteout ∨ base p = markedName b.path) :
    (itemEvent true b).Erases p := by
  rw [itemEvent_marker hm]
  split_ifs with hopq
  · rw [← hdir]
    exact below_dropLast hne
  · rw [marked, ← hname.resolve_left hopq, ← hdir, dropLast_append_base hne]
    exact List.prefix_refl p

/-- The markers come first exactly when none erases an entry that was visited before. -/
theorem Layer.markersFirst_iff (hl : Layer l) (hfiles : MarkerFiles l) :
    MarkersFirst l ↔ ∀ a ∈ l, isMarker a.path = false →
      ∀ b ∈ l, a.path < b.path → isMarker b.path = true → ¬ (itemEvent true b).Erases a.path := by
  constructor
  · intro hfirst a ha hma b hb hlt hmb he
    obtain ⟨n, r, hp, hname⟩ := erased_below hmb he
    -- The entry that the marker names is `a` itself or a directory above it.
    have hentry : ∃ c ∈ l, c.path = b.path.dropLast ++ [n] ∧ isMarker c.path = false := by
      cases r with
      | nil => exact ⟨a, ha, hp, hma⟩
      | cons m r =>
        have hbelow : Below (b.path.dropLast ++ [n]) a.path :=
          below_iff.2 ⟨m, r, by rw [hp]; simp⟩
        obtain ⟨c, hc, hcp, hdir⟩ := hl.above ha hbelow
        refine ⟨c, hc, hcp, ?_⟩
        cases hmc : isMarker c.path with
        | false => rfl
        | true =>
          rw [hfiles.file c hc hmc] at hdir
          cases hdir
    obtain ⟨c, hc, hcp, hmc⟩ := hentry
    have hbase : base c.path = n := by simp [hcp, base]
    have hbn : base b.path < n := hbase ▸ hfirst b hb c hc hmb hmc (by simp [hcp]) (by simp [hcp])
      (hbase.symm ▸ hname)
    have hback : b.path.dropLast ++ base b.path :: [] < b.path.dropLast ++ n :: r :=
      (lt_append_cons_iff _ (ne_of_lt hbn) _ _).2 hbn
    rw [dropLast_append_base (ne_nil_of_isMarker hmb), ← hp] at hback
    exact lt_asymm hlt hback
  · intro hno a ha b hb hma hmb hne hdir hname
    have hnea : a.path ≠ [] := ne_nil_of_isMarker hma
    have hneq : base b.path ≠ base a.path := by
      intro e
      have hpath : b.path = a.path := by
        rw [← dropLast_append_base hne, ← dropLast_append_base hnea, hdir, e]
      rw [hpath, hma] at hmb
      cases hmb
    refine lt_of_not_ge fun hge => ?_
    have hlt : b.path < a.path := by
      rw [← dropLast_append_base hne, ← dropLast_append_base hnea, hdir]
      exact (lt_append_cons_iff _ hneq _ _).2 (lt_of_le_of_ne hge hneq)
    exact hno b hb hmb a ha hlt hma (erases_sibling hma hne hdir hname)

/-- **The overlay law.**  A copy with `Merge` that returns no error leaves the overlay of the
layer exactly when every marker of the layer is visited before the entries of the layer that it
names: an entry that is visited before is erased with what the layers below had. -/
theorem overlaid_iff_markersFirst (hw : WellFormed w) {src : Source} {opts : CopyOpts}
    (hmerge : opts.merge = true) (hl : Layer src.walk) (hfiles : MarkerFiles src.walk)
    (hok : (w.copyFrom src opts).2 = none) :
    Overlaid w (w.copyFrom src opts).1 src.walk ↔ MarkersFirst src.walk := by
  have hlive := fun p => hw.live_copyFrom (p := p) hl (fun _ => hfiles) hok
  rw [hmerge] at hlive
  rw [hl.markersFirst_iff hfiles]
  constructor
  · intro hover a ha hm
    exact (hl.run_entry ha hm).1 ((hlive a.path).1 ((hover a.path hm).2 (Or.inl ⟨a, ha, rfl⟩)))
  · intro hno p hm
    rw [hlive p]
    by_cases hp : ∃ a ∈ src.walk, a.path = p
    · obtain ⟨a, ha, rfl⟩ := hp
      exact ⟨fun _ => Or.inl ⟨a, ha, rfl⟩, fun _ => (hl.run_entry ha hm).2 (hno a ha hm)⟩
    · push Not at hp
      rw [run_other hp, hw.live_iff, kind, Option.isSome_map]
      refine ⟨Or.inr, fun h => h.resolve_left ?_⟩
      rintro ⟨a, ha, e⟩
      exact hp a ha e

/-- The root of a layer. -/
def rootItem : WalkItem := { path := [], info := .ok { mode := FileMode.dir ||| 0o755#32 } }

/-- An empty file of a layer. -/
def fileItem (p : Path) : WalkItem := { path := p, info := .ok { mode := 0o644#32 } }

/-- A Writer with the directories `/b`, `/b/x` and `/c`. -/
def lowerTree : Writer :=
  (create {}).run [.mkdir (ascii ['b']) 0o755#32, .mkdir (ascii ['b', '/', 'x']) 0o755#32,
    .mkdir (ascii ['c']) 0o755#32]

theorem wellFormed_lowerTree : WellFormed lowerTree := by
  refine (wellFormed_create {}).run ⟨?_, ?_, ?_, trivial⟩
  · show StaysInside (ascii ['b'])
    decide
  · show StaysInside (ascii ['b', '/', 'x'])
    decide
  · show StaysInside (ascii ['c'])
    decide

/-- A layer that deletes `/b` and brings its own. -/
def replacingLayer : Source :=
  { walk := [rootItem, fileItem [ascii ['.', 'w', 'h', '.', 'b']], fileItem [ascii ['b']]] }

/-- Over `lowerTree` the layer takes `/b/x` away with the `/b` it replaces, and leaves `/c`. -/
theorem overlaid_replacingLayer : MarkersFirst replacingLayer.walk ∧
    lowerTree.Live [ascii ['b'], ascii ['x']] ∧ lowerTree.Live [ascii ['c']] ∧
    Overlaid lowerTree (lowerTree.copyFrom replacingLayer { merge := true }).1
      replacingLayer.walk ∧
    ¬ (lowerTree.copyFrom replacingLayer { merge := true }).1.Live [ascii ['b'], ascii ['x']] ∧
    (lowerTree.copyFrom replacingLayer { merge := true }).1.Live [ascii ['c']] := by
  have hfirst : MarkersFirst replacingLayer.walk := by
    unfold MarkersFirst
    decide
  have hl : Layer replacingLayer.walk := ⟨by decide, by decide, by decide, by decide⟩
  have hfiles : MarkerFiles replacingLayer.walk := ⟨by decide, by decide⟩
  have hok : (lowerTree.copyFrom replacingLayer { merge := true }).2 = none := by decide
  have hlive := fun p => @WellFormed.live_copyFrom lowerTree wellFormed_lowerTree replacingLayer
    { merge := true } p hl (fun _ => hfiles) hok
  refine ⟨hfirst, wellFormed_lowerTree.live_iff.2 (by decide),
    wellFormed_lowerTree.live_iff.2 (by decide),
    (overlaid_iff_markersFirst wellFormed_lowerTree rfl hl hfiles hok).2 hfirst, ?_, ?_⟩
  · rw [hlive]
    decide
  · rw [hlive]
    decide

/-- A layer with an opaque root and a dotfile of its own, whose name sorts before `.wh.`. -/
def dotfileLayer : Source :=
  { walk := [rootItem, fileItem [ascii ['.', 'a']], fileItem [opaqueWhiteout]] }

/-- The opaque marker erases the dotfile, which no layer below had. -/
theorem dotfile_not_overlaid :
    Layer dotfileLayer.walk ∧ MarkerFiles dotfileLayer.walk ∧
      ((create {}).copyFrom dotfileLayer { merge := true }).2 = none ∧
      ¬ Overlaid (create {}) ((create {}).copyFrom dotfileLayer { merge := true }).1
        dotfileLayer.walk := by
  have hl : Layer dotfileLayer.walk := ⟨by decide, by decide, by decide, by decide⟩
  have hfiles : MarkerFiles dotfileLayer.walk := ⟨by decide, by decide⟩
  refine ⟨hl, hfiles, rfl, fun hover => ?_⟩
  have hlive := (hover [ascii ['.', 'a']] (by decide)).2
    (Or.inl ⟨fileItem [ascii ['.', 'a']], by simp [dotfileLayer], rfl⟩)
  rw [(wellFormed_create {}).live_copyFrom hl (fun _ => hfiles) rfl] at hlive
  exact absurd hlive (by decide)

end Writer

end Erofs
