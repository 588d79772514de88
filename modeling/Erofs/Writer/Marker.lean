import Erofs.Writer.Calls

/-!
# What a whiteout marker can remove

A marker `.wh.name` in the directory `D` of a layer takes away what is registered at
`path.Join(D, name)`.  Both routes of `CopyFrom` end in `applyMarker`; they differ in which names
they take for markers.

The main result, `marker_contained_iff`: a marker removes nothing but what is below its own
directory exactly when the name after the beginning is an ordinary one, or there is nothing at the
path it is joined to.
-/

namespace Erofs

open GoPath PathTree Oracle

namespace Writer

variable {w w' : Writer} {D : Path} {suffix : Bytes}

/-! ## Where a marker points -/

theorem joinElem_skip (hD : Canonical D) (h : suffix = [] ∨ suffix = dot) :
    joinElem D suffix = D := by
  rw [joinElem, cleanElems, List.foldl_append, List.foldl_cons, List.foldl_nil, pushElem_skip h]
  exact clean_eq_self hD

theorem joinElem_dotdot (hD : Canonical D) : joinElem D dotdot = D.dropLast := by
  rcases List.eq_nil_or_concat' D with rfl | ⟨q, n, rfl⟩
  · decide
  · have hq : Canonical q := hD.mono (by simp)
    have hn : IsName n := hD n (by simp)
    have hproper : n ≠ dotdot := hn.2.2
    rw [joinElem, cleanElems, List.append_assoc, List.foldl_append, List.singleton_append,
      List.foldl_cons, List.foldl_cons, List.foldl_nil, pushElem_name hn, pushElem_up hproper,
      List.dropLast_concat]
    exact clean_eq_self hq

theorem joinElem_name (hD : Canonical D) (hs : IsName suffix) : joinElem D suffix = D ++ [suffix] :=
  clean_eq_self (hD.append fun x hx => by rwa [List.mem_singleton.1 hx])

/-- The suffix names an entry. -/
def NamesEntry (suffix : Bytes) : Prop := suffix ≠ [] ∧ suffix ≠ dot ∧ suffix ≠ dotdot

instance (suffix : Bytes) : Decidable (NamesEntry suffix) := inferInstanceAs (Decidable (_ ∧ _ ∧ _))

/-- A suffix that names no entry points at the directory itself or at the one above it. -/
theorem joinElem_above (hD : Canonical D) (hs : ¬ NamesEntry suffix) : joinElem D suffix <+: D := by
  by_cases hskip : suffix = [] ∨ suffix = dot
  · rw [joinElem_skip hD hskip]
  · obtain rfl : suffix = dotdot := by
      by_contra hne
      exact hs ⟨fun e => hskip (.inl e), fun e => hskip (.inr e), hne⟩
    rw [joinElem_dotdot hD]
    exact List.dropLast_prefix D

/-! ## Removals only take names away -/

theorem unlinkEntry_byPath (w : Writer) (e : EntryId) :
    (w.unlinkEntry e).byPath = Function.update w.byPath (w.ent e).path none := by
  unfold Writer.unlinkEntry
  cases (w.ent e).linkTo with
  | some t => rfl
  | none =>
    dsimp only
    split_ifs
    · exact (promoteAlias_frame (w.dropName e) e).1
    · rfl

theorem unlinkEntry_none {q : Path} (h : w.byPath q = none) (e : EntryId) :
    (w.unlinkEntry e).byPath q = none := by
  rw [unlinkEntry_byPath, Function.update_apply]
  split_ifs
  · rfl
  · exact h

theorem removeSubtree_none {q : Path} (fuel : ℕ) (h : w.byPath q = none) (e : EntryId) :
    (removeSubtree fuel w e).byPath q = none := by
  induction fuel generalizing w e with
  | zero => exact h
  | succ fuel ih =>
    rw [removeSubtree]
    generalize (w.ent e).children = l
    induction l generalizing w with
    | nil => exact h
    | cons c l ihl =>
      rw [List.foldl_cons]
      apply ihl
      split_ifs
      · exact h
      · unfold removeEntry
        split_ifs
        · exact ih (unlinkEntry_none h c) c
        · exact unlinkEntry_none h c

/-- `removeTree` takes away at least the name it was given. -/
theorem removeTree_self {p : Path} (hpath : ∀ e, w.byPath p = some e → (w.ent e).path = p) :
    (w.removeTree p).byPath p = none := by
  unfold Writer.removeTree
  cases hp : w.byPath p with
  | none => exact hp
  | some e =>
    have hself : (w.unlinkEntry e).byPath p = none := by
      rw [unlinkEntry_byPath, hpath e hp, Function.update_self]
    dsimp only
    unfold removeEntry
    split_ifs
    · exact removeSubtree_none _ hself e
    · exact hself

/-! ## Containment -/

/-- From `w` to `w'` nothing is removed but names strictly below `D`. -/
def Contained (D : Path) (w w' : Writer) : Prop :=
  ∀ q, (w.byPath q).isSome = true → w'.byPath q = none → Below D q

/-- What the marker `.wh.suffix` in `D` removes lies below `D`. -/
def Harmless (w : Writer) (D : Path) (suffix : Bytes) : Prop :=
  NamesEntry suffix ∨ w.byPath (joinElem D suffix) = none

theorem isName_marker (hlegal : slash ∉ suffix) : IsName (whiteoutPrefix ++ suffix) := by
  have hpre : slash ∉ whiteoutPrefix := by decide
  refine ⟨⟨by simp [whiteoutPrefix, ascii], ?_⟩, ?_, ?_⟩
  · simp [hpre, hlegal]
  · exact fun e => absurd (congrArg List.length e) (by simp [whiteoutPrefix, ascii, dot])
  · exact fun e => absurd (congrArg List.length e) (by simp [whiteoutPrefix, ascii, dotdot])

/-- **Containment.**  `applyMarker` removes nothing outside the marker's directory exactly when the
marker is harmless. -/
theorem WellFormed.applyMarker_contained (h : WellFormed w) (hD : Canonical D)
    (hlegal : slash ∉ suffix) :
    Contained D w (w.applyMarker (D ++ [whiteoutPrefix ++ suffix])) ↔ Harmless w D suffix := by
  have hcanon : Canonical (D ++ [whiteoutPrefix ++ suffix]) :=
    hD.append fun x hx => by rw [List.mem_singleton.1 hx]; exact isName_marker hlegal
  have hbase : base (D ++ [whiteoutPrefix ++ suffix]) = whiteoutPrefix ++ suffix := by simp [base]
  have hdir : dir (D ++ [whiteoutPrefix ++ suffix]) = D := by
    rw [dir_of_canonical hcanon, List.dropLast_concat]
  unfold Writer.applyMarker
  rw [hbase, hdir, List.drop_left]
  split_ifs with hopq
  · -- an opaque marker empties its directory
    have hsuffix : suffix = opaqueWhiteout.drop whiteoutPrefix.length := by
      rw [← hopq, List.drop_left]
    have hnames : NamesEntry suffix := by
      rw [hsuffix]
      decide
    refine iff_of_true (fun q hq hgone => ?_) (.inl hnames)
    obtain ⟨-, hb⟩ := (h.removesChildren D).wellFormed h fun hx => (cut_some.1 hx).2
    rw [hb, cut] at hgone
    split_ifs at hgone with hbelow
    · exact hbelow
    · simp [hgone] at hq
  by_cases hnames : NamesEntry suffix
  · refine iff_of_true (fun q hq hgone => ?_) (.inl hnames)
    rw [joinElem_name hD ⟨⟨hnames.1, hlegal⟩, hnames.2⟩] at hgone
    obtain ⟨-, hb⟩ := (h.removesTree (p := D ++ [suffix]) (by simp)).wellFormed h
      fun hx => (prune_some.1 hx).2
    rw [hb, prune] at hgone
    split_ifs at hgone with hpre
    · exact (below_append_cons D suffix []).mono hpre
    · simp [hgone] at hq
  · constructor
    · -- the path the marker is joined to is gone, and it is not below `D`
      intro hc
      refine .inr ?_
      by_contra hreg
      have hself := removeTree_self fun e he => h.tree.regPath (p := joinElem D suffix) he
      have hbelow := hc _ (Option.isSome_iff_ne_none.2 hreg) hself
      exact hbelow.not_above (joinElem_above hD hnames)
    · rintro (hyes | hnone)
      · exact absurd hyes hnames
      · intro q hq hgone
        rw [Writer.removeTree, hnone] at hgone
        simp [hgone] at hq

/-- A marker of the layer, as the generic walk comes to it. -/
structure WalkMarker (w : Writer) (D : Path) (suffix : Bytes) (it : WalkItem) : Prop where
  merge : w.copyMerge = true
  path : it.path = D ++ [whiteoutPrefix ++ suffix]
  delivered : it.err = none
  stat : ∃ info, it.info = .ok info

/-- **Whiteouts.**  On either route, a marker removes nothing but what is strictly below its own
directory exactly when it is harmless. -/
theorem marker_contained_iff (h : WellFormed w) (hD : Canonical D) (hlegal : slash ∉ suffix) :
    (∀ src it, WalkMarker w D suffix it →
      (Contained D w (walkStep src w it).1 ↔ Harmless w D suffix)) ∧
    (∀ o img metaBuf s cur, s.w = w → w.isImageMarker cur.path = true →
      cur.path = D ++ [whiteoutPrefix ++ suffix] →
      (Contained D w ((copyStep img metaBuf s cur).run o).1.w ↔ Harmless w D suffix)) := by
  constructor
  · rintro src it ⟨hmerge, hpath, herr, info, hinfo⟩
    have hm : w.copyMerge = true ∧ it.path ≠ [] ∧ isWhiteout (base it.path) = true := by
      refine ⟨hmerge, by simp [hpath], ?_⟩
      simp [hpath, base, isWhiteout]
    have hstep : walkStep src w it = (w.applyMarker it.path, none) := by
      simp only [walkStep, herr, hinfo]
      rw [if_pos hm]
    rw [hstep, hpath]
    exact h.applyMarker_contained hD hlegal
  · rintro o img metaBuf s cur rfl hm hpath
    have hcond : s.w.copyMerge = true ∧ cur.path ≠ [] ∧ isImageWhiteout (base cur.path) = true := by
      simpa [isImageMarker, and_assoc] using hm
    have hstep : (copyStep img metaBuf s cur).run o =
        ({ s with w := s.w.applyMarker cur.path }, none) := by
      unfold copyStep
      rw [if_pos hcond]
      rfl
    rw [hstep, hpath]
    exact h.applyMarker_contained hD hlegal

/-- A Writer with the directories `/d` and `/o`, about to take a layer with `Merge`. -/
def twoDirs : Writer :=
  ((create {}).run [.mkdir (ascii ['d']) 0o755#32, .mkdir (ascii ['o']) 0o755#32]).beginCopy
    { merge := true }

/-- The marker `/d/.wh.` followed by `suffix`. -/
def markerItem (suffix : Bytes) : WalkItem where
  path := [ascii ['d'], whiteoutPrefix ++ suffix]
  info := .ok { mode := 0 }

/-- `/d/.wh...` is taken for a marker of `/d/..`, and the root goes with all it holds. -/
theorem dotdotMarker_escapes :
    (walkStep { walk := [] } twoDirs (markerItem dotdot)).1.byPath [ascii ['o']] = none ∧
      ¬ Contained [ascii ['d']] twoDirs
        (walkStep { walk := [] } twoDirs (markerItem dotdot)).1 := by
  have hgone : (walkStep { walk := [] } twoDirs (markerItem dotdot)).1.byPath [ascii ['o']] =
      none := by
    decide
  refine ⟨hgone, fun hc => ?_⟩
  have hbelow := hc [ascii ['o']] (by decide) hgone
  exact absurd hbelow (by decide)

theorem wellFormed_twoDirs : WellFormed twoDirs := by
  have hfits : RunFits (create {})
      [.mkdir (ascii ['d']) 0o755#32, .mkdir (ascii ['o']) 0o755#32] := by
    refine ⟨?_, ?_, trivial⟩
    · show StaysInside (ascii ['d'])
      decide
    · show StaysInside (ascii ['o'])
      decide
  exact (((wellFormed_create {}).run hfits).tidy_beginCopy _).wellFormed

/-- `/d/.wh.f` removes nothing outside `/d`. -/
theorem fileMarker_contained :
    WellFormed twoDirs ∧ WalkMarker twoDirs [ascii ['d']] (ascii ['f']) (markerItem (ascii ['f'])) ∧
      Contained [ascii ['d']] twoDirs
        (walkStep { walk := [] } twoDirs (markerItem (ascii ['f']))).1 := by
  have hmarker : WalkMarker twoDirs [ascii ['d']] (ascii ['f']) (markerItem (ascii ['f'])) :=
    ⟨rfl, rfl, rfl, _, rfl⟩
  have hnames : Harmless twoDirs [ascii ['d']] (ascii ['f']) := .inl (by decide)
  refine ⟨wellFormed_twoDirs, hmarker, ?_⟩
  exact ((marker_contained_iff wellFormed_twoDirs (D := [ascii ['d']]) (by decide) (by decide)).1
    { walk := [] } _ hmarker).2 hnames

end Writer

end Erofs
