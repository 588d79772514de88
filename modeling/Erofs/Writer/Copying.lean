import Erofs.Writer.Place

/-!
# The Writer while a layer is copied in

The invariant a `CopyFrom` keeps between two entries of its source, and what each step
of the copy does to the *kinds* of the tree: which paths the image shows, and which of
them are directories.

The main results: `Copying.removeTree`, `Copying.removeChildren`, `Copying.placeEntry`,
`Copying.addAlias` and `Copying.setCopyLink`.
-/

namespace Erofs

open GoPath PathTree

namespace Writer

/-- The paths the tree shows, and whether each is a directory. -/
def kind (w : Writer) (g : Path → Option EntryId) (p : Path) : Option Bool :=
  (g p).map fun i => (w.ent i).isDir

/-- The inodes `copyLinks` holds, `S` being the paths the copy has put something other than a
directory at. -/
structure LinksIn (w : Writer) (g : Path → Option EntryId) (S : Set Path) : Prop where
  /-- Each was placed by this copy and is no alias and no directory. -/
  target : ∀ {k t}, w.copyLinks k = some t → t < w.next ∧ (w.ent t).linkTo = none ∧
    (w.ent t).isDir = false ∧ ∀ p, g p = some t → p ∈ S
  /-- So was every other name of it. -/
  aliasIn : ∀ {k t p i}, w.copyLinks k = some t → g p = some i → (w.ent i).linkTo = some t → p ∈ S

/-- The invariant of a copy between two entries of its source. -/
structure Copying (w : Writer) (g : Path → Option EntryId) (S : Set Path) : Prop where
  tree : Tree w g
  covered : Covered w g S
  settled : w.Settled g []
  links : LinksIn w g S

variable {w w' : Writer} {g g' : Path → Option EntryId} {S : Set Path}

/-! ## Removal -/

theorem Tree.unlinkEntry_copyLinks (h : Tree w g) {p : Path} {e : EntryId} (hp : g p = some e)
    (hne : p ≠ []) {k : HardlinkKey} {t : EntryId} (ht : (w.unlinkEntry e).copyLinks k = some t) :
    w.copyLinks k = some t ∨
      (w.copyLinks k = some e ∧ (w.ent t).linkTo = some e ∧
        ((w.unlinkEntry e).ent t).linkTo = none ∧
        (w.ent t).isDir = false ∧ ∃ q, g q = some t) := by
  revert ht
  unfold Writer.unlinkEntry
  cases hl : (w.ent e).linkTo with
  | some x => exact fun ht => Or.inl ht
  | none =>
    by_cases hx : (w.ent e).extraLinks > 0
    · simp only [if_pos hx]
      have h₁ := h.dropName hp hne hl
      intro ht
      rcases promoteAlias_copyLinks (w.dropName e) e k with hk | ⟨hk, heir, others, hs, hk'⟩
      · exact Or.inl (hk.symm.trans ht)
      · obtain rfl : heir = t := Option.some.inj (hk'.symm.trans ht)
        obtain ⟨q, -, hq, -, -, hlink, hd⟩ := h₁.alias_facts
          (hs ▸ List.mem_cons_self : heir ∈ (w.dropName e).sortedAliases e)
        rw [dropName_linkTo] at hlink
        rw [(dropName_drops w e).shape.isDir] at hd
        have hn : (heir :: others).Nodup := hs ▸ h₁.nodup_sortedAliases
        have hself := h₁.not_mem_sortedAliases (h.unlinked_ne hp hx)
        rw [hs] at hself
        refine Or.inr ⟨hk, hlink, ?_, hd, q, (unlinked_some.1 hq).1⟩
        rw [promoteAlias_ent hs hn hself, if_neg (fun he : heir = e => hself (by simp [he])),
          if_pos rfl]
        rfl
    · rw [if_neg hx]
      exact fun ht => Or.inl ht

/-- What is no alias is no alias after another name is unlinked. -/
theorem Tree.unlinkEntry_link_none (h : Tree w g) {p : Path} {e t : EntryId} (hp : g p = some e)
    (hne : p ≠ []) (ht : (w.ent t).linkTo = none) : ((w.unlinkEntry e).ent t).linkTo = none := by
  cases hx : ((w.unlinkEntry e).ent t).linkTo with
  | none => rfl
  | some x =>
    rcases h.unlinkEntry_link hp hne hx with hx | ⟨hx, -⟩
    · rw [ht] at hx
      cases hx
    · rw [ht] at hx
      cases hx

theorem LinksIn.unlinkEntry (hl : LinksIn w g S) (h : Tree w g) {p : Path} {e : EntryId}
    (hp : g p = some e) (hne : p ≠ []) (hlive : (w.ent e).removed = false) :
    LinksIn (w.unlinkEntry e) (unlinked w g p e) S := by
  have s := (h.unlinkEntry hp hne hlive).2.shape
  have hsub : ∀ {q i}, unlinked w g p e q = some i → g q = some i :=
    fun hq => (unlinked_some.1 hq).1
  have hnone : ∀ {t}, (w.ent t).linkTo = none → ((w.unlinkEntry e).ent t).linkTo = none :=
    fun ht => h.unlinkEntry_link_none hp hne ht
  refine ⟨fun {k t} hk => ?_, fun {k t q i} hk hq hi => ?_⟩
  · rw [s.next, s.isDir]
    rcases h.unlinkEntry_copyLinks hp hne hk with hk | ⟨hk, htl, htl', htd, r, hr⟩
    · obtain ⟨hlt, htl, htd, hin⟩ := hl.target hk
      exact ⟨hlt, hnone htl, htd, fun q hq => hin q (hsub hq)⟩
    · -- The heir was an alias of the unlinked entry.
      refine ⟨h.nodeLt hr, htl', htd, fun q hq => ?_⟩
      rw [h.inj (hsub hq) hr]
      exact hl.aliasIn hk hr htl
  · rcases h.unlinkEntry_copyLinks hp hne hk with hk | ⟨hk, htl, -, -, -⟩
    · rcases h.unlinkEntry_link hp hne hi with hi | ⟨-, htl, -⟩
      · exact hl.aliasIn hk (hsub hq) hi
      · rw [(hl.target hk).2.1] at htl
        cases htl
    · rcases h.unlinkEntry_link hp hne hi with hi | ⟨hi, -, -⟩
      · rw [(h.aliasOf (h.alias_registered (hsub hq) hi) hi).2.1] at htl
        cases htl
      · exact hl.aliasIn hk (hsub hq) hi

theorem Removes.linksIn (r : Removes w g w' g') (h : LinksIn w g S) : LinksIn w' g' S := by
  induction r with
  | refl => exact h
  | unlink ht hp hne hlive _ ih => exact ih (h.unlinkEntry ht hp hne hlive)
  | @drop w g _ _ p e ht hp hrem hb _ ih =>
    have hsome : ∀ {q i}, Function.update g p none q = some i → g q = some i := by
      intro q i hq
      rw [Function.update_apply] at hq
      split_ifs at hq
      exact hq
    refine ih ⟨fun hk => ?_, fun hk hq => h.aliasIn hk (hsome hq)⟩
    obtain ⟨hlt, htl, htd, hin⟩ := h.target hk
    exact ⟨hlt, htl, htd, fun q hq => hin q (hsome hq)⟩

theorem Copying.removes (h : Copying w g S) (r : RemovesTo w g w' g')
    (hsub : ∀ {q i}, g' q = some i → g q = some i) : Copying w' g' S :=
  ⟨r.run.tree h.tree, r.run.covered h.covered, r.settled h.settled hsub, r.run.linksIn h.links⟩

/-- A path is registered as the tree has it unless a file has taken the place of a directory
above it. -/
theorem Copying.byPath_eq (h : Copying w g S) {p : Path} (hp : ∀ r ∈ S, ¬ Below r p) :
    w.byPath p = g p := by
  refine h.tree.byPath_eq h.settled fun hg => ?_
  cases hb : w.byPath p with
  | none => rfl
  | some i =>
    obtain ⟨r, hr, hbelow⟩ := h.covered.stale hb hg
    exact absurd hbelow (hp r hr)

/-- A whiteout of `p` takes `p` and everything below it out of the tree. -/
theorem Copying.removeTree (h : Copying w g S) {p : Path} (hne : p ≠ [])
    (hp : ∀ r ∈ S, ¬ Below r p) :
    Copying (w.removeTree p) (prune g p) S ∧
      (w.removeTree p).kind (prune g p) = prune (w.kind g) p := by
  have r := h.tree.removeTree h.settled hne fun hg => (h.byPath_eq hp).trans hg
  refine ⟨h.removes r fun hq => (prune_some.1 hq).2, funext fun q => ?_⟩
  unfold kind prune
  split_ifs
  · rfl
  · simp only [r.run.shape.isDir]

/-- An opaque marker in `p` takes everything below `p` out of the tree. -/
theorem Copying.removeChildren (h : Copying w g S) {p : Path} (hp : ∀ r ∈ S, ¬ Below r p)
    (hdir : w.kind g p ≠ some false) :
    Copying (w.removeChildren p) (cut g p) S ∧
      (w.removeChildren p).kind (cut g p) = cut (w.kind g) p := by
  have r := h.tree.removeChildren h.settled (fun hg => (h.byPath_eq hp).trans hg) fun d hd => by
    rw [kind, hd] at hdir
    simpa using hdir
  refine ⟨h.removes r fun hq => (cut_some.1 hq).2, funext fun q => ?_⟩
  unfold kind cut
  split_ifs
  · rfl
  · simp only [r.run.shape.isDir]

/-! ## Placing an entry -/

theorem kind_eq_some {p : Path} {b : Bool} :
    w.kind g p = some b ↔ ∃ i, g p = some i ∧ (w.ent i).isDir = b := by
  simp [kind]

/-- Where there is no directory, placing an entry only adds it. -/
theorem Tree.placed_eq (h : Tree w g) {p : Path} (hp : ∀ d, g p = some d → (w.ent d).isDir = false)
    (b : Bool) (i : EntryId) : placed b g p i = Function.update g p (some i) := by
  unfold placed
  rw [h.closed.cut_eq_self (fun d hd => by simp [hp d hd]), ite_self]

theorem Tree.cut_kind_eq (h : Tree w g) {p : Path}
    (hp : ∀ d, g p = some d → (w.ent d).isDir = false) :
    cut (w.kind g) p = w.kind g := by
  funext q
  unfold kind
  have := congrFun (h.closed.cut_eq_self (a := p) (fun d hd => by simp [hp d hd])) q
  unfold cut at this ⊢
  split_ifs at this ⊢ with hb
  · rw [← this]
    rfl
  · rfl

/-- A new child keeps the copy's invariant. -/
theorem Copying.attach (h : Copying w g S) {e : FsEntry} (he : Fresh e) {d : EntryId}
    (s : Attaches w w' e d) (ht : Tree w' (Function.update g e.path (some w.next)))
    {S' : Set Path} (hc : Covered w' (Function.update g e.path (some w.next)) S')
    (hS : S ⊆ S') (hal : ∀ t, e.linkTo = some t → e.path ∈ S') :
    Copying w' (Function.update g e.path (some w.next)) S' := by
  have hcases : ∀ {p i}, Function.update g e.path (some w.next) p = some i →
      (p = e.path ∧ i = w.next) ∨ (p ≠ e.path ∧ g p = some i ∧ i ≠ w.next) := by
    intro p i hp
    rw [Function.update_apply] at hp
    split_ifs at hp with hpe
    · exact Or.inl ⟨hpe, (Option.some.inj hp).symm⟩
    · exact Or.inr ⟨hpe, hp, fun hi => by have := h.tree.nodeLt hp; lia⟩
  refine ⟨ht, hc, ?_, ⟨fun {k t} hk => ?_, fun {k t p i} hk hp hl => ?_⟩⟩
  · intro q i hb hq
    rcases hcases hq with ⟨-, rfl⟩ | ⟨-, hq, hi⟩
    · exact s.newRemoved he
    · rw [s.removed hi]
      exact h.settled q i hb hq
  · rw [s.copyLinks] at hk
    obtain ⟨hlt, htl, htd, hin⟩ := h.links.target hk
    have hne : t ≠ w.next := by lia
    refine ⟨by rw [s.next]; lia, by rw [s.link hne, htl], by rw [s.isDir hne, htd], fun q hq => ?_⟩
    rcases hcases hq with ⟨-, rfl⟩ | ⟨-, hq, -⟩
    · exact absurd rfl hne
    · exact hS (hin q hq)
  · rw [s.copyLinks] at hk
    rcases hcases hp with ⟨rfl, rfl⟩ | ⟨-, hp, hi⟩
    · exact hal t (s.newLink ▸ hl)
    · rw [s.link hi] at hl
      exact hS (h.links.aliasIn hk hp hl)

theorem Attaches.kind {e : FsEntry} {d : EntryId} (s : Attaches w w' e d) (h : Tree w g) :
    w'.kind (Function.update g e.path (some w.next)) =
      Function.update (w.kind g) e.path (some e.isDir) := by
  funext p
  unfold Writer.kind
  rw [Function.update_apply, Function.update_apply]
  split_ifs with hp
  · simp only [Option.map_some, FsEntry.isDir, s.newMode]
  · cases hgp : g p with
    | none => rfl
    | some i =>
      have hi : i ≠ w.next := fun hi => by
        have := h.nodeLt hgp
        lia
      simp only [Option.map_some, s.isDir hi]

/-- Unlinking a file takes its name out of the tree. -/
theorem Copying.unlinkFile (h : Copying w g S) {p : Path} {e : EntryId} (hp : g p = some e)
    (hne : p ≠ []) (hd : (w.ent e).isDir = false) :
    Copying (w.unlinkEntry e) (Function.update g p none) S ∧ SameShape w (w.unlinkEntry e) ∧
      (w.unlinkEntry e).byPath p = none := by
  have hlive := h.settled p e ⟨List.nil_prefix, Ne.symm hne⟩ hp
  have s := (h.tree.unlinkEntry hp hne hlive).2
  have r := h.tree.removeEntry (fun v _ => v) hp hne hlive (h.settled.mono List.nil_prefix)
    fun hd' => by rw [hd] at hd'; cases hd'
  rw [Writer.removeEntry, s.shape.isDir, hd, if_neg (by simp)] at r
  have hprune : Function.update g p none = prune g p :=
    update_none_eq_prune fun q hq => h.tree.closed.nothing_below
      (fun d hd' => by rw [hp] at hd'; rw [← Option.some.inj hd', hd]; simp) hq
  rw [hprune]
  refine ⟨h.removes r fun hq => (prune_some.1 hq).2, s.shape, ?_⟩
  rw [s.byPath, h.tree.nodePath hp, Function.update_self]

/-- Nothing in the tree of a copy is removed. -/
theorem Copying.live (h : Copying w g S) {p : Path} {i : EntryId} (hp : g p = some i) :
    (w.ent i).removed = false := by
  rcases prefix_or_below (List.nil_prefix : [] <+: p) with rfl | hb
  · rw [h.tree.rootAt] at hp
    rw [← Option.some.inj hp, h.tree.rootLive]
  · exact h.settled p i hb hp

/-- The paths with something other than a directory at them, once `fe` is placed. -/
def withEntry (S : Set Path) (fe : FsEntry) : Set Path :=
  if fe.isDir then S else insert fe.path S

theorem subset_withEntry (S : Set Path) (fe : FsEntry) : S ⊆ withEntry S fe := by
  unfold withEntry
  split_ifs
  · exact Set.Subset.rfl
  · exact Set.subset_insert _ _

/-- `w'` is `w` with `fe` placed at its path, living at `i`: nothing stays below it unless it is
a directory. -/
structure Places (w : Writer) (g : Path → Option EntryId) (S : Set Path) (fe : FsEntry)
    (w' : Writer) (i : EntryId) : Prop where
  copying : Copying w' (placed fe.isDir g fe.path i) (withEntry S fe)
  kind : w'.kind (placed fe.isDir g fe.path i) =
    Function.update (if fe.isDir then w.kind g else cut (w.kind g) fe.path) fe.path (some fe.isDir)
  entry : w'.ent i = { fe with parent := (w'.ent i).parent, children := (w'.ent i).children }

section Place

variable {fe : FsEntry} {q : Path} {n : Bytes} {d e : EntryId}

/-- A new entry where there is none. -/
theorem Copying.addChild (h : Copying w g S) (he : Fresh fe) (hl : fe.linkTo = none)
    (hpath : fe.path = q ++ [n]) (hname : IsName n) (hq : g q = some d)
    (hdir : (w.ent d).isDir = true) (hnone : g fe.path = none) (hfree : w.byPath fe.path = none) :
    Places w g S fe (w.addChild fe) w.next := by
  obtain ⟨ht, s⟩ := h.tree.addChild he hpath hname hq hdir (h.live hq) hnone hfree hl
  have hnd : ∀ d, g fe.path = some d → (w.ent d).isDir = false := by simp [hnone]
  have hnl : ∀ t, fe.linkTo ≠ some t := by simp [hl]
  refine ⟨?_, ?_, by rw [s.new]⟩
  · rw [h.tree.placed_eq hnd]
    have hc := h.covered.attach h.tree he s hdir fun t ht => absurd ht (hnl t)
    exact h.attach he s ht (hc.mono (subset_withEntry S fe)) (subset_withEntry S fe)
      fun t ht => absurd ht (hnl t)
  · rw [h.tree.placed_eq hnd, h.tree.cut_kind_eq hnd, ite_self]
    exact s.kind h.tree

theorem Tree.overwrite_kind (h : Tree w g) (hp : g fe.path = some e) :
    (w.overwrite e fe).kind (placed fe.isDir g fe.path e) =
      Function.update (if fe.isDir then w.kind g else cut (w.kind g) fe.path) fe.path
        (some fe.isDir) := by
  funext x
  unfold kind placed
  rw [Function.update_apply, Function.update_apply]
  by_cases hx : x = fe.path
  · simp [hx, overwrite_isDir]
  · have hother : (g x).map (fun i => ((w.overwrite e fe).ent i).isDir) =
        (g x).map fun i => (w.ent i).isDir := by
      cases hgx : g x with
      | none => rfl
      | some j =>
        have hje : j ≠ e := fun hje => hx (h.inj hgx (hje ▸ hp))
        simp [overwrite_isDir, hje]
    rw [if_neg hx, if_neg hx]
    split_ifs
    · exact hother
    · unfold cut
      split_ifs
      · rfl
      · exact hother

/-- An entry with one name overwritten in place. -/
theorem Copying.overwrite (h : Copying w g S) (he : Fresh fe) (hl : fe.linkTo = none)
    (hp : g fe.path = some e) (hne : fe.path ≠ []) (hle : (w.ent e).linkTo = none)
    (hx : (w.ent e).extraLinks = 0) (hS : fe.isDir = true → fe.path ∉ S) :
    Places w g S fe (w.overwrite e fe) e := by
  have hlive := h.live hp
  have hrem := overwrite_removed he hlive
  have hsome : ∀ {x j}, placed fe.isDir g fe.path e x = some j → g x = some j :=
    fun hxj => ((placed_some hp).1 hxj).1
  refine ⟨⟨?_, h.covered.overwrite h.tree he hp hlive hle hx hl, ?_, ⟨?_, ?_⟩⟩,
    h.tree.overwrite_kind hp, ?_⟩
  · exact h.tree.overwrite he hp hne hlive hle hx rfl hl fun hfd hed =>
      h.covered.kids hp hed (hS hfd)
  · intro x j hbx hxj
    rw [hrem]
    exact h.settled x j hbx (hsome hxj)
  · intro k t hk
    obtain ⟨hlt, htl, htd, hin⟩ := h.links.target (show w.copyLinks k = some t from hk)
    refine ⟨hlt, by rw [overwrite_link hl hle, htl], ?_,
      fun x hx => subset_withEntry S fe (hin x (hsome hx))⟩
    rw [overwrite_isDir]
    split_ifs with hte
    · -- A directory is never written over an inode of this copy.
      by_contra hfd
      exact hS (by simpa using hfd) (hin _ (hte ▸ hp))
    · exact htd
  · intro k t x j hk hxj hjl
    rw [overwrite_link hl hle] at hjl
    exact subset_withEntry S fe
      (h.links.aliasIn (show w.copyLinks k = some t from hk) (hsome hxj) hjl)
  · rw [overwrite_ent, if_pos rfl]

/-- `placeEntry` puts the entry at its path. -/
theorem Copying.placeEntry (h : Copying w g S) (he : Fresh fe) (hl : fe.linkTo = none)
    (hpath : fe.path = q ++ [n]) (hname : IsName n) (hq : g q = some d)
    (hdir : (w.ent d).isDir = true) (hS : fe.isDir = true → fe.path ∉ S)
    (hp : ∀ r ∈ S, ¬ Below r fe.path) :
    Places w g S fe (w.placeEntry fe).1 (w.placeEntry fe).2 := by
  have hne : fe.path ≠ [] := by simp [hpath]
  have hb := h.byPath_eq hp
  unfold Writer.placeEntry
  cases hg : g fe.path with
  | none =>
    rw [hg] at hb
    rw [hb]
    exact h.addChild he hl hpath hname hq hdir hg hb
  | some e =>
    rw [hg] at hb
    rw [hb]
    by_cases hlinked : (w.ent e).linkTo.isSome = true ∨ (w.ent e).extraLinks > 0
    · -- One name of a hardlink group, so a file: it is dropped first.
      have hd : (w.ent e).isDir = false := by
        by_contra hd
        obtain ⟨h1, h2⟩ := h.tree.dirPlain hg (by simpa using hd)
        rcases hlinked with hx | hx
        · simp [h1] at hx
        · omega
      have hnd : ∀ d, g fe.path = some d → (w.ent d).isDir = false := by
        intro d' hd'
        rw [hg] at hd'
        rw [← Option.some.inj hd', hd]
      obtain ⟨h₁, s₁, hb₁⟩ := h.unlinkFile hg hne hd
      have hqp : q ≠ fe.path := by simp [hpath]
      have hq₁ : Function.update g fe.path none q = some d := by rw [Function.update_of_ne hqp, hq]
      have hnd₁ : ∀ d, Function.update g fe.path none fe.path = some d →
          ((w.unlinkEntry e).ent d).isDir = false := by simp
      obtain ⟨hcopy, hkind, hent⟩ :=
        h₁.addChild he hl hpath hname hq₁ (by rw [s₁.isDir, hdir]) (by simp) hb₁
      rw [h₁.tree.placed_eq hnd₁, Function.update_idem] at hcopy hkind
      rw [h₁.tree.cut_kind_eq hnd₁, ite_self] at hkind
      simp only [if_pos hlinked]
      refine ⟨?_, ?_, hent⟩
      · rw [h.tree.placed_eq hnd]
        exact hcopy
      · rw [h.tree.placed_eq hnd, h.tree.cut_kind_eq hnd, ite_self, hkind]
        funext x
        rw [Function.update_apply, Function.update_apply]
        split_ifs with hx
        · rfl
        · simp only [kind, Function.update_of_ne hx, s₁.isDir]
    · simp only [if_neg hlinked]
      push Not at hlinked
      exact h.overwrite he hl hg hne (by simpa using hlinked.1) (by omega) hS

end Place

/-! ## Another name for an inode of the copy -/

theorem Copying.mono (h : Copying w g S) {S' : Set Path} (hS : S ⊆ S') : Copying w g S' where
  tree := h.tree
  covered := h.covered.mono hS
  settled := h.settled
  links := by
    refine ⟨fun hk => ?_, fun hk hp hl => hS (h.links.aliasIn hk hp hl)⟩
    obtain ⟨hlt, htl, htd, hin⟩ := h.links.target hk
    exact ⟨hlt, htl, htd, fun p hp => hS (hin p hp)⟩

theorem Copying.addAliasChild (h : Copying w g S) {q : Path} {n : Bytes} {d t : EntryId}
    (hname : IsName n) (hq : g q = some d) (hdir : (w.ent d).isDir = true)
    (hnone : g (q ++ [n]) = none) (hfree : w.byPath (q ++ [n]) = none) (htn : t < w.next)
    (htl : (w.ent t).linkTo = none) (htd : (w.ent t).isDir = false) :
    let e : FsEntry := { path := q ++ [n], mode := (w.ent t).mode, linkTo := some t }
    let w' := (w.addChild e).modify t fun x => { x with extraLinks := x.extraLinks + 1 }
    Copying w' (Function.update g (q ++ [n]) (some w.next)) (insert (q ++ [n]) S) ∧
      w'.kind (Function.update g (q ++ [n]) (some w.next)) =
        Function.update (w.kind g) (q ++ [n]) (some false) := by
  intro e w'
  obtain ⟨ht, s⟩ := h.tree.addAliasChild hname hq hdir (h.live hq) hnone hfree htn htl htd
  have hS : S ⊆ insert (q ++ [n]) S := Set.subset_insert _ _
  have he : Fresh e := ⟨rfl, rfl, rfl⟩
  refine ⟨h.attach he s ht ?_ hS fun _ _ => Set.mem_insert _ _, ?_⟩
  · refine (h.covered.mono hS).attach h.tree he s hdir fun t' ht' => ?_
    obtain rfl := Option.some.inj ht'
    exact ⟨htn, htd, fun hn => absurd (Set.mem_insert _ _) hn⟩
  · rw [← htd]
    exact s.kind h.tree

/-- `addAlias` of an inode this copy has placed puts a file at the path. -/
theorem Copying.addAlias (h : Copying w g S) {q : Path} {n : Bytes} {d t : EntryId}
    {k : HardlinkKey} (hname : IsName n) (hq : g q = some d) (hdir : (w.ent d).isDir = true)
    (hp : ∀ r ∈ S, ¬ Below r (q ++ [n])) (hk : w.copyLinks k = some t)
    (hok : w.addAlias (q ++ [n]) t = .ok w') :
    ∃ g', Copying w' g' (insert (q ++ [n]) S) ∧
      w'.kind g' = Function.update (cut (w.kind g) (q ++ [n])) (q ++ [n]) (some false) := by
  obtain ⟨htn, htl, htd, -⟩ := h.links.target hk
  have hres : w.resolve t = t := by rw [resolve, htl]; rfl
  have hb := h.byPath_eq hp
  unfold Writer.addAlias at hok
  simp only [hres] at hok
  cases hg : g (q ++ [n]) with
  | none =>
    rw [hg] at hb
    rw [hb] at hok
    obtain rfl := Except.ok.inj hok
    rw [h.tree.cut_kind_eq (by simp [hg])]
    exact ⟨_, h.addAliasChild hname hq hdir hg hb htn htl htd⟩
  | some e =>
    rw [hg] at hb
    rw [hb] at hok
    simp only at hok
    have hcut : (w.ent e).isDir = false → cut (w.kind g) (q ++ [n]) = w.kind g := fun hd =>
      h.tree.cut_kind_eq fun d' hd' => by
        rw [hg] at hd'
        rw [← Option.some.inj hd', hd]
    split_ifs at hok with het hed
    · obtain rfl := Except.ok.inj hok
      refine ⟨g, h.mono (Set.subset_insert _ _), ?_⟩
      rw [hcut (het ▸ htd), eq_comm, Function.update_eq_self_iff]
      exact (kind_eq_some.2 ⟨e, hg, het ▸ htd⟩).symm
    · obtain rfl := Except.ok.inj hok
      obtain ⟨h₁, s₁, hb₁⟩ := h.unlinkFile hg (by simp) (by simpa using hed)
      have hq₁ : Function.update g (q ++ [n]) none q = some d := by
        rw [Function.update_of_ne (by simp), hq]
      obtain ⟨hcopy, hkind⟩ := h₁.addAliasChild hname hq₁ (by rw [s₁.isDir, hdir]) (by simp) hb₁
        (by rw [s₁.next]; exact htn) (h.tree.unlinkEntry_link_none hg (by simp) htl)
        (by rw [s₁.isDir, htd])
      refine ⟨_, hcopy, hkind.trans ?_⟩
      rw [hcut (by simpa using hed)]
      funext x
      rw [Function.update_apply, Function.update_apply]
      split_ifs with hx
      · rfl
      · simp only [kind, Function.update_of_ne hx, s₁.isDir]

/-! ## Changes that leave the tree alone -/

/-- `b` is the entry `a` with other data or metadata. -/
structure SameNode (a b : FsEntry) : Prop where
  path : b.path = a.path
  typ : b.mode.typ = a.mode.typ
  linkTo : b.linkTo = a.linkTo
  extraLinks : b.extraLinks = a.extraLinks
  parent : b.parent = a.parent
  children : b.children = a.children
  removed : b.removed = a.removed

theorem SameNode.refl (a : FsEntry) : SameNode a a := ⟨rfl, rfl, rfl, rfl, rfl, rfl, rfl⟩

theorem SameNode.trans {a b c : FsEntry} (s : SameNode a b) (s' : SameNode b c) : SameNode a c where
  path := s'.path.trans s.path
  typ := s'.typ.trans s.typ
  linkTo := s'.linkTo.trans s.linkTo
  extraLinks := s'.extraLinks.trans s.extraLinks
  parent := s'.parent.trans s.parent
  children := s'.children.trans s.children
  removed := s'.removed.trans s.removed

theorem SameNode.isDir {a b : FsEntry} (s : SameNode a b) : b.isDir = a.isDir := by
  simp only [FsEntry.isDir, s.typ]

/-- `w'` differs from `w` in data and metadata only. -/
structure SameTree (w w' : Writer) : Prop where
  next : w'.next = w.next
  root : w'.root = w.root
  byPath : w'.byPath = w.byPath
  node : ∀ i, SameNode (w.ent i) (w'.ent i)

namespace SameTree

theorem refl (w : Writer) : SameTree w w := ⟨rfl, rfl, rfl, fun i => .refl (w.ent i)⟩

theorem trans {w'' : Writer} (s : SameTree w w') (s' : SameTree w' w'') : SameTree w w'' :=
  ⟨s'.next.trans s.next, s'.root.trans s.root, s'.byPath.trans s.byPath,
    fun i => (s.node i).trans (s'.node i)⟩

theorem modify {i : EntryId} {f : FsEntry → FsEntry} (hf : SameNode (w.ent i) (f (w.ent i))) :
    SameTree w (w.modify i f) := by
  refine ⟨rfl, rfl, rfl, fun j => ?_⟩
  rw [modify_ent]
  split_ifs with hj
  · exact hj ▸ hf
  · exact .refl _

theorem shape (s : SameTree w w') : SameShape w w' :=
  ⟨s.next, s.root, fun i => ⟨(s.node i).path, (s.node i).parent, (s.node i).typ,
    fun _ => (s.node i).children⟩⟩

theorem aliases (s : SameTree w w') (t : EntryId) : w'.aliases t = w.aliases t := by
  unfold Writer.aliases
  rw [s.next, s.byPath]
  refine Finset.filter_congr fun j _ => ?_
  rw [(s.node j).path, (s.node j).linkTo]

theorem tree (s : SameTree w w') (h : Tree w g) : Tree w' g := by
  refine h.transport s.shape s.byPath (fun i => (s.node i).removed) ⟨?_, ?_, ?_⟩ ?_ ?_
  · intro p i hp hd
    rw [(s.node i).isDir] at hd
    rw [(s.node i).linkTo, (s.node i).extraLinks]
    exact h.dirPlain hp hd
  · intro p i hp
    rw [(s.node i).extraLinks, s.aliases, h.count hp]
  · intro p i t hp hl
    rw [s.byPath] at hp
    rw [(s.node i).linkTo] at hl
    rw [s.next, (s.node t).linkTo, (s.node t).isDir, (s.node t).typ, (s.node i).typ]
    exact h.aliasOf hp hl
  · intro i c hc
    rw [(s.node i).children] at hc
    exact h.kidsLt i c hc
  · intro i
    rw [(s.node i).children]
    exact h.kidsNodup i

theorem covered (s : SameTree w w') (h : Covered w g S) : Covered w' g S where
  stale hq hg := h.stale (s.byPath ▸ hq) hg
  kids {p i} hp hd hS c hc := by
    rw [(s.node i).isDir] at hd
    rw [(s.node i).children] at hc
    rw [(s.node c).removed]
    exact h.kids hp hd hS c hc
  aliasKids {p i t} hp hl hS c hc := by
    rw [(s.node i).linkTo] at hl
    rw [(s.node t).children] at hc
    rw [(s.node c).removed]
    exact h.aliasKids hp hl hS c hc

theorem kind (s : SameTree w w') : w'.kind g = w.kind g := by
  funext p
  simp only [Writer.kind, (s.node _).isDir]

/-- The copy's invariant speaks of the tree and of `copyLinks`. -/
theorem copying (s : SameTree w w') (hc : w'.copyLinks = w.copyLinks) (h : Copying w g S) :
    Copying w' g S := by
  refine ⟨s.tree h.tree, s.covered h.covered, fun q i hb hq => ?_, ⟨fun {k t} hk => ?_,
    fun {k t p i} hk hp hl => ?_⟩⟩
  · rw [(s.node i).removed]
    exact h.settled q i hb hq
  · rw [hc] at hk
    rw [s.next, (s.node t).linkTo, (s.node t).isDir]
    exact h.links.target hk
  · rw [hc] at hk
    rw [(s.node i).linkTo] at hl
    exact h.links.aliasIn hk hp hl

end SameTree

/-- Remembering the inode of a file with more than one name. -/
theorem Copying.setCopyLink (h : Copying w g S) {p : Path} {i : EntryId} (hp : g p = some i)
    (hS : p ∈ S) (hl : (w.ent i).linkTo = none) (hd : (w.ent i).isDir = false)
    (hx : (w.ent i).extraLinks = 0) (k : HardlinkKey) :
    Copying { w with copyLinks := Function.update w.copyLinks k (some i) } g S := by
  have s : SameTree w { w with copyLinks := Function.update w.copyLinks k (some i) } :=
    ⟨rfl, rfl, rfl, fun j => .refl _⟩
  refine ⟨s.tree h.tree, s.covered h.covered, h.settled, ⟨fun {k' t} hk => ?_,
    fun {k' t q j} hk hq hjl => ?_⟩⟩
  · simp only [Function.update_apply] at hk
    split_ifs at hk
    · obtain rfl := Option.some.inj hk
      exact ⟨h.tree.nodeLt hp, hl, hd, fun q hq => h.tree.inj hp hq ▸ hS⟩
    · exact h.links.target hk
  · simp only [Function.update_apply] at hk
    split_ifs at hk
    · -- Nothing names the inode yet.
      obtain rfl := Option.some.inj hk
      have hmem : j ∈ w.aliases i := by
        refine h.tree.mem_aliases.2 ⟨?_, hjl⟩
        rw [h.tree.nodePath hq]
        exact h.tree.alias_registered hq hjl
      rw [h.tree.count hp, Finset.card_eq_zero] at hx
      rw [hx] at hmem
      cases hmem
    · exact h.links.aliasIn hk hq hjl

end Writer

end Erofs
