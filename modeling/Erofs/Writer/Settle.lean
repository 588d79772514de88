import Erofs.Writer.CopyStep
import Erofs.Writer.Create

/-!
# What keeps a Writer well formed

The tree operations of `mkfs.go` on a well-formed Writer: attaching an entry, dropping a name,
removing a subtree, overwriting in place, and the directories `ensureParent` creates.  Each is
followed by a well-formed Writer if what it puts at a path leaves no child behind there.

The main results:

* `WellFormed.ensureParent` — the parents of a path are there afterwards, and nothing else is new;
* `Tidy.placeItem`, `Tidy.addAlias`, `Tidy.applyMarker` — the steps of a copy.
-/

namespace Erofs

open GoPath PathTree

namespace Writer

variable {w w' : Writer} {g g' : Path → Option EntryId}

/-! ## The invariant and the tree -/

/-- Every child of the entry is removed. -/
def Bare (w : Writer) (i : EntryId) : Prop := ∀ c ∈ (w.ent i).children, (w.ent c).removed = true

theorem WellFormed.covered (h : WellFormed w) : Covered w w.byPath ∅ where
  stale hq hg := by
    rw [hq] at hg
    cases hg
  kids hp hd _ := h.files hp hd
  aliasKids hp hl _ := h.aliases hp hl

/-- A tree that covers every registered name is the Writer's. -/
theorem WellFormed.of_tree (ht : Tree w g) (hc : Covered w g ∅) (hs : w.Settled g []) :
    WellFormed w ∧ w.byPath = g := by
  have hb : w.byPath = g := funext fun p => ht.byPath_eq hs fun hg => by
    cases hp : w.byPath p with
    | none => rfl
    | some i =>
      obtain ⟨r, hr, -⟩ := hc.stale hp hg
      cases hr
  subst hb
  exact ⟨⟨ht, fun hp hd => hc.kids hp hd (Set.notMem_empty _),
    fun hp hl => hc.aliasKids hp hl (Set.notMem_empty _)⟩, rfl⟩

theorem WellFormed.live (h : WellFormed w) {p : Path} {i : EntryId} (hp : w.byPath p = some i) :
    (w.ent i).removed = false := h.tree.regLive hp

/-- A registered name below a path is below a registered child of it. -/
theorem WellFormed.child_above (h : WellFormed w) {p q : Path} {j : EntryId} (hb : Below p q)
    (hq : w.byPath q = some j) : ∃ i n c, w.byPath p = some i ∧ w.byPath (p ++ [n]) = some c ∧
      c ∈ (w.ent i).children := by
  obtain ⟨n, r, rfl⟩ := below_iff.1 hb
  obtain ⟨c, hc⟩ : ∃ c, w.byPath (p ++ [n]) = some c := by
    rcases prefix_or_below (show p ++ [n] <+: p ++ n :: r from ⟨r, by simp⟩) with e | hb'
    · exact ⟨j, e ▸ hq⟩
    · obtain ⟨c, hc, -⟩ := h.tree.closed.above hq hb'
      exact ⟨c, hc⟩
  obtain ⟨i, hi, -, hmem, -⟩ := h.tree.parentOf hc (by simp)
  rw [List.dropLast_concat] at hi
  exact ⟨i, n, c, hi, hc, hmem⟩

/-- Nothing is registered below an entry without children. -/
theorem WellFormed.nothing_below (h : WellFormed w) {p q : Path} {i : EntryId}
    (hp : w.byPath p = some i) (hbare : w.Bare i) (hb : Below p q) : w.byPath q = none := by
  cases hq : w.byPath q with
  | none => rfl
  | some j =>
    obtain ⟨i', n, c, hi', hc, hmem⟩ := h.child_above hb hq
    rw [hp] at hi'
    obtain rfl := Option.some.inj hi'
    have hrem := hbare c hmem
    rw [h.live hc] at hrem
    cases hrem

/-! ## Attaching -/

theorem WellFormed.attach (h : WellFormed w) {e : FsEntry} (he : Fresh e) {d : EntryId}
    (s : Attaches w w' e d) (hdir : (w.ent d).isDir = true)
    (ht : Tree w' (Function.update w.byPath e.path (some w.next)))
    (hal : ∀ t, e.linkTo = some t → t < w.next ∧ (w.ent t).isDir = false ∧ w.Bare t) :
    WellFormed w' := by
  refine (WellFormed.of_tree ht (h.covered.attach h.tree he s hdir fun t hl => ?_) ?_).1
  · obtain ⟨hlt, htd, hbare⟩ := hal t hl
    exact ⟨hlt, htd, fun _ => hbare⟩
  · intro q i _ hq
    rw [Function.update_apply] at hq
    split_ifs at hq with hqe
    · obtain rfl := Option.some.inj hq
      exact s.newRemoved he
    · have := h.tree.nodeLt hq
      rw [s.removed (by lia)]
      exact h.live hq

/-- `addChild` of an entry whose directory is registered and whose name is free. -/
theorem WellFormed.addChild (h : WellFormed w) {e : FsEntry} (he : Fresh e) {q : Path} {n : Bytes}
    {d : EntryId} (hpath : e.path = q ++ [n]) (hname : IsName n) (hq : w.byPath q = some d)
    (hdir : (w.ent d).isDir = true) (hfree : w.byPath e.path = none) (hl : e.linkTo = none) :
    WellFormed (w.addChild e) ∧ Attaches w (w.addChild e) e d := by
  obtain ⟨ht, s⟩ := h.tree.addChild he hpath hname hq hdir (h.live hq) hfree hfree hl
  refine ⟨h.attach he s hdir ht fun t hlt => ?_, s⟩
  rw [hl] at hlt
  cases hlt

/-- Another name for an inode. -/
theorem WellFormed.addAliasChild (h : WellFormed w) {q : Path} {n : Bytes} {d t : EntryId}
    (hname : IsName n) (hq : w.byPath q = some d) (hdir : (w.ent d).isDir = true)
    (hfree : w.byPath (q ++ [n]) = none) (htn : t < w.next) (htl : (w.ent t).linkTo = none)
    (htd : (w.ent t).isDir = false) (hbare : w.Bare t) :
    let e : FsEntry := { path := q ++ [n], mode := (w.ent t).mode, linkTo := some t }
    let w' := (w.addChild e).modify t fun x => { x with extraLinks := x.extraLinks + 1 }
    WellFormed w' ∧ Attaches w w' e d := by
  obtain ⟨ht, s⟩ := h.tree.addAliasChild hname hq hdir (h.live hq) hfree hfree htn htl htd
  refine ⟨h.attach ⟨rfl, rfl, rfl⟩ s hdir ht fun t' ht' => ?_, s⟩
  obtain rfl := Option.some.inj ht'
  exact ⟨htn, htd, hbare⟩

/-! ## Removing -/

/-- A run of removals leaves a well-formed Writer with what is left of the tree. -/
theorem RemovesTo.wellFormed (r : RemovesTo w w.byPath w' g') (h : WellFormed w)
    (hsub : ∀ {q i}, g' q = some i → w.byPath q = some i) : WellFormed w' ∧ w'.byPath = g' :=
  WellFormed.of_tree (r.run.tree h.tree) (r.run.covered h.covered) (r.settled h.settled hsub)

theorem WellFormed.removesTree (h : WellFormed w) {p : Path} (hne : p ≠ []) :
    RemovesTo w w.byPath (w.removeTree p) (prune w.byPath p) :=
  h.tree.removeTree h.settled hne fun hg => hg

/-- There is nothing to remove below an entry without children. -/
theorem removeSubtree_bare {e : EntryId} (h : w.Bare e) (fuel : ℕ) :
    removeSubtree fuel w e = w := by
  cases fuel with
  | zero => rfl
  | succ fuel =>
    have hloop : ∀ l : List EntryId, (∀ c ∈ l, (w.ent c).removed = true) →
        l.foldl (fun w c => if (w.ent c).removed then w
          else removeEntry (removeSubtree fuel) w c) w = w := by
      intro l hl
      induction l with
      | nil => rfl
      | cons c l ih =>
        rw [List.foldl_cons, if_pos (hl c List.mem_cons_self)]
        exact ih fun x hx => hl x (List.mem_cons_of_mem _ hx)
    exact hloop _ h

/-- What is below a path goes; below a file there is nothing. -/
theorem WellFormed.removesChildren (h : WellFormed w) (p : Path) :
    RemovesTo w w.byPath (w.removeChildren p) (cut w.byPath p) := by
  by_cases hdir : ∀ d, w.byPath p = some d → (w.ent d).isDir = true
  · exact h.tree.removeChildren h.settled (fun hg => hg) hdir
  push Not at hdir
  obtain ⟨d, hd, hfile⟩ := hdir
  have hbare : w.Bare d := h.files hd (by simpa using hfile)
  have hsame : w.removeChildren p = w := by
    unfold Writer.removeChildren
    rw [hd]
    exact removeSubtree_bare hbare _
  have hcut : cut w.byPath p = w.byPath := h.tree.closed.cut_eq_self fun i hi => by
    rw [hd] at hi
    rwa [← Option.some.inj hi]
  rw [hsame, hcut]
  exact ⟨.refl, fun _ => rfl⟩

/-- Dropping the name of an entry that is no directory, or of an empty one. -/
theorem WellFormed.unlinkEntry (h : WellFormed w) {p : Path} {e : EntryId}
    (hp : w.byPath p = some e) (hne : p ≠ []) (hbare : (w.ent e).isDir = true → w.Bare e) :
    WellFormed (w.unlinkEntry e) ∧
      (w.unlinkEntry e).byPath = Function.update w.byPath p none ∧
      DropsName w (w.unlinkEntry e) e := by
  have hlive := h.live hp
  obtain ⟨ht, s⟩ := h.tree.unlinkEntry hp hne hlive
  have hbelow : ∀ q, Below p q → w.byPath q = none := fun q hb => by
    cases hd : (w.ent e).isDir with
    | true => exact h.nothing_below hp (hbare hd) hb
    | false => exact h.nothing_below hp (h.files hp hd) hb
  have r := h.tree.removeEntry (fun v _ => v) hp hne hlive (h.settled.mono List.nil_prefix)
    fun _ {v} hv _ _ => by
      have hcut : cut w.byPath p = w.byPath := by
        funext q
        unfold cut
        split_ifs with hb
        · exact (hbelow q hb).symm
        · rfl
      rw [hcut]
      exact ⟨.refl, fun _ => rfl⟩
  have hsame : removeEntry (fun v _ => v) w e = w.unlinkEntry e := by
    unfold removeEntry
    split_ifs <;> rfl
  rw [hsame, ← update_none_eq_prune hbelow] at r
  obtain ⟨hwf, hb⟩ := r.wellFormed h fun {q i} hq => by
    rw [Function.update_apply] at hq
    split_ifs at hq
    exact hq
  exact ⟨hwf, hb, s⟩

/-! ## Overwriting -/

section Overwrite

variable {fe : FsEntry} {p : Path} {e : EntryId}

/-- Overwriting in place what has no other names.  A directory stays over a directory; anything
else must find no child there. -/
theorem WellFormed.overwrite (h : WellFormed w) (he : Fresh fe) (hp : w.byPath p = some e)
    (hne : p ≠ []) (hle : (w.ent e).linkTo = none) (hx : (w.ent e).extraLinks = 0)
    (hpath : fe.path = p) (hl : fe.linkTo = none) (hbare : fe.isDir = false → w.Bare e) :
    WellFormed (w.overwrite e fe) ∧ (w.overwrite e fe).byPath = w.byPath := by
  have hlive := h.live hp
  have ht := h.tree.overwrite he hp hne hlive hle hx hpath hl fun _ hd => h.files hp hd
  have hplaced : placed fe.isDir w.byPath p e = w.byPath := by
    funext q
    cases hq : w.byPath q with
    | none =>
      cases hpl : placed fe.isDir w.byPath p e q with
      | none => rfl
      | some i => exact absurd ((placed_some hp).1 hpl).1 (by simp [hq])
    | some i =>
      refine (placed_some hp).2 ⟨hq, fun hd hb => ?_⟩
      rw [h.nothing_below hp (hbare hd) hb] at hq
      cases hq
  rw [hplaced] at ht
  have hrem := overwrite_removed he hlive
  refine ⟨⟨ht, fun {q i} hq hd c hcc => ?_, fun {q i t} hq hlt c hcc => ?_⟩, rfl⟩
  · rw [overwrite_kids] at hcc
    rw [hrem]
    rw [overwrite_isDir] at hd
    split_ifs at hd with hie
    · exact hbare hd c (hie ▸ hcc)
    · exact h.files hq hd c hcc
  · rw [overwrite_kids] at hcc
    rw [overwrite_link hl hle] at hlt
    rw [hrem]
    exact h.aliases hq hlt c hcc

end Overwrite

/-! ## Missing directories -/

/-- `w'` has the entries of `w` where they were, and possibly more below its directories. -/
structure Extends (w w' : Writer) : Prop where
  next : w.next ≤ w'.next
  root : w'.root = w.root
  copyLinks : w'.copyLinks = w.copyLinks
  byPath : ∀ {q i}, w.byPath q = some i → w'.byPath q = some i
  path : ∀ {i}, i < w.next → (w'.ent i).path = (w.ent i).path
  mode : ∀ {i}, i < w.next → (w'.ent i).mode = (w.ent i).mode
  linkTo : ∀ {i}, i < w.next → (w'.ent i).linkTo = (w.ent i).linkTo
  removed : ∀ {i}, i < w.next → (w'.ent i).removed = (w.ent i).removed
  kids : ∀ {i}, i < w.next → (w.ent i).isDir = false → (w'.ent i).children = (w.ent i).children

namespace Extends

theorem refl (w : Writer) : Extends w w :=
  ⟨le_rfl, rfl, rfl, fun h => h, fun _ => rfl, fun _ => rfl, fun _ => rfl, fun _ => rfl,
    fun _ _ => rfl⟩

theorem isDir (s : Extends w w') {i : EntryId} (hi : i < w.next) :
    (w'.ent i).isDir = (w.ent i).isDir := by
  simp only [FsEntry.isDir, s.mode hi]

theorem trans {w'' : Writer} (s : Extends w w') (s' : Extends w' w'') : Extends w w'' where
  next := s.next.trans s'.next
  root := s'.root.trans s.root
  copyLinks := s'.copyLinks.trans s.copyLinks
  byPath hq := s'.byPath (s.byPath hq)
  path hi := (s'.path (hi.trans_le s.next)).trans (s.path hi)
  mode hi := (s'.mode (hi.trans_le s.next)).trans (s.mode hi)
  linkTo hi := (s'.linkTo (hi.trans_le s.next)).trans (s.linkTo hi)
  removed hi := (s'.removed (hi.trans_le s.next)).trans (s.removed hi)
  kids hi hd := (s'.kids (hi.trans_le s.next) ((s.isDir hi).trans hd)).trans (s.kids hi hd)

theorem bare (s : Extends w w') (h : WellFormed w) {i : EntryId} (hi : i < w.next)
    (hd : (w.ent i).isDir = false) (hb : w.Bare i) : w'.Bare i := by
  intro c hc
  rw [s.kids hi hd] at hc
  rw [s.removed (h.tree.kidsLt i c hc)]
  exact hb c hc

end Extends

theorem Attaches.extends {e : FsEntry} {d : EntryId} (s : Attaches w w' e d)
    (hdir : (w.ent d).isDir = true) (hfree : w.byPath e.path = none) : Extends w w' where
  next := by rw [s.next]; lia
  root := s.root
  copyLinks := s.copyLinks
  byPath {q i} hq := by
    rw [s.byPath, Function.update_of_ne, hq]
    rintro rfl
    rw [hfree] at hq
    cases hq
  path hi := s.path (by lia)
  mode hi := s.mode (by lia)
  linkTo hi := s.link (by lia)
  removed hi := s.removed (by lia)
  kids {i} hi hd := by
    rw [s.kids (by lia), if_neg]
    rintro rfl
    rw [hdir] at hd
    cases hd

/-- A registered name stands for a directory only if it is one. -/
theorem WellFormed.isDir_resolve (h : WellFormed w) {p : Path} {e : EntryId}
    (hp : w.byPath p = some e) : (w.ent (w.resolve e)).isDir = (w.ent e).isDir := by
  unfold resolve
  cases hl : (w.ent e).linkTo with
  | none => rfl
  | some t =>
    have htyp := (h.tree.aliasOf hp hl).2.2.2
    simp only [Option.getD_some, FsEntry.isDir, htyp]

theorem isDir_implicitDir (p : Path) : (implicitDir p).isDir = true := by
  have hmode : ((Mode.dir ||| 0o755#16).typ == Mode.dir) = true := by decide
  exact hmode

/-- The missing directories above a path, created from the top down. -/
theorem WellFormed.makeDirs (h : WellFormed w) {fuel : ℕ} {d : Path} {missing : List Path}
    (hd : Canonical d) (hfuel : d.length ≤ fuel) (hm : w.missingParents fuel d = .ok missing) :
    let w' := missing.reverse.foldl (fun w d => w.addChild (implicitDir d)) w
    WellFormed w' ∧ Extends w w' ∧ (∃ i, w'.byPath d = some i ∧ (w'.ent i).isDir = true) ∧
      ∀ q, ¬ q <+: d → w'.byPath q = w.byPath q := by
  induction fuel generalizing d missing with
  | zero =>
    obtain rfl := List.length_eq_zero_iff.1 (Nat.le_zero.1 hfuel)
    obtain rfl := Except.ok.inj hm
    exact ⟨h, .refl w, ⟨w.root, h.tree.rootAt, h.tree.rootDir⟩, fun _ _ => rfl⟩
  | succ fuel ih =>
    rw [missingParents] at hm
    by_cases hroot : d = []
    · rw [if_pos hroot] at hm
      obtain rfl := Except.ok.inj hm
      subst hroot
      exact ⟨h, .refl w, ⟨w.root, h.tree.rootAt, h.tree.rootDir⟩, fun _ _ => rfl⟩
    rw [if_neg hroot] at hm
    cases hreg : w.byPath d with
    | some e =>
      rw [hreg] at hm
      dsimp only at hm
      split_ifs at hm with hdir
      obtain rfl := Except.ok.inj hm
      rw [h.isDir_resolve hreg] at hdir
      exact ⟨h, .refl w, ⟨e, hreg, hdir⟩, fun _ _ => rfl⟩
    | none =>
      rw [hreg, dir_of_canonical hd] at hm
      cases hup : w.missingParents fuel d.dropLast with
      | error err =>
        rw [hup] at hm
        cases hm
      | ok above =>
        rw [hup] at hm
        obtain rfl := Except.ok.inj hm
        have hlen : d.dropLast.length ≤ fuel := by
          rw [List.length_dropLast]
          omega
        obtain ⟨h₁, s₁, ⟨i, hi, hidir⟩, hother⟩ := ih hd.dropLast hlen hup
        have hsplit : d.dropLast ++ [d.getLast hroot] = d := List.dropLast_append_getLast hroot
        have hname : IsName (d.getLast hroot) := hd _ (List.getLast_mem hroot)
        rw [List.reverse_cons, List.foldl_append, List.foldl_cons, List.foldl_nil]
        generalize above.reverse.foldl (fun w d => w.addChild (implicitDir d)) w = w₁ at *
        have hfree : w₁.byPath d = none := by
          rw [hother d fun hpre => (below_dropLast hroot).not_above hpre]
          exact hreg
        obtain ⟨h₂, s₂⟩ := @WellFormed.addChild w₁ h₁ (implicitDir d) ⟨rfl, rfl, rfl⟩ d.dropLast
          (d.getLast hroot) i hsplit.symm hname hi hidir hfree rfl
        refine ⟨h₂, s₁.trans (s₂.extends hidir hfree), ⟨w₁.next, ?_, ?_⟩, fun q hq => ?_⟩
        · rw [s₂.byPath]
          exact Function.update_self _ _ _
        · rw [s₂.new]
          exact isDir_implicitDir d
        · rw [s₂.byPath, Function.update_of_ne]
          · exact hother q fun hpre => hq (hpre.trans (List.dropLast_prefix d))
          · rintro rfl
            exact hq List.prefix_rfl

/-- `ensureParent`: the directory of the path is there afterwards, every entry is where it was, and
only names above the path are new. -/
theorem WellFormed.ensureParent (h : WellFormed w) {p : Path} (hp : Canonical p)
    (hok : w.ensureParent p = .ok w') :
    WellFormed w' ∧ Extends w w' ∧ (∃ i, w'.byPath p.dropLast = some i ∧ (w'.ent i).isDir = true) ∧
      ∀ q, ¬ q <+: p.dropLast → w'.byPath q = w.byPath q := by
  unfold Writer.ensureParent at hok
  rw [dir_of_canonical hp] at hok
  cases hm : w.missingParents p.length p.dropLast with
  | error e =>
    rw [hm] at hok
    cases hok
  | ok missing =>
    rw [hm] at hok
    obtain rfl := Except.ok.inj hok
    exact h.makeDirs hp.dropLast (by rw [List.length_dropLast]; omega) hm

/-! ## The steps of a copy -/

/-- The inodes `copyLinks` holds are no aliases and no directories, and have no children left. -/
def LinksBare (w : Writer) : Prop := ∀ k t, w.copyLinks k = some t →
  t < w.next ∧ (w.ent t).linkTo = none ∧ (w.ent t).isDir = false ∧ w.Bare t

theorem LinksBare.extends (hl : LinksBare w) (h : WellFormed w) (s : Extends w w') :
    LinksBare w' := by
  intro k t hk
  rw [s.copyLinks] at hk
  obtain ⟨hlt, htl, htd, hbare⟩ := hl k t hk
  exact ⟨hlt.trans_le s.next, (s.linkTo hlt).trans htl, (s.isDir hlt).trans htd,
    s.bare h hlt htd hbare⟩

theorem Tree.unlinkEntry_removed (h : Tree w g) {p : Path} {e c : EntryId} (hp : g p = some e)
    (hne : p ≠ []) (hlive : (w.ent e).removed = false) (hc : (w.ent c).removed = true) :
    ((w.unlinkEntry e).ent c).removed = true := by
  rw [(h.unlinkEntry hp hne hlive).2.removed]
  split_ifs
  · rfl
  · exact hc

/-- An inode without children has none after another name is unlinked. -/
theorem Tree.unlinkEntry_bare (h : Tree w g) {p : Path} {e t : EntryId} (hp : g p = some e)
    (hne : p ≠ []) (hlive : (w.ent e).removed = false) (htl : (w.ent t).linkTo = none)
    (hbare : w.Bare t) : (w.unlinkEntry e).Bare t := by
  intro c hc
  rcases h.unlinkEntry_kids hp hne t with hsame | hnil | ⟨hlink, -⟩
  · exact h.unlinkEntry_removed hp hne hlive (hbare c (hsame ▸ hc))
  · rw [hnil] at hc
    cases hc
  · rw [htl] at hlink
    cases hlink

theorem LinksBare.unlinkEntry (hl : LinksBare w) (h : Tree w g) (hc : Covered w g ∅) {p : Path}
    {e : EntryId} (hp : g p = some e) (hne : p ≠ []) (hlive : (w.ent e).removed = false) :
    LinksBare (w.unlinkEntry e) := by
  have s := (h.unlinkEntry hp hne hlive).2.shape
  intro k t hk
  rw [s.next, s.isDir]
  rcases h.unlinkEntry_copyLinks hp hne hk with hk | ⟨-, hlink, hnone, htd, q, hq⟩
  · obtain ⟨hlt, htl, htd, hbare⟩ := hl k t hk
    exact ⟨hlt, h.unlinkEntry_link_none hp hne htl, htd,
      h.unlinkEntry_bare hp hne hlive htl hbare⟩
  · -- The heir was a name of the unlinked inode, which has no children either.
    refine ⟨h.nodeLt hq, hnone, htd, fun c hcc => ?_⟩
    rcases h.unlinkEntry_kids hp hne t with hsame | hnil | ⟨-, hsame⟩
    · exact h.unlinkEntry_removed hp hne hlive
        (hc.kids hq htd (Set.notMem_empty _) c (hsame ▸ hcc))
    · rw [hnil] at hcc
      cases hcc
    · exact h.unlinkEntry_removed hp hne hlive
        (hc.aliasKids hq hlink (Set.notMem_empty _) c (hsame ▸ hcc))

theorem Removes.linksBare (r : Removes w g w' g') (hl : LinksBare w) (hc : Covered w g ∅) :
    LinksBare w' := by
  induction r with
  | refl => exact hl
  | unlink ht hp hne hlive _ ih =>
    exact ih (hl.unlinkEntry ht hc hp hne hlive) (hc.unlinkEntry ht hp hne hlive)
  | drop ht hp hrem hb r ih =>
    refine ih hl ?_
    exact (Removes.drop ht hp hrem hb .refl).covered hc

/-- A Writer between two entries of a copy. -/
structure Tidy (w : Writer) : Prop where
  wellFormed : WellFormed w
  links : LinksBare w

theorem Tidy.removes (h : Tidy w) (r : RemovesTo w w.byPath w' g')
    (hsub : ∀ {q i}, g' q = some i → w.byPath q = some i) : Tidy w' ∧ w'.byPath = g' := by
  obtain ⟨hwf, hb⟩ := r.wellFormed h.wellFormed hsub
  exact ⟨⟨hwf, r.run.linksBare h.links h.wellFormed.covered⟩, hb⟩

theorem Tidy.extends (h : Tidy w) (hw : WellFormed w') (s : Extends w w') : Tidy w' :=
  ⟨hw, h.links.extends h.wellFormed s⟩

/-- Data and metadata do not matter. -/
theorem Tidy.sameCopy (h : Tidy w) (s : SameCopy w w') : Tidy w' := by
  refine ⟨s.toSameTree.wellFormed h.wellFormed, fun k t hk => ?_⟩
  rw [s.copyLinks] at hk
  obtain ⟨hlt, htl, htd, hbare⟩ := h.links k t hk
  refine ⟨s.next ▸ hlt, (s.node t).linkTo.trans htl, (s.node t).isDir.trans htd, fun c hc => ?_⟩
  rw [(s.node t).children] at hc
  rw [(s.node c).removed]
  exact hbare c hc

theorem Tidy.unlinkFile (h : Tidy w) {p : Path} {e : EntryId} (hp : w.byPath p = some e)
    (hne : p ≠ []) (hd : (w.ent e).isDir = false) :
    Tidy (w.unlinkEntry e) ∧ (w.unlinkEntry e).byPath = Function.update w.byPath p none ∧
      DropsName w (w.unlinkEntry e) e := by
  obtain ⟨hwf, hb, s⟩ := h.wellFormed.unlinkEntry hp hne fun hd' => by
    rw [hd] at hd'
    cases hd'
  exact ⟨⟨hwf, h.links.unlinkEntry h.wellFormed.tree h.wellFormed.covered hp hne
    (h.wellFormed.live hp)⟩, hb, s⟩

/-- What may be put at the path `p`: the root stays a directory, something other than a directory
finds no child there, and a directory does not replace a file of this copy. -/
structure EntryFits (w : Writer) (p : Path) (isDir : Bool) : Prop where
  canonical : Canonical p
  root : p = [] → isDir = true
  bare : isDir = false → ∀ e, w.byPath p = some e → w.Bare e
  unshared : isDir = true → ∀ e k, w.byPath p = some e → w.copyLinks k ≠ some e

/-- What may be attached at the path `p`, whose directory is there. -/
structure Fits (w : Writer) (p : Path) (isDir : Bool) : Prop extends EntryFits w p isDir where
  nonroot : p ≠ []
  parent : ∃ d, w.byPath p.dropLast = some d ∧ (w.ent d).isDir = true

theorem Fits.split {p : Path} {b : Bool} (h : Fits w p b) : ∃ n, p = p.dropLast ++ [n] ∧ IsName n :=
  ⟨p.getLast h.nonroot, (List.dropLast_append_getLast h.nonroot).symm,
    h.canonical _ (List.getLast_mem h.nonroot)⟩

theorem WellFormed.linked_file (h : WellFormed w) {p : Path} {e : EntryId}
    (hp : w.byPath p = some e)
    (hlinked : (w.ent e).linkTo.isSome = true ∨ (w.ent e).extraLinks > 0) :
    (w.ent e).isDir = false := by
  by_contra hd
  obtain ⟨h1, h2⟩ := h.tree.dirPlain hp (by simpa using hd)
  rcases hlinked with hx | hx
  · simp [h1] at hx
  · omega

/-- What `placeEntry` leaves: the entry `fe` lives at `i`, registered at its path. -/
structure Placed (w : Writer) (fe : FsEntry) (w' : Writer) (i : EntryId) : Prop where
  tidy : Tidy w'
  byPath : w'.byPath = Function.update w.byPath fe.path (some i)
  entry : w'.ent i = { fe with parent := (w'.ent i).parent, children := (w'.ent i).children }
  bare : fe.isDir = false → w'.Bare i
  lt : i < w'.next

section Place

variable {fe : FsEntry} {q : Path} {n : Bytes} {d e : EntryId}

/-- A new entry where there is none. -/
theorem Tidy.addChild (h : Tidy w) (he : Fresh fe) (hl : fe.linkTo = none)
    (hpath : fe.path = q ++ [n]) (hname : IsName n) (hq : w.byPath q = some d)
    (hdir : (w.ent d).isDir = true) (hfree : w.byPath fe.path = none) :
    Placed w fe (w.addChild fe) w.next := by
  obtain ⟨hwf, s⟩ := h.wellFormed.addChild he hpath hname hq hdir hfree hl
  refine ⟨h.extends hwf (s.extends hdir hfree), s.byPath, by rw [s.new], fun _ c hc => ?_,
    by rw [s.next]; lia⟩
  rw [s.newKids he] at hc
  cases hc

theorem Tidy.overwrite (h : Tidy w) (he : Fresh fe) (hl : fe.linkTo = none)
    (hp : w.byPath fe.path = some e) (hne : fe.path ≠ []) (hle : (w.ent e).linkTo = none)
    (hx : (w.ent e).extraLinks = 0) (hbare : fe.isDir = false → w.Bare e)
    (hshare : fe.isDir = true → ∀ k, w.copyLinks k ≠ some e) :
    Placed w fe (w.overwrite e fe) e := by
  obtain ⟨hwf, hb⟩ := h.wellFormed.overwrite he hp hne hle hx rfl hl hbare
  have hrem := overwrite_removed he (h.wellFormed.live hp)
  have hkept : ∀ {i}, w.Bare i → (w.overwrite e fe).Bare i := by
    intro i hi c hc
    rw [overwrite_kids] at hc
    rw [hrem]
    exact hi c hc
  refine ⟨⟨hwf, fun k t hk => ?_⟩, ?_, ?_, fun hd => hkept (hbare hd), h.wellFormed.tree.nodeLt hp⟩
  · obtain ⟨hlt, htl, htd, htb⟩ := h.links k t hk
    refine ⟨hlt, by rw [overwrite_link hl hle, htl], ?_, hkept htb⟩
    rw [overwrite_isDir]
    split_ifs with hte
    · cases hd : fe.isDir with
      | false => rfl
      | true => exact absurd (hte ▸ hk) (hshare hd k)
    · exact htd
  · rw [hb, ← hp, Function.update_eq_self]
  · rw [overwrite_ent, if_pos rfl]

/-- `placeEntry` of an entry that fits. -/
theorem Tidy.placeEntry (h : Tidy w) (he : Fresh fe) (hl : fe.linkTo = none)
    (hfit : Fits w fe.path fe.isDir) : Placed w fe (w.placeEntry fe).1 (w.placeEntry fe).2 := by
  obtain ⟨d, hd, hdir⟩ := hfit.parent
  obtain ⟨n, hpath, hname⟩ := hfit.split
  unfold Writer.placeEntry
  cases hp : w.byPath fe.path with
  | none => exact h.addChild he hl hpath hname hd hdir hp
  | some e =>
    by_cases hlinked : (w.ent e).linkTo.isSome = true ∨ (w.ent e).extraLinks > 0
    · -- one name of a hardlink group: it is dropped first
      simp only [if_pos hlinked]
      obtain ⟨h₁, hb₁, s₁⟩ := h.unlinkFile hp hfit.nonroot (h.wellFormed.linked_file hp hlinked)
      have hne : fe.path.dropLast ≠ fe.path := (below_dropLast hfit.nonroot).2
      have hplaced := h₁.addChild he hl hpath hname
        (by rw [hb₁, Function.update_of_ne hne, hd]) (by rw [s₁.shape.isDir, hdir])
        (by rw [hb₁, Function.update_self])
      refine ⟨hplaced.tidy, ?_, hplaced.entry, hplaced.bare, hplaced.lt⟩
      rw [hplaced.byPath, hb₁, Function.update_idem]
    · simp only [if_neg hlinked]
      push Not at hlinked
      exact h.overwrite he hl hp hfit.nonroot (by simpa using hlinked.1) (by omega)
        (fun hfile => hfit.bare hfile e hp) fun hdir k => hfit.unshared hdir e k hp

/-- `placeEntry` with the inode remembered, of an entry that fits. -/
theorem Tidy.placeItem (h : Tidy w) (he : Fresh fe) (hl : fe.linkTo = none)
    (hfit : Fits w fe.path fe.isDir) {share : Bool} (hshare : share = true → fe.isDir = false)
    (k : HardlinkKey) :
    Placed w fe (w.placeItem fe share k).1 (w.placeItem fe share k).2 := by
  have hplaced := h.placeEntry he hl hfit
  unfold Writer.placeItem
  dsimp only
  cases share with
  | false => exact hplaced
  | true =>
    rw [if_pos rfl]
    have s : SameTree (w.placeEntry fe).1 { (w.placeEntry fe).1 with
        copyLinks := Function.update (w.placeEntry fe).1.copyLinks k (some (w.placeEntry fe).2) } :=
      ⟨rfl, rfl, rfl, fun _ => .refl _⟩
    refine ⟨⟨s.wellFormed hplaced.tidy.wellFormed, fun k' t hk => ?_⟩, hplaced.byPath,
      hplaced.entry, hplaced.bare, hplaced.lt⟩
    dsimp only at hk
    rw [Function.update_apply] at hk
    split_ifs at hk with hkk
    · obtain rfl := Option.some.inj hk
      refine ⟨hplaced.lt, ?_, ?_, hplaced.bare (hshare rfl)⟩
      · dsimp only
        rw [hplaced.entry]
        exact hl
      · dsimp only
        rw [hplaced.entry]
        exact hshare rfl
    · exact hplaced.tidy.links k' t hk

/-- `addAlias` of an inode the copy has placed, where the path may hold a file. -/
theorem Tidy.addAlias (h : Tidy w) {p : Path} {t : EntryId} {k : HardlinkKey}
    (hfit : Fits w p false) (hk : w.copyLinks k = some t) (hok : w.addAlias p t = .ok w') :
    Tidy w' ∧ ∃ i, w'.byPath = Function.update w.byPath p (some i) ∧ (w'.ent i).isDir = false := by
  obtain ⟨d, hd, hdir⟩ := hfit.parent
  obtain ⟨n, hpath, hname⟩ := hfit.split
  obtain ⟨htn, htl, htd, htb⟩ := h.links k t hk
  have hres : w.resolve t = t := by
    rw [resolve, htl]
    rfl
  unfold Writer.addAlias at hok
  simp only [hres] at hok
  cases hp : w.byPath p with
  | none =>
    rw [hp] at hok
    obtain rfl := Except.ok.inj hok
    rw [hpath] at hp ⊢
    obtain ⟨hwf, s⟩ := h.wellFormed.addAliasChild hname hd hdir hp htn htl htd htb
    exact ⟨h.extends hwf (s.extends hdir hp), w.next, s.byPath, by rw [s.new]; exact htd⟩
  | some e =>
    rw [hp] at hok
    dsimp only at hok
    split_ifs at hok with het hed
    · obtain rfl := Except.ok.inj hok
      exact ⟨h, e, by rw [← hp, Function.update_eq_self], het ▸ htd⟩
    · obtain rfl := Except.ok.inj hok
      have hlive := h.wellFormed.live hp
      obtain ⟨h₁, hb₁, s₁⟩ := h.unlinkFile hp hfit.nonroot (by simpa using hed)
      have hne : p.dropLast ≠ p := (below_dropLast hfit.nonroot).2
      have hd₁ : (w.unlinkEntry e).byPath p.dropLast = some d := by
        rw [hb₁, Function.update_of_ne hne, hd]
      have hp₁ : (w.unlinkEntry e).byPath (p.dropLast ++ [n]) = none := by
        rw [← hpath, hb₁, Function.update_self]
      obtain ⟨hwf, s⟩ := h₁.wellFormed.addAliasChild hname hd₁ (by rw [s₁.shape.isDir, hdir]) hp₁
        (by rw [s₁.shape.next]; exact htn)
        (h.wellFormed.tree.unlinkEntry_link_none hp hfit.nonroot htl) (by rw [s₁.shape.isDir, htd])
        (h.wellFormed.tree.unlinkEntry_bare hp hfit.nonroot hlive htl htb)
      rw [← hpath] at hwf s
      refine ⟨h₁.extends hwf (s.extends (by rw [s₁.shape.isDir, hdir]) (hpath ▸ hp₁)),
        (w.unlinkEntry e).next, ?_, ?_⟩
      · rw [s.byPath, hb₁, Function.update_idem]
      · rw [s.new]
        exact (s₁.shape.isDir t).trans htd

end Place

/-- A marker, whatever its path says, unless it names the root. -/
theorem Tidy.applyMarker (h : Tidy w) {p : Path}
    (hroot : base p ≠ opaqueWhiteout →
      joinElem (dir p) ((base p).drop whiteoutPrefix.length) ≠ []) :
    Tidy (w.applyMarker p) ∧ (w.applyMarker p).byPath =
      if base p = opaqueWhiteout then cut w.byPath (dir p)
      else prune w.byPath (joinElem (dir p) ((base p).drop whiteoutPrefix.length)) := by
  unfold Writer.applyMarker
  split_ifs with hop
  · exact h.removes (h.wellFormed.removesChildren (dir p)) fun hq => (cut_some.1 hq).2
  · exact h.removes (h.wellFormed.removesTree (hroot hop)) fun hq => (prune_some.1 hq).2

end Writer

end Erofs
