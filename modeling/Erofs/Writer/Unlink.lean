import Erofs.Writer.Tree

/-!
# Unlinking one name

`unlinkEntry` with its hardlink bookkeeping: dropping an alias takes one from its target's
count, dropping a target that still has aliases hands the inode to one of them
(`promoteAlias`).  Neither moves anything else in the tree or changes its type.

The main results:

* `Tree.promoteAlias` — the inode's heir is in order;
* `Tree.unlinkEntry` — one name dropped, and `unlinkEntry_kids`, `unlinkEntry_link`: what
  else may have changed on the way.
-/

namespace Erofs

open GoPath PathTree

namespace Writer

/-! ## Same shape -/

/-- `b` is where `a` was, of the same type, and has the same children if it is a directory. -/
structure SamePlace (a b : FsEntry) : Prop where
  path : b.path = a.path
  parent : b.parent = a.parent
  typ : b.mode.typ = a.mode.typ
  kids : a.isDir = true → b.children = a.children

theorem SamePlace.refl (a : FsEntry) : SamePlace a a := ⟨rfl, rfl, rfl, fun _ => rfl⟩

theorem SamePlace.isDir {a b : FsEntry} (s : SamePlace a b) : b.isDir = a.isDir := by
  simp only [FsEntry.isDir, s.typ]

theorem SamePlace.trans {a b c : FsEntry} (s : SamePlace a b) (s' : SamePlace b c) :
    SamePlace a c where
  path := s'.path.trans s.path
  parent := s'.parent.trans s.parent
  typ := s'.typ.trans s.typ
  kids ha := (s'.kids (s.isDir.trans ha)).trans (s.kids ha)

/-- `w'` has the entries of `w` at the same places and of the same types. -/
structure SameShape (w w' : Writer) : Prop where
  next : w'.next = w.next
  root : w'.root = w.root
  place : ∀ i, SamePlace (w.ent i) (w'.ent i)

namespace SameShape

variable {w w' w'' : Writer}

theorem refl (w : Writer) : SameShape w w := ⟨rfl, rfl, fun i => .refl (w.ent i)⟩

theorem isDir (s : SameShape w w') (i : EntryId) : (w'.ent i).isDir = (w.ent i).isDir :=
  (s.place i).isDir

theorem trans (s : SameShape w w') (s' : SameShape w' w'') : SameShape w w'' :=
  ⟨s'.next.trans s.next, s'.root.trans s.root, fun i => (s.place i).trans (s'.place i)⟩

/-- An assignment through one pointer that leaves the entry in its place. -/
theorem modify {i : EntryId} {f : FsEntry → FsEntry} (hf : SamePlace (w.ent i) (f (w.ent i))) :
    SameShape w (w.modify i f) := by
  refine ⟨rfl, rfl, fun j => ?_⟩
  rw [modify_ent]
  split_ifs with hj
  · exact hj ▸ hf
  · exact .refl _

end SameShape

/-- The hardlink part of the invariant. -/
structure LinksOk (w : Writer) (g : Path → Option EntryId) : Prop where
  dirPlain : ∀ {p i}, g p = some i → (w.ent i).isDir = true →
    (w.ent i).linkTo = none ∧ (w.ent i).extraLinks = 0
  count : ∀ {p i}, g p = some i → (w.ent i).extraLinks = (w.aliases i).card
  aliasOf : ∀ {p i t}, w.byPath p = some i → (w.ent i).linkTo = some t →
    t < w.next ∧ (w.ent t).linkTo = none ∧ (w.ent t).isDir = false ∧
      (w.ent t).mode.typ = (w.ent i).mode.typ

/-- A change that keeps the shape, the names and the `removed` flags keeps the invariant,
if the hardlinks are still in order. -/
theorem Tree.transport {w w' : Writer} {g : Path → Option EntryId} (h : Tree w g)
    (s : SameShape w w') (hb : w'.byPath = w.byPath)
    (hr : ∀ i, (w'.ent i).removed = (w.ent i).removed) (hl : LinksOk w' g)
    (hk : ∀ i, ∀ c ∈ (w'.ent i).children, c < w.next) (hn : ∀ i, (w'.ent i).children.Nodup) :
    Tree w' g where
  rootAt := s.root ▸ h.rootAt
  rootDir := by rw [s.root, s.isDir, h.rootDir]
  rootLive := by rw [s.root, hr, h.rootLive]
  nodePath hp := (s.place _).path.trans (h.nodePath hp)
  nodeLt hp := s.next ▸ h.nodeLt hp
  canonical := h.canonical
  parentOf hp hne := by
    obtain ⟨d, hd, hdir, hmem, hpar⟩ := h.parentOf hp hne
    exact ⟨d, hd, by rw [s.isDir, hdir], by rwa [(s.place d).kids hdir],
      by rw [(s.place _).parent, hpar]⟩
  childOf hd hdir hc hlive := by
    rw [s.isDir] at hdir
    rw [(s.place _).kids hdir] at hc
    rw [hr] at hlive
    exact h.childOf hd hdir hc hlive
  live hp hlive := by
    rw [hr] at hlive
    rw [hb, h.live hp hlive]
  pending hp hrem := by
    rw [hr] at hrem
    rw [s.isDir, hb]
    exact h.pending hp hrem
  dirPlain := hl.dirPlain
  count := hl.count
  regPath hp := (s.place _).path.trans (h.regPath (hb ▸ hp))
  regLt hp := s.next ▸ h.regLt (hb ▸ hp)
  regLive hp := (hr _).trans (h.regLive (hb ▸ hp))
  aliasOf := hl.aliasOf
  kidsLt i c hc := s.next ▸ hk i c hc
  kidsNodup := hn

/-! ## `promoteAlias` -/

/-- A loop that assigns through distinct pointers. -/
theorem foldl_modify (f : FsEntry → FsEntry) {l : List EntryId} (hl : l.Nodup) (w : Writer) :
    l.foldl (fun w a => w.modify a f) w =
      { w with ent := fun i => if i ∈ l then f (w.ent i) else w.ent i } := by
  induction l generalizing w with
  | nil => simp
  | cons a l ih =>
    obtain ⟨ha, hl⟩ := List.nodup_cons.1 hl
    rw [List.foldl_cons, ih hl]
    simp only [modify, Writer.mk.injEq, and_self, and_true, Function.update_apply]
    funext i
    by_cases hi : i = a
    · subst hi
      simp [ha]
    · simp [hi]

section Promote

variable {w : Writer} {g : Path → Option EntryId} {t heir : EntryId} {others : List EntryId}

/-- What the image shows of an alias of an entry that is itself out of the tree. -/
theorem Tree.alias_facts (h : Tree w g) {c : EntryId} (hc : c ∈ w.sortedAliases t) :
    ∃ p, p ≠ [] ∧ g p = some c ∧ (w.ent c).removed = false ∧ w.byPath p = some c ∧
      (w.ent c).linkTo = some t ∧ (w.ent c).isDir = false := by
  obtain ⟨⟨n, r, hs⟩, hl⟩ := h.mem_sortedAliases.1 hc
  have hg : g (n :: r) = some c := by simpa using h.reach_of h.rootAt hs
  have hrem := h.reach_live h.rootAt hs
  have hreg := h.live hg hrem
  refine ⟨n :: r, by simp, hg, hrem, hreg, hl, ?_⟩
  obtain ⟨-, -, hdir, htyp⟩ := h.aliasOf hreg hl
  simpa only [FsEntry.isDir, htyp] using hdir

theorem Tree.not_mem_sortedAliases (h : Tree w g) (ht : ∀ p, g p ≠ some t) :
    t ∉ w.sortedAliases t := by
  intro hmem
  obtain ⟨p, -, hg, -⟩ := h.alias_facts hmem
  exact ht p hg

theorem promoteAlias_nil (hs : w.sortedAliases t = []) :
    w.promoteAlias t = w.modify t fun x => { x with extraLinks := 0 } := by
  unfold promoteAlias
  rw [hs]

/-- The heap after an heir has taken over. -/
theorem promoteAlias_ent (hs : w.sortedAliases t = heir :: others) (hn : (heir :: others).Nodup)
    (ht : t ∉ heir :: others) (i : EntryId) :
    (w.promoteAlias t).ent i =
      if i = t then { w.ent t with extraLinks := 0, children := [] }
      else if i = heir then takeover (w.ent t) (w.ent heir) others.length
      else if i ∈ others then { w.ent i with linkTo := some heir }
      else w.ent i := by
  obtain ⟨hh, ho⟩ := List.nodup_cons.1 hn
  obtain ⟨hth, hto⟩ : t ≠ heir ∧ t ∉ others := by simpa using ht
  unfold promoteAlias
  rw [hs]
  simp only [foldl_modify _ ho]
  by_cases hit : i = t
  · subst hit
    simp [modify_ent, hto, hth]
  · by_cases hih : i = heir
    · subst hih
      simp [modify_ent, hit, hh]
    · simp [modify_ent, hit, hih]

theorem foldl_modify_frame (f : FsEntry → FsEntry) (l : List EntryId) (w : Writer) :
    ∃ ent', l.foldl (fun w a => w.modify a f) w = { w with ent := ent' } := by
  induction l generalizing w with
  | nil => exact ⟨w.ent, rfl⟩
  | cons a l ih =>
    obtain ⟨ent', he⟩ := ih (w.modify a f)
    exact ⟨ent', he⟩

theorem promoteAlias_frame (w : Writer) (t : EntryId) :
    (w.promoteAlias t).byPath = w.byPath ∧ (w.promoteAlias t).next = w.next ∧
      (w.promoteAlias t).root = w.root := by
  unfold promoteAlias
  cases hs : w.sortedAliases t with
  | nil => exact ⟨rfl, rfl, rfl⟩
  | cons heir others =>
    obtain ⟨ent', he⟩ := foldl_modify_frame (fun e => { e with linkTo := some heir }) others
      (w.modify heir fun h => takeover (w.ent t) h others.length)
    simp only [he]
    exact ⟨rfl, rfl, rfl⟩

/-- An in-progress copy follows the inode to its heir. -/
theorem promoteAlias_copyLinks (w : Writer) (t : EntryId) (k : HardlinkKey) :
    (w.promoteAlias t).copyLinks k = w.copyLinks k ∨
      (w.copyLinks k = some t ∧ ∃ heir others, w.sortedAliases t = heir :: others ∧
        (w.promoteAlias t).copyLinks k = some heir) := by
  unfold promoteAlias
  cases hs : w.sortedAliases t with
  | nil => exact Or.inl rfl
  | cons heir others =>
    obtain ⟨ent', he⟩ := foldl_modify_frame (fun e => { e with linkTo := some heir }) others
      (w.modify heir fun h => takeover (w.ent t) h others.length)
    simp only [he, modify_copyLinks]
    split_ifs with hk
    · exact Or.inr ⟨hk, heir, others, rfl, rfl⟩
    · exact Or.inl rfl

/-- Handing an inode to an heir keeps the shape of the tree. -/
theorem Tree.promoteAlias_shape (h : Tree w g) (ht : ∀ p, g p ≠ some t)
    (htd : (w.ent t).isDir = false) :
    SameShape w (w.promoteAlias t) ∧
      ∀ i, ((w.promoteAlias t).ent i).removed = (w.ent i).removed := by
  obtain ⟨-, hnext, hroot⟩ := promoteAlias_frame w t
  cases hs : w.sortedAliases t with
  | nil =>
    rw [promoteAlias_nil hs]
    refine ⟨.modify ⟨rfl, rfl, rfl, fun _ => rfl⟩, fun i => ?_⟩
    rw [modify_ent]
    split_ifs with hi
    · rw [hi]
    · rfl
  | cons heir others =>
    have hn : (heir :: others).Nodup := hs ▸ h.nodup_sortedAliases
    have hfacts : ∀ c ∈ heir :: others, _ := fun c hc => h.alias_facts (t := t) (hs ▸ hc)
    have htn : t ∉ heir :: others := hs ▸ h.not_mem_sortedAliases ht
    obtain ⟨ph, -, hgh, hlh, hrh, hlinkh, hdh⟩ := hfacts heir (by simp)
    have htyp := (h.aliasOf hrh hlinkh).2.2.2
    have hent := promoteAlias_ent hs hn htn
    -- The cases are those of the assignment: the husk, the heir, the other aliases, the rest.
    refine ⟨⟨hnext, hroot, fun i => ?_⟩, fun i => ?_⟩
    · rw [hent i]
      split_ifs with h1 h2 h3
      · subst h1
        exact ⟨rfl, rfl, rfl, fun hd => absurd hd (by simp [htd])⟩
      · subst h2
        exact ⟨rfl, rfl, htyp, fun hd => absurd hd (by simp [hdh])⟩
      · exact ⟨rfl, rfl, rfl, fun _ => rfl⟩
      · exact .refl _
    · rw [hent i]
      split_ifs with h1 h2 h3
      · rw [h1]
      · rw [h2, hlh]
        rfl
      · rfl
      · rfl

theorem Tree.promoteAlias_mem_aliases (h : Tree w g) (ht : ∀ p, g p ≠ some t)
    (htd : (w.ent t).isDir = false) {i x : EntryId} :
    i ∈ (w.promoteAlias t).aliases x ↔
      w.byPath (w.ent i).path = some i ∧ ((w.promoteAlias t).ent i).linkTo = some x := by
  obtain ⟨hb, hnext, -⟩ := promoteAlias_frame w t
  obtain ⟨hshape, -⟩ := h.promoteAlias_shape ht htd
  unfold aliases
  rw [Finset.mem_filter, Finset.mem_range, hb, hnext, (hshape.place i).path]
  exact ⟨fun hi => hi.2, fun hi => ⟨h.regLt hi.1, hi⟩⟩

/-- Without an alias only the count of the entry changes, which is out of the tree. -/
theorem Tree.promoteAlias_links_nil (h : Tree w g) (ht : ∀ p, g p ≠ some t)
    (htd : (w.ent t).isDir = false) (hs : w.sortedAliases t = []) :
    LinksOk (w.promoteAlias t) g := by
  obtain ⟨hb, hnext, -⟩ := promoteAlias_frame w t
  obtain ⟨hshape, -⟩ := h.promoteAlias_shape ht htd
  have hlink : ∀ i, ((w.promoteAlias t).ent i).linkTo = (w.ent i).linkTo := by
    intro i
    rw [promoteAlias_nil hs, modify_ent]
    split_ifs with hi
    · rw [hi]
    · rfl
  have hal : ∀ x, (w.promoteAlias t).aliases x = w.aliases x := by
    intro x
    ext i
    rw [h.promoteAlias_mem_aliases ht htd, h.mem_aliases, hlink]
  have hextra : ∀ {p i}, g p = some i →
      ((w.promoteAlias t).ent i).extraLinks = (w.ent i).extraLinks := by
    intro p i hp
    rw [promoteAlias_nil hs, modify_ent, if_neg (fun hi : i = t => ht p (hi ▸ hp))]
  refine ⟨fun hp hd => ?_, fun hp => ?_, fun {p i x} hp hl => ?_⟩
  · rw [hlink, hextra hp]
    exact h.dirPlain hp (by rwa [hshape.isDir] at hd)
  · rw [hextra hp, hal, h.count hp]
  · rw [hb] at hp
    rw [hlink] at hl
    rw [hnext, hlink, hshape.isDir, (hshape.place x).typ, (hshape.place i).typ]
    exact h.aliasOf hp hl

section Heir

variable (hs : w.sortedAliases t = heir :: others)

include hs

theorem Tree.heir_ent (h : Tree w g) (ht : ∀ p, g p ≠ some t) (i : EntryId) :
    (w.promoteAlias t).ent i =
      if i = t then { w.ent t with extraLinks := 0, children := [] }
      else if i = heir then takeover (w.ent t) (w.ent heir) others.length
      else if i ∈ others then { w.ent i with linkTo := some heir }
      else w.ent i :=
  promoteAlias_ent hs (hs ▸ h.nodup_sortedAliases) (hs ▸ h.not_mem_sortedAliases ht) i

/-- What is known of the heir. -/
theorem Tree.heir_facts (h : Tree w g) :
    ∃ p, g p = some heir ∧ w.byPath p = some heir ∧ (w.ent heir).linkTo = some t ∧
      (w.ent heir).isDir = false := by
  have hmem : heir ∈ w.sortedAliases t := hs ▸ List.mem_cons_self
  obtain ⟨p, -, hg, -, hreg, hl, hd⟩ := h.alias_facts hmem
  exact ⟨p, hg, hreg, hl, hd⟩

/-- What is known of the other aliases. -/
theorem Tree.other_facts (h : Tree w g) {i : EntryId} (hi : i ∈ others) :
    ∃ p, w.byPath p = some i ∧ (w.ent i).linkTo = some t ∧ (w.ent i).isDir = false := by
  have hmem : i ∈ w.sortedAliases t := hs ▸ List.mem_cons_of_mem _ hi
  obtain ⟨p, -, -, -, hreg, hl, hd⟩ := h.alias_facts hmem
  exact ⟨p, hreg, hl, hd⟩

theorem Tree.heir_notMem (h : Tree w g) : heir ∉ others ∧ others.Nodup :=
  List.nodup_cons.1 (hs ▸ h.nodup_sortedAliases)

/-- The heir is no alias any more, and the other aliases name it. -/
theorem Tree.heir_linkTo (h : Tree w g) (ht : ∀ p, g p ≠ some t) (i : EntryId) :
    ((w.promoteAlias t).ent i).linkTo =
      if i = heir then none else if i ∈ others then some heir else (w.ent i).linkTo := by
  have htn : t ∉ heir :: others := hs ▸ h.not_mem_sortedAliases ht
  obtain ⟨hth, hto⟩ : t ≠ heir ∧ t ∉ others := by simpa using htn
  rw [h.heir_ent hs ht]
  by_cases hit : i = t
  · subst hit
    rw [if_pos rfl, if_neg hth, if_neg hto]
  · rw [if_neg hit]
    split_ifs <;> rfl

/-- The aliases of the other inodes are what they were. -/
theorem Tree.heir_linkTo_iff (h : Tree w g) (ht : ∀ p, g p ≠ some t) {i x : EntryId}
    (hx : x ≠ heir) (hxt : x ≠ t) :
    ((w.promoteAlias t).ent i).linkTo = some x ↔ (w.ent i).linkTo = some x := by
  obtain ⟨-, -, -, hlinkh, -⟩ := h.heir_facts hs
  rw [h.heir_linkTo hs ht]
  split_ifs with h1 h2
  · rw [h1, hlinkh]
    simp [Ne.symm hxt]
  · obtain ⟨-, -, hl, -⟩ := h.other_facts hs h2
    rw [hl]
    simp [Ne.symm hxt, Ne.symm hx]
  · rfl

theorem Tree.heir_aliases (h : Tree w g) (ht : ∀ p, g p ≠ some t)
    (htd : (w.ent t).isDir = false) :
    (w.promoteAlias t).aliases heir = others.toFinset := by
  obtain ⟨-, -, -, hlinkh, -⟩ := h.heir_facts hs
  ext i
  rw [h.promoteAlias_mem_aliases ht htd, h.heir_linkTo hs ht, List.mem_toFinset]
  constructor
  · rintro ⟨hreg, hl⟩
    split_ifs at hl with h1 h2
    · exact h2
    · -- No registered alias names an alias, so nothing named the heir before.
      rw [(h.aliasOf hreg hl).2.1] at hlinkh
      cases hlinkh
  · intro hi
    obtain ⟨p, hreg, -, -⟩ := h.other_facts hs hi
    refine ⟨by rwa [h.regPath hreg], ?_⟩
    rw [if_neg (fun e : i = heir => (h.heir_notMem hs).1 (e ▸ hi)), if_pos hi]

theorem Tree.heir_dirPlain (h : Tree w g) (ht : ∀ p, g p ≠ some t) {p : Path} {i : EntryId}
    (hp : g p = some i) (hd : (w.ent i).isDir = true) :
    ((w.promoteAlias t).ent i).linkTo = none ∧ ((w.promoteAlias t).ent i).extraLinks = 0 := by
  obtain ⟨-, -, -, -, hdh⟩ := h.heir_facts hs
  have hit : i ≠ t := fun e => ht p (e ▸ hp)
  have hih : i ≠ heir := fun e => by rw [e, hdh] at hd; cases hd
  have hio : i ∉ others := fun hi => by
    obtain ⟨-, -, -, hdi⟩ := h.other_facts hs hi
    rw [hdi] at hd
    cases hd
  rw [h.heir_ent hs ht, if_neg hit, if_neg hih, if_neg hio]
  exact h.dirPlain hp hd

theorem Tree.heir_count (h : Tree w g) (ht : ∀ p, g p ≠ some t) (htd : (w.ent t).isDir = false)
    {p : Path} {i : EntryId} (hp : g p = some i) :
    ((w.promoteAlias t).ent i).extraLinks = ((w.promoteAlias t).aliases i).card := by
  have hit : i ≠ t := fun e => ht p (e ▸ hp)
  by_cases hih : i = heir
  · subst hih
    rw [h.heir_aliases hs ht htd, List.toFinset_card_of_nodup (h.heir_notMem hs).2,
      h.heir_ent hs ht, if_neg hit, if_pos rfl]
    rfl
  · have hal : (w.promoteAlias t).aliases i = w.aliases i := by
      ext j
      rw [h.promoteAlias_mem_aliases ht htd, h.mem_aliases, h.heir_linkTo_iff hs ht hih hit]
    rw [hal, ← h.count hp, h.heir_ent hs ht, if_neg hit, if_neg hih]
    split_ifs <;> rfl

theorem Tree.heir_aliasOf (h : Tree w g) (ht : ∀ p, g p ≠ some t) {p : Path} {i x : EntryId}
    (hp : w.byPath p = some i) (hl : ((w.promoteAlias t).ent i).linkTo = some x) :
    x < w.next ∧ ((w.promoteAlias t).ent x).linkTo = none ∧ (w.ent x).isDir = false ∧
      (w.ent x).mode.typ = (w.ent i).mode.typ := by
  obtain ⟨ph, hgh, hrh, hlinkh, hdh⟩ := h.heir_facts hs
  rw [h.heir_linkTo hs ht] at hl
  split_ifs at hl with h1 h2
  · obtain rfl := Option.some.inj hl
    obtain ⟨p', hreg, hl', -⟩ := h.other_facts hs h2
    refine ⟨h.nodeLt hgh, by rw [h.heir_linkTo hs ht, if_pos rfl], hdh, ?_⟩
    rw [← (h.aliasOf hrh hlinkh).2.2.2, (h.aliasOf hreg hl').2.2.2]
  · obtain ⟨hlt, hxl, hxd, hxt⟩ := h.aliasOf hp hl
    refine ⟨hlt, ?_, hxd, hxt⟩
    have hxo : x ∉ others := fun hx => by
      obtain ⟨-, -, hl', -⟩ := h.other_facts hs hx
      rw [hxl] at hl'
      cases hl'
    rw [h.heir_linkTo hs ht, if_neg hxo, hxl]
    split_ifs <;> rfl

end Heir

/-- Handing an inode to an heir keeps the hardlinks in order. -/
theorem Tree.promoteAlias_links (h : Tree w g) (ht : ∀ p, g p ≠ some t)
    (htd : (w.ent t).isDir = false) :
    LinksOk (w.promoteAlias t) g := by
  cases hs : w.sortedAliases t with
  | nil => exact h.promoteAlias_links_nil ht htd hs
  | cons heir others =>
    obtain ⟨hb, hnext, -⟩ := promoteAlias_frame w t
    obtain ⟨hshape, -⟩ := h.promoteAlias_shape ht htd
    refine ⟨fun hp hd => ?_, h.heir_count hs ht htd, fun {p i x} hp hl => ?_⟩
    · exact h.heir_dirPlain hs ht hp (by rwa [hshape.isDir] at hd)
    · rw [hb] at hp
      rw [hnext, hshape.isDir, (hshape.place x).typ, (hshape.place i).typ]
      exact h.heir_aliasOf hs ht hp hl

/-- `promoteAlias` of an entry that is out of the tree keeps the invariant. -/
theorem Tree.promoteAlias (h : Tree w g) (ht : ∀ p, g p ≠ some t)
    (htd : (w.ent t).isDir = false) :
    Tree (w.promoteAlias t) g := by
  obtain ⟨hshape, hrem⟩ := h.promoteAlias_shape ht htd
  have hkids : ∀ i, ((w.promoteAlias t).ent i).children = [] ∨
      ∃ j, ((w.promoteAlias t).ent i).children = (w.ent j).children := by
    intro i
    cases hs : w.sortedAliases t with
    | nil =>
      rw [promoteAlias_nil hs, modify_ent]
      split_ifs with hi
      · exact Or.inr ⟨t, rfl⟩
      · exact Or.inr ⟨i, rfl⟩
    | cons heir others =>
      have hn : (heir :: others).Nodup := hs ▸ h.nodup_sortedAliases
      have htn : t ∉ heir :: others := hs ▸ h.not_mem_sortedAliases ht
      rw [promoteAlias_ent hs hn htn]
      split_ifs
      · exact Or.inl rfl
      · exact Or.inr ⟨t, rfl⟩
      · exact Or.inr ⟨i, rfl⟩
      · exact Or.inr ⟨i, rfl⟩
  refine h.transport hshape (promoteAlias_frame w t).1 hrem (h.promoteAlias_links ht htd) ?_ ?_
  · intro i c hc
    rcases hkids i with he | ⟨j, he⟩
    · rw [he] at hc
      cases hc
    · exact h.kidsLt j c (he ▸ hc)
  · intro i
    rcases hkids i with he | ⟨j, he⟩
    · rw [he]
      exact List.nodup_nil
    · rw [he]
      exact h.kidsNodup j

end Promote

/-! ## `unlinkEntry` -/

/-- The tree once the entry `e` at `p` is unlinked: a directory stays in it, under removal,
until its contents are gone. -/
def unlinked (w : Writer) (g : Path → Option EntryId) (p : Path) (e : EntryId) :
    Path → Option EntryId :=
  if (w.ent e).isDir then g else Function.update g p none

/-- What unlinking `e` does to the names and the flags. -/
structure DropsName (w w' : Writer) (e : EntryId) : Prop where
  shape : SameShape w w'
  byPath : w'.byPath = Function.update w.byPath (w.ent e).path none
  removed : ∀ i, (w'.ent i).removed = if i = e then true else (w.ent i).removed

section Unlink

variable {w w' : Writer} {g : Path → Option EntryId} {p : Path} {e : EntryId}

theorem unlinked_some {q : Path} {i : EntryId} :
    unlinked w g p e q = some i ↔ g q = some i ∧ ((w.ent e).isDir = false → q ≠ p) := by
  unfold unlinked
  cases hd : (w.ent e).isDir with
  | true => simp
  | false =>
    rw [if_neg (by simp), Function.update_apply]
    split_ifs with hq <;> simp [hq]

theorem DropsName.mem_aliases (h : Tree w g) (hp : g p = some e) (s : DropsName w w' e)
    (hlink : ∀ i, (w'.ent i).linkTo = (w.ent i).linkTo) {i x : EntryId} :
    i ∈ w'.aliases x ↔ i ∈ w.aliases x ∧ i ≠ e := by
  rw [h.mem_aliases]
  unfold aliases
  rw [Finset.mem_filter, Finset.mem_range, s.shape.next, s.byPath, (s.shape.place i).path, hlink,
    h.nodePath hp, Function.update_apply]
  constructor
  · rintro ⟨-, hreg, hl⟩
    split_ifs at hreg with hi
    · refine ⟨⟨hreg, hl⟩, ?_⟩
      rintro rfl
      exact hi (h.nodePath hp)
  · rintro ⟨⟨hreg, hl⟩, hne⟩
    refine ⟨h.regLt hreg, ?_, hl⟩
    rw [if_neg]
    · exact hreg
    · intro hi
      cases hrem : (w.ent e).removed with
      | false =>
        rw [hi, h.live hp hrem] at hreg
        exact hne (Option.some.inj hreg).symm
      | true =>
        rw [hi, (h.pending hp hrem).2] at hreg
        cases hreg

section Drop

variable (h : Tree w g) (hp : g p = some e) (s : DropsName w w' e)

include h hp s

theorem DropsName.byPath_some {q : Path} {i : EntryId} (hq : w'.byPath q = some i) :
    w.byPath q = some i ∧ i ≠ e := by
  rw [s.byPath, h.nodePath hp, Function.update_apply] at hq
  split_ifs at hq with hqp
  refine ⟨hq, ?_⟩
  rintro rfl
  exact hqp ((h.regPath hq).symm.trans (h.nodePath hp))

theorem DropsName.unlinked_parentOf (hkids : ∀ i, (w'.ent i).children = (w.ent i).children)
    {q : Path} {i : EntryId} (hq : unlinked w g p e q = some i) (hne : q ≠ []) :
    ∃ d, unlinked w g p e q.dropLast = some d ∧ (w'.ent d).isDir = true ∧
      i ∈ (w'.ent d).children ∧ (w'.ent i).parent = some d := by
  obtain ⟨d, hd, hdir, hmem, hpar⟩ := h.parentOf (unlinked_some.1 hq).1 hne
  refine ⟨d, unlinked_some.2 ⟨hd, fun hed hqp => ?_⟩, by rw [s.shape.isDir, hdir],
    by rwa [hkids], by rw [(s.shape.place i).parent, hpar]⟩
  rw [hqp, hp] at hd
  rw [Option.some.inj hd, hdir] at hed
  cases hed

theorem DropsName.unlinked_childOf (hkids : ∀ i, (w'.ent i).children = (w.ent i).children)
    {q : Path} {d c : EntryId} (hq : unlinked w g p e q = some d)
    (hdir : (w'.ent d).isDir = true) (hc : c ∈ (w'.ent d).children)
    (hrem : (w'.ent c).removed = false) :
    d < c ∧ ∃ n, unlinked w g p e (q ++ [n]) = some c := by
  rw [s.shape.isDir] at hdir
  rw [hkids] at hc
  rw [s.removed] at hrem
  split_ifs at hrem with hce
  obtain ⟨hlt, n, hn⟩ := h.childOf (unlinked_some.1 hq).1 hdir hc hrem
  refine ⟨hlt, n, unlinked_some.2 ⟨hn, fun _ hqp => ?_⟩⟩
  rw [hqp, hp] at hn
  exact hce (Option.some.inj hn).symm

theorem DropsName.unlinked_live {q : Path} {i : EntryId} (hq : unlinked w g p e q = some i)
    (hrem : (w'.ent i).removed = false) : w'.byPath q = some i := by
  rw [s.removed] at hrem
  split_ifs at hrem with hie
  have hgq := (unlinked_some.1 hq).1
  have hqp : q ≠ p := by
    rintro rfl
    rw [hgq] at hp
    exact hie (Option.some.inj hp)
  rw [s.byPath, h.nodePath hp, Function.update_of_ne hqp]
  exact h.live hgq hrem

/-- A directory whose name is dropped is under removal, as those were that are. -/
theorem DropsName.unlinked_pending {q : Path} {i : EntryId} (hq : unlinked w g p e q = some i)
    (hrem : (w'.ent i).removed = true) : (w'.ent i).isDir = true ∧ w'.byPath q = none := by
  obtain ⟨hgq, hqp⟩ := unlinked_some.1 hq
  rw [s.removed] at hrem
  rw [s.shape.isDir, s.byPath, h.nodePath hp]
  split_ifs at hrem with hie
  · subst hie
    obtain rfl := h.inj hgq hp
    refine ⟨?_, by simp⟩
    by_contra hd
    exact hqp (by simpa using hd) rfl
  · obtain ⟨hd, hb⟩ := h.pending hgq hrem
    refine ⟨hd, ?_⟩
    rw [Function.update_apply, hb, ite_self]

theorem DropsName.aliases_dir (hlink : ∀ i, (w'.ent i).linkTo = (w.ent i).linkTo) {i : EntryId}
    (hd : (w.ent i).isDir = true) : w'.aliases i = ∅ := by
  rw [Finset.eq_empty_iff_forall_notMem]
  intro j hj
  have hold := ((s.mem_aliases h hp hlink).1 hj).1
  rw [h.aliases_dir hd] at hold
  cases hold

end Drop

/-- Dropping a name keeps the invariant, if the counts are brought up to date. -/
theorem Tree.drop (h : Tree w g) (hp : g p = some e) (hne : p ≠ []) (s : DropsName w w' e)
    (hlink : ∀ i, (w'.ent i).linkTo = (w.ent i).linkTo)
    (hkids : ∀ i, (w'.ent i).children = (w.ent i).children)
    (hcount : ∀ {q i}, unlinked w g p e q = some i →
      (w'.ent i).extraLinks = (w'.aliases i).card) :
    Tree w' (unlinked w g p e) := by
  have hsub : ∀ {q i}, unlinked w g p e q = some i → g q = some i :=
    fun hq => (unlinked_some.1 hq).1
  have hreg : ∀ {q i}, w'.byPath q = some i → w.byPath q = some i ∧ i ≠ e :=
    fun hq => s.byPath_some h hp hq
  constructor
  case rootAt =>
    rw [s.shape.root]
    exact unlinked_some.2 ⟨h.rootAt, fun _ => hne.symm⟩
  case rootDir => rw [s.shape.root, s.shape.isDir, h.rootDir]
  case rootLive =>
    have hroot : w.root ≠ e := fun he => hne (h.inj hp (he ▸ h.rootAt))
    rw [s.shape.root, s.removed, if_neg hroot, h.rootLive]
  case nodePath =>
    intro q i hq
    rw [(s.shape.place i).path, h.nodePath (hsub hq)]
  case nodeLt =>
    intro q i hq
    rw [s.shape.next]
    exact h.nodeLt (hsub hq)
  case canonical => exact fun hq => h.canonical (hsub hq)
  case parentOf => exact s.unlinked_parentOf h hp hkids
  case childOf => exact s.unlinked_childOf h hp hkids
  case live => exact s.unlinked_live h hp
  case pending => exact s.unlinked_pending h hp
  case dirPlain =>
    intro q i hq hd
    rw [s.shape.isDir] at hd
    refine ⟨by rw [hlink, (h.dirPlain (hsub hq) hd).1], ?_⟩
    rw [hcount hq, s.aliases_dir h hp hlink hd, Finset.card_empty]
  case count => exact hcount
  case regPath =>
    intro q i hq
    rw [(s.shape.place i).path, h.regPath (hreg hq).1]
  case regLt =>
    intro q i hq
    rw [s.shape.next]
    exact h.regLt (hreg hq).1
  case regLive =>
    intro q i hq
    rw [s.removed, if_neg (hreg hq).2, h.regLive (hreg hq).1]
  case aliasOf =>
    intro q i t hq hl
    rw [hlink] at hl
    rw [s.shape.next, hlink, s.shape.isDir, (s.shape.place t).typ, (s.shape.place i).typ]
    exact h.aliasOf (hreg hq).1 hl
  case kidsLt =>
    intro i c hc
    rw [hkids] at hc
    rw [s.shape.next]
    exact h.kidsLt i c hc
  case kidsNodup =>
    intro i
    rw [hkids]
    exact h.kidsNodup i

theorem dropName_drops (w : Writer) (e : EntryId) : DropsName w (w.dropName e) e := by
  refine ⟨⟨rfl, rfl, fun i => ?_⟩, rfl, fun i => ?_⟩
  · rw [dropName_ent]
    split_ifs with hi
    · exact hi ▸ ⟨rfl, rfl, rfl, fun _ => rfl⟩
    · exact .refl _
  · rw [dropName_ent]
    split_ifs <;> rfl

theorem dropName_linkTo (w : Writer) (e i : EntryId) :
    ((w.dropName e).ent i).linkTo = (w.ent i).linkTo := by
  rw [dropName_ent]
  split_ifs with hi
  · rw [hi]
  · rfl

theorem dropName_kids (w : Writer) (e i : EntryId) :
    ((w.dropName e).ent i).children = (w.ent i).children := by
  rw [dropName_ent]
  split_ifs with hi
  · rw [hi]
  · rfl

theorem dropName_extraLinks (w : Writer) (e i : EntryId) :
    ((w.dropName e).ent i).extraLinks = (w.ent i).extraLinks := by
  rw [dropName_ent]
  split_ifs with hi
  · rw [hi]
  · rfl

/-- Dropping the name of an inode's owner leaves every count as it is. -/
theorem Tree.dropName (h : Tree w g) (hp : g p = some e) (hne : p ≠ [])
    (hl : (w.ent e).linkTo = none) : Tree (w.dropName e) (unlinked w g p e) := by
  have s := dropName_drops w e
  refine h.drop hp hne s (dropName_linkTo w e) (dropName_kids w e) ?_
  intro q i hq
  have hal : (w.dropName e).aliases i = w.aliases i := by
    ext j
    rw [s.mem_aliases h hp (dropName_linkTo w e), and_iff_left_iff_imp]
    rintro hj rfl
    rw [(h.mem_aliases.1 hj).2] at hl
    cases hl
  rw [hal, dropName_extraLinks, h.count (unlinked_some.1 hq).1]

/-- Dropping an alias takes one from the count of its target. -/
theorem Tree.dropAlias (h : Tree w g) (hp : g p = some e) (hne : p ≠ [])
    (hlive : (w.ent e).removed = false) {t : EntryId} (hl : (w.ent e).linkTo = some t) :
    Tree ((w.dropName e).modify t fun x => { x with extraLinks := decLinks x.extraLinks })
        (unlinked w g p e) ∧
      DropsName w ((w.dropName e).modify t fun x => { x with extraLinks := decLinks x.extraLinks })
        e := by
  have hreg := h.live hp hlive
  have hmem : e ∈ w.aliases t := h.mem_aliases.2 ⟨by rwa [h.nodePath hp], hl⟩
  have s₀ := dropName_drops w e
  have hent := modify_ent (w.dropName e) t fun x => { x with extraLinks := decLinks x.extraLinks }
  generalize hw' : ((w.dropName e).modify t fun x =>
    { x with extraLinks := decLinks x.extraLinks }) = w' at hent
  have hlink : ∀ i, (w'.ent i).linkTo = (w.ent i).linkTo := by
    intro i
    rw [hent, ← dropName_linkTo w e]
    split_ifs with hi
    · rw [hi]
    · rfl
  have s : DropsName w w' e := by
    refine ⟨s₀.shape.trans (hw' ▸ .modify ⟨rfl, rfl, rfl, fun _ => rfl⟩), hw' ▸ s₀.byPath, ?_⟩
    intro i
    rw [← s₀.removed, hent]
    split_ifs with hi
    · rw [hi]
    · rfl
  refine ⟨h.drop hp hne s hlink ?_ ?_, s⟩
  · intro i
    rw [hent, ← dropName_kids w e]
    split_ifs with hi
    · rw [hi]
    · rfl
  · intro q i hq
    have hcount := h.count (unlinked_some.1 hq).1
    by_cases hit : i = t
    · subst hit
      have hal : w'.aliases i = (w.aliases i).erase e := by
        ext j
        rw [s.mem_aliases h hp hlink, Finset.mem_erase, and_comm]
      have hpos := Finset.card_pos.2 ⟨e, hmem⟩
      rw [hal, Finset.card_erase_of_mem hmem, ← hcount, hent, if_pos rfl]
      show decLinks ((w.dropName e).ent i).extraLinks = _
      rw [dropName_extraLinks, decLinks, if_neg (by omega)]
    · have hal : w'.aliases i = w.aliases i := by
        ext j
        rw [s.mem_aliases h hp hlink, and_iff_left_iff_imp]
        rintro hj rfl
        rw [(h.mem_aliases.1 hj).2] at hl
        exact hit (Option.some.inj hl)
      rw [hal, ← hcount, hent, if_neg hit, dropName_extraLinks]

/-- A target with aliases is no directory, so unlinking it takes it out of the tree. -/
theorem Tree.unlinked_ne (h : Tree w g) (hp : g p = some e) (hx : (w.ent e).extraLinks > 0) :
    ∀ q, unlinked w g p e q ≠ some e := by
  intro q hq
  obtain ⟨hq, hqp⟩ := unlinked_some.1 hq
  refine hqp ?_ (h.inj hq hp)
  by_contra hd
  have := (h.dirPlain hp (by simpa using hd)).2
  omega

/-- An alias in the tree is registered. -/
theorem Tree.alias_registered (h : Tree w g) {i t : EntryId} (hp : g p = some i)
    (hl : (w.ent i).linkTo = some t) : w.byPath p = some i := by
  cases hrem : (w.ent i).removed with
  | false => exact h.live hp hrem
  | true =>
    rw [(h.dirPlain hp (h.pending hp hrem).1).1] at hl
    cases hl

/-- Dropping one name keeps the invariant. -/
theorem Tree.unlinkEntry (h : Tree w g) (hp : g p = some e) (hne : p ≠ [])
    (hlive : (w.ent e).removed = false) :
    Tree (w.unlinkEntry e) (unlinked w g p e) ∧ DropsName w (w.unlinkEntry e) e := by
  unfold Writer.unlinkEntry
  cases hl : (w.ent e).linkTo with
  | some t => exact h.dropAlias hp hne hlive hl
  | none =>
    have s := dropName_drops w e
    have h₁ := h.dropName hp hne hl
    by_cases hx : (w.ent e).extraLinks > 0
    · have hd : (w.ent e).isDir = false := by
        by_contra hd
        have := (h.dirPlain hp (by simpa using hd)).2
        omega
      have hout := h.unlinked_ne hp hx
      have hd₁ : ((w.dropName e).ent e).isDir = false := by rw [s.shape.isDir, hd]
      obtain ⟨hshape, hrem⟩ := h₁.promoteAlias_shape hout hd₁
      rw [if_pos hx]
      refine ⟨h₁.promoteAlias hout hd₁, s.shape.trans hshape, ?_, fun i => ?_⟩
      · rw [(promoteAlias_frame _ e).1, s.byPath]
      · rw [hrem, s.removed]
    · rw [if_neg hx]
      exact ⟨h₁, s⟩

/-- The children an entry has after `unlinkEntry`: its own, none, or, for the heir, those of
the entry that was unlinked. -/
theorem Tree.unlinkEntry_kids (h : Tree w g) (hp : g p = some e) (hne : p ≠ []) (i : EntryId) :
    ((w.unlinkEntry e).ent i).children = (w.ent i).children ∨
      ((w.unlinkEntry e).ent i).children = [] ∨
      ((w.ent i).linkTo = some e ∧ ((w.unlinkEntry e).ent i).children = (w.ent e).children) := by
  unfold Writer.unlinkEntry
  cases hl : (w.ent e).linkTo with
  | some t =>
    refine Or.inl ?_
    rw [← dropName_kids w e, modify_ent]
    split_ifs with hi
    · rw [hi]
    · rfl
  | none =>
    by_cases hx : (w.ent e).extraLinks > 0
    · have hout := h.unlinked_ne hp hx
      have h₁ := h.dropName hp hne hl
      rw [if_pos hx]
      cases hs : (w.dropName e).sortedAliases e with
      | nil =>
        refine Or.inl ?_
        rw [promoteAlias_nil hs, ← dropName_kids w e, modify_ent]
        split_ifs with hi
        · rw [hi]
        · rfl
      | cons heir others =>
        have hn : (heir :: others).Nodup := hs ▸ h₁.nodup_sortedAliases
        rw [promoteAlias_ent hs hn (hs ▸ h₁.not_mem_sortedAliases hout)]
        split_ifs with h1 h2 h3
        · exact Or.inr (Or.inl rfl)
        · obtain ⟨-, -, -, -, -, hlink, -⟩ := h₁.alias_facts (hs ▸ List.mem_cons_self : heir ∈ _)
          rw [dropName_linkTo] at hlink
          refine Or.inr (Or.inr ⟨h2 ▸ hlink, ?_⟩)
          rw [← dropName_kids w e e]
          rfl
        · exact Or.inl (dropName_kids w e i)
        · exact Or.inl (dropName_kids w e i)
    · rw [if_neg hx]
      exact Or.inl (dropName_kids w e i)

/-- The target an alias has after `unlinkEntry`: its own, or the heir of the entry that was
unlinked, with that entry's children. -/
theorem Tree.unlinkEntry_link (h : Tree w g) (hp : g p = some e) (hne : p ≠ []) {i t : EntryId}
    (ht : ((w.unlinkEntry e).ent i).linkTo = some t) :
    (w.ent i).linkTo = some t ∨ ((w.ent i).linkTo = some e ∧ (w.ent t).linkTo = some e ∧
      ((w.unlinkEntry e).ent t).children = (w.ent e).children) := by
  revert ht
  unfold Writer.unlinkEntry
  cases hl : (w.ent e).linkTo with
  | some x =>
    intro ht
    refine Or.inl ?_
    rw [← ht, ← dropName_linkTo w e, modify_ent]
    split_ifs with hi
    · rw [hi]
    · rfl
  | none =>
    by_cases hx : (w.ent e).extraLinks > 0
    · have hout := h.unlinked_ne hp hx
      have h₁ := h.dropName hp hne hl
      simp only [if_pos hx]
      cases hs : (w.dropName e).sortedAliases e with
      | nil =>
        intro ht
        refine Or.inl ?_
        rw [← ht, promoteAlias_nil hs, ← dropName_linkTo w e, modify_ent]
        split_ifs with hi
        · rw [hi]
        · rfl
      | cons heir others =>
        have hn : (heir :: others).Nodup := hs ▸ h₁.nodup_sortedAliases
        have hself := h₁.not_mem_sortedAliases hout
        rw [hs] at hself
        have hent := promoteAlias_ent hs hn hself
        rw [hent i]
        split_ifs with h1 h2 h3
        · intro ht
          rw [h1, ← dropName_linkTo w e]
          exact Or.inl ht
        · intro ht
          cases ht
        · intro ht
          obtain rfl := Option.some.inj ht
          obtain ⟨-, -, -, -, -, hi, -⟩ := h₁.alias_facts
            (hs ▸ List.mem_cons_of_mem _ h3 : i ∈ (w.dropName e).sortedAliases e)
          obtain ⟨-, -, -, -, -, hheir, -⟩ := h₁.alias_facts
            (hs ▸ List.mem_cons_self : heir ∈ (w.dropName e).sortedAliases e)
          rw [dropName_linkTo] at hi hheir
          refine Or.inr ⟨hi, hheir, ?_⟩
          rw [hent heir, if_neg (fun hh : heir = e => hself (hh ▸ List.mem_cons_self)), if_pos rfl,
            ← dropName_kids w e e]
          rfl
        · intro ht
          rw [← dropName_linkTo w e]
          exact Or.inl ht
    · intro ht
      rw [if_neg hx, dropName_linkTo] at ht
      exact Or.inl ht

/-- Unlinking a name cuts nothing off. -/
theorem Covered.unlinkEntry {S : Set Path} (hc : Covered w g S) (h : Tree w g) (hp : g p = some e)
    (hne : p ≠ []) (hlive : (w.ent e).removed = false) :
    Covered (w.unlinkEntry e) (unlinked w g p e) S := by
  have s := (h.unlinkEntry hp hne hlive).2
  have hrem : ∀ {c}, (w.ent c).removed = true → ((w.unlinkEntry e).ent c).removed = true := by
    intro c hc
    rw [s.removed]
    split_ifs
    · rfl
    · exact hc
  constructor
  case stale =>
    intro q i hq hg
    rw [s.byPath, h.nodePath hp, Function.update_apply] at hq
    split_ifs at hq with hqp
    refine hc.stale hq ?_
    cases hgq : g q with
    | none => rfl
    | some j =>
      rw [unlinked_some.2 ⟨hgq, fun _ => hqp⟩] at hg
      cases hg
  case kids =>
    intro q i hq hd hS c hcc
    have hgq := (unlinked_some.1 hq).1
    rw [s.shape.isDir] at hd
    rcases h.unlinkEntry_kids hp hne i with hk | hk | ⟨hl, hk⟩
    · exact hrem (hc.kids hgq hd hS c (hk ▸ hcc))
    · rw [hk] at hcc
      cases hcc
    · exact hrem (hc.aliasKids hgq hl hS c (hk ▸ hcc))
  case aliasKids =>
    intro q i t hq hl hS c hcc
    have hgq := (unlinked_some.1 hq).1
    rcases h.unlinkEntry_link hp hne hl with hl | ⟨hl, -, hk⟩
    · rcases h.unlinkEntry_kids hp hne t with hk | hk | ⟨htl, -⟩
      · exact hrem (hc.aliasKids hgq hl hS c (hk ▸ hcc))
      · rw [hk] at hcc
        cases hcc
      · rw [(h.aliasOf (h.alias_registered hgq hl) hl).2.1] at htl
        cases htl
    · exact hrem (hc.aliasKids hgq hl hS c (hk ▸ hcc))

end Unlink

end Writer

end Erofs
