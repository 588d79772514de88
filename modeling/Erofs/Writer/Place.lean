import Erofs.Writer.Remove

/-!
# Attaching and replacing entries

`addChild`, `placeEntry` and `addAlias` keep the invariant.  A new entry appears at its
path; what was there is replaced, and if the new entry is no directory, whatever was
below leaves the tree.

The main results: `Tree.addChild`, `Tree.addAliasChild`, `Tree.placeEntry`, `Tree.addAlias`.
-/

namespace Erofs

open GoPath PathTree

namespace Writer

variable {w w' : Writer} {g : Path → Option EntryId}

/-! ## A new child -/

/-- A freshly built entry. -/
structure Fresh (e : FsEntry) : Prop where
  kids : e.children = []
  live : e.removed = false
  extra : e.extraLinks = 0

/-- `w'` is `w` with the entry `e` added under the directory `d`; a count may have changed. -/
structure Attaches (w w' : Writer) (e : FsEntry) (d : EntryId) : Prop where
  next : w'.next = w.next + 1
  root : w'.root = w.root
  byPath : w'.byPath = Function.update w.byPath e.path (some w.next)
  copyLinks : w'.copyLinks = w.copyLinks
  new : w'.ent w.next = { e with parent := some d }
  old : ∀ {i}, i ≠ w.next → w'.ent i = { w.ent i with
    children := if i = d then (w.ent d).children ++ [w.next] else (w.ent i).children
    extraLinks := (w'.ent i).extraLinks }

namespace Attaches

variable {e : FsEntry} {d : EntryId} {i : EntryId}

theorem newPath (s : Attaches w w' e d) : (w'.ent w.next).path = e.path :=
  by rw [s.new]

theorem newMode (s : Attaches w w' e d) : (w'.ent w.next).mode = e.mode :=
  by rw [s.new]

theorem newLink (s : Attaches w w' e d) : (w'.ent w.next).linkTo = e.linkTo :=
  by rw [s.new]

theorem newParent (s : Attaches w w' e d) : (w'.ent w.next).parent = some d :=
  by rw [s.new]

theorem newKids (s : Attaches w w' e d) (he : Fresh e) : (w'.ent w.next).children = [] :=
  by rw [s.new, he.kids]

theorem newRemoved (s : Attaches w w' e d) (he : Fresh e) : (w'.ent w.next).removed = false :=
  by rw [s.new, he.live]

theorem path (s : Attaches w w' e d) (hi : i ≠ w.next) : (w'.ent i).path = (w.ent i).path :=
  by rw [s.old hi]

theorem parent (s : Attaches w w' e d) (hi : i ≠ w.next) :
    (w'.ent i).parent = (w.ent i).parent := by rw [s.old hi]

theorem mode (s : Attaches w w' e d) (hi : i ≠ w.next) : (w'.ent i).mode = (w.ent i).mode :=
  by rw [s.old hi]

theorem removed (s : Attaches w w' e d) (hi : i ≠ w.next) :
    (w'.ent i).removed = (w.ent i).removed := by rw [s.old hi]

theorem link (s : Attaches w w' e d) (hi : i ≠ w.next) : (w'.ent i).linkTo = (w.ent i).linkTo :=
  by rw [s.old hi]

theorem kids (s : Attaches w w' e d) (hi : i ≠ w.next) : (w'.ent i).children =
    if i = d then (w.ent d).children ++ [w.next] else (w.ent i).children :=
  by rw [s.old hi]

theorem isDir (s : Attaches w w' e d) (hi : i ≠ w.next) : (w'.ent i).isDir = (w.ent i).isDir := by
  simp only [FsEntry.isDir, s.mode hi]

end Attaches

theorem Attaches.mem_aliases {e : FsEntry} {d : EntryId} (s : Attaches w w' e d) (h : Tree w g)
    (hfree : w.byPath e.path = none) {i x : EntryId} :
    i ∈ w'.aliases x ↔ i ∈ w.aliases x ∨ (i = w.next ∧ e.linkTo = some x) := by
  rw [h.mem_aliases]
  unfold aliases
  rw [Finset.mem_filter, Finset.mem_range, s.next, s.byPath]
  by_cases hi : i = w.next
  · subst hi
    rw [s.newPath, s.newLink]
    have hold : w.byPath (w.ent w.next).path ≠ some w.next := fun hreg => by
      have := h.regLt hreg
      lia
    simp [hold]
  · rw [s.path hi, s.link hi, Function.update_apply]
    split_ifs with hp
    · rw [hp, hfree]
      simp [hi, Ne.symm hi]
    · constructor
      · rintro ⟨-, hreg⟩
        exact Or.inl hreg
      · rintro (hreg | hreg)
        · exact ⟨by have := h.regLt hreg.1; lia, hreg⟩
        · exact absurd hreg.1 hi

section Attach

variable {e : FsEntry} {d : EntryId} {p q : Path} {n : Bytes} {i : EntryId}

theorem Tree.node_ne_next (h : Tree w g) (hp : g p = some i) : i ≠ w.next := (h.nodeLt hp).ne

/-- What is in the tree with a new entry: the entry, or what was there. -/
theorem Tree.attached_cases (h : Tree w g)
    (hp : Function.update g e.path (some w.next) p = some i) :
    (p = e.path ∧ i = w.next) ∨ (p ≠ e.path ∧ g p = some i ∧ i ≠ w.next) := by
  rw [Function.update_apply] at hp
  split_ifs at hp with hpe
  · exact Or.inl ⟨hpe, (Option.some.inj hp).symm⟩
  · exact Or.inr ⟨hpe, hp, h.node_ne_next hp⟩

theorem attached_of_some (hnone : g e.path = none) (hp : g p = some i) :
    Function.update g e.path (some w.next) p = some i := by
  rw [Function.update_of_ne, hp]
  rintro rfl
  rw [hnone] at hp
  cases hp

namespace Attaches

/-- What is registered once the entry is there. -/
theorem byPath_cases (s : Attaches w w' e d) (h : Tree w g) (hp : w'.byPath p = some i) :
    (p = e.path ∧ i = w.next) ∨ (w.byPath p = some i ∧ i ≠ w.next) := by
  rw [s.byPath, Function.update_apply] at hp
  split_ifs at hp with hpe
  · exact Or.inl ⟨hpe, (Option.some.inj hp).symm⟩
  · exact Or.inr ⟨hp, (h.regLt hp).ne⟩

theorem newIsDir (s : Attaches w w' e d) : (w'.ent w.next).isDir = e.isDir := by
  simp only [FsEntry.isDir, s.newMode]

theorem attached_parentOf (s : Attaches w w' e d) (h : Tree w g) (hpath : e.path = q ++ [n])
    (hq : g q = some d) (hdir : (w.ent d).isDir = true) (hnone : g e.path = none)
    (hp : Function.update g e.path (some w.next) p = some i) (hne : p ≠ []) :
    ∃ d', Function.update g e.path (some w.next) p.dropLast = some d' ∧
      (w'.ent d').isDir = true ∧ i ∈ (w'.ent d').children ∧ (w'.ent i).parent = some d' := by
  rcases h.attached_cases hp with ⟨rfl, rfl⟩ | ⟨-, hp, hi⟩
  · have hdn := h.node_ne_next hq
    refine ⟨d, ?_, by rw [s.isDir hdn, hdir], by simp [s.kids hdn], s.newParent⟩
    rw [hpath, List.dropLast_concat, ← hpath]
    exact attached_of_some hnone hq
  · obtain ⟨d', hd', hdir', hmem, hpar⟩ := h.parentOf hp hne
    have hdn' := h.node_ne_next hd'
    refine ⟨d', attached_of_some hnone hd', by rw [s.isDir hdn', hdir'], ?_,
      by rw [s.parent hi, hpar]⟩
    rw [s.kids hdn']
    split_ifs with hdd
    · exact List.mem_append_left _ (hdd ▸ hmem)
    · exact hmem

/-- The children of an old entry: the old ones, and under `d` the new entry. -/
theorem mem_kids (s : Attaches w w' e d) {c : EntryId} (hi : i ≠ w.next)
    (hc : c ∈ (w'.ent i).children) : c ∈ (w.ent i).children ∨ (i = d ∧ c = w.next) := by
  rw [s.kids hi] at hc
  split_ifs at hc with hid
  · rcases List.mem_append.1 hc with hc | hc
    · exact Or.inl (hid ▸ hc)
    · exact Or.inr ⟨hid, List.mem_singleton.1 hc⟩
  · exact Or.inl hc

theorem attached_childOf (s : Attaches w w' e d) (h : Tree w g) (he : Fresh e)
    (hpath : e.path = q ++ [n]) (hq : g q = some d) (hnone : g e.path = none) {c : EntryId}
    (hp : Function.update g e.path (some w.next) p = some i) (hdir : (w'.ent i).isDir = true)
    (hc : c ∈ (w'.ent i).children) (hrem : (w'.ent c).removed = false) :
    i < c ∧ ∃ m, Function.update g e.path (some w.next) (p ++ [m]) = some c := by
  rcases h.attached_cases hp with ⟨-, rfl⟩ | ⟨-, hp, hi⟩
  · rw [s.newKids he] at hc
    cases hc
  · rw [s.isDir hi] at hdir
    rcases s.mem_kids hi hc with hc | ⟨rfl, rfl⟩
    · rw [s.removed (h.kidsLt i c hc).ne] at hrem
      obtain ⟨hlt, m, hm⟩ := h.childOf hp hdir hc hrem
      exact ⟨hlt, m, attached_of_some hnone hm⟩
    · obtain rfl := h.inj hp hq
      exact ⟨h.nodeLt hp, n, by rw [← hpath, Function.update_self]⟩

theorem attached_dirPlain (s : Attaches w w' e d) (h : Tree w g)
    (hfree : w.byPath e.path = none) (hplain : e.isDir = true → e.linkTo = none)
    (hlink : ∀ t, e.linkTo = some t → t < w.next ∧ (w.ent t).isDir = false)
    (hp : Function.update g e.path (some w.next) p = some i) (hd : (w'.ent i).isDir = true) :
    (w'.ent i).linkTo = none ∧ w'.aliases i = ∅ := by
  rw [Finset.eq_empty_iff_forall_notMem]
  rcases h.attached_cases hp with ⟨rfl, rfl⟩ | ⟨-, hp, hi⟩
  · rw [s.newIsDir] at hd
    refine ⟨by rw [s.newLink, hplain hd], fun j hj => ?_⟩
    rcases (s.mem_aliases h hfree).1 hj with hj | ⟨-, hl⟩
    · have := (h.aliasOf (h.mem_aliases.1 hj).1 (h.mem_aliases.1 hj).2).1
      lia
    · have := (hlink _ hl).1
      lia
  · rw [s.isDir hi] at hd
    refine ⟨by rw [s.link hi, (h.dirPlain hp hd).1], fun j hj => ?_⟩
    rcases (s.mem_aliases h hfree).1 hj with hj | ⟨-, hl⟩
    · rw [h.aliases_dir hd] at hj
      cases hj
    · rw [(hlink i hl).2] at hd
      cases hd

theorem attached_aliasOf (s : Attaches w w' e d) (h : Tree w g)
    (hlink : ∀ t, e.linkTo = some t → t < w.next ∧ (w.ent t).linkTo = none ∧
      (w.ent t).isDir = false ∧ (w.ent t).mode.typ = e.mode.typ) {t : EntryId}
    (hp : w'.byPath p = some i) (hl : (w'.ent i).linkTo = some t) :
    t < w'.next ∧ (w'.ent t).linkTo = none ∧ (w'.ent t).isDir = false ∧
      (w'.ent t).mode.typ = (w'.ent i).mode.typ := by
  -- either way the target is an old entry
  obtain ⟨hlt, htl, htd, htt⟩ : t < w.next ∧ (w.ent t).linkTo = none ∧
      (w.ent t).isDir = false ∧ (w.ent t).mode.typ = (w'.ent i).mode.typ := by
    rcases s.byPath_cases h hp with ⟨-, rfl⟩ | ⟨hp, hi⟩
    · rw [s.newLink] at hl
      rw [s.newMode]
      exact hlink t hl
    · rw [s.link hi] at hl
      rw [s.mode hi]
      exact h.aliasOf hp hl
  have htn : t ≠ w.next := hlt.ne
  exact ⟨by rw [s.next]; lia, by rw [s.link htn, htl], by rw [s.isDir htn, htd],
    by rw [s.mode htn, htt]⟩

theorem attached_kidsLt (s : Attaches w w' e d) (h : Tree w g) (he : Fresh e) (i : EntryId) :
    ∀ c ∈ (w'.ent i).children, c < w'.next := by
  intro c hc
  rw [s.next]
  by_cases hi : i = w.next
  · rw [hi, s.newKids he] at hc
    cases hc
  · rcases s.mem_kids hi hc with hc | ⟨-, rfl⟩
    · have := h.kidsLt i c hc
      lia
    · lia

theorem attached_kidsNodup (s : Attaches w w' e d) (h : Tree w g) (he : Fresh e) (i : EntryId) :
    (w'.ent i).children.Nodup := by
  by_cases hi : i = w.next
  · rw [hi, s.newKids he]
    exact List.nodup_nil
  · rw [s.kids hi]
    split_ifs with hid
    · refine (h.kidsNodup d).append (List.nodup_singleton _) fun c hc hc' => ?_
      have := h.kidsLt d c hc
      have := List.mem_singleton.1 hc'
      lia
    · exact h.kidsNodup i

end Attaches

/-- A new child keeps the invariant, if the counts are brought up to date. -/
theorem Tree.attach (h : Tree w g) (he : Fresh e) (s : Attaches w w' e d)
    (hpath : e.path = q ++ [n]) (hname : IsName n) (hq : g q = some d)
    (hdir : (w.ent d).isDir = true) (hnone : g e.path = none) (hfree : w.byPath e.path = none)
    (hplain : e.isDir = true → e.linkTo = none)
    (hlink : ∀ t, e.linkTo = some t → t < w.next ∧ (w.ent t).linkTo = none ∧
      (w.ent t).isDir = false ∧ (w.ent t).mode.typ = e.mode.typ)
    (hcount : ∀ {p i}, Function.update g e.path (some w.next) p = some i →
      (w'.ent i).extraLinks = (w'.aliases i).card) :
    Tree w' (Function.update g e.path (some w.next)) where
  rootAt := s.root ▸ attached_of_some hnone h.rootAt
  rootDir := by rw [s.root, s.isDir (h.node_ne_next h.rootAt), h.rootDir]
  rootLive := by rw [s.root, s.removed (h.node_ne_next h.rootAt), h.rootLive]
  nodePath hp := by
    rcases h.attached_cases hp with ⟨rfl, rfl⟩ | ⟨-, hp, hi⟩
    · exact s.newPath
    · rw [s.path hi, h.nodePath hp]
  nodeLt hp := by
    rw [s.next]
    rcases h.attached_cases hp with ⟨-, rfl⟩ | ⟨-, hp, -⟩
    · lia
    · have := h.nodeLt hp
      lia
  canonical hp := by
    rcases h.attached_cases hp with ⟨rfl, -⟩ | ⟨-, hp, -⟩
    · rw [hpath]
      exact (h.canonical hq).append fun x hx => by rwa [List.mem_singleton.1 hx]
    · exact h.canonical hp
  parentOf := s.attached_parentOf h hpath hq hdir hnone
  childOf := s.attached_childOf h he hpath hq hnone
  live hp hrem := by
    rw [s.byPath]
    rcases h.attached_cases hp with ⟨rfl, rfl⟩ | ⟨hpe, hp, hi⟩
    · rw [Function.update_self]
    · rw [Function.update_of_ne hpe]
      rw [s.removed hi] at hrem
      exact h.live hp hrem
  pending hp hrem := by
    rcases h.attached_cases hp with ⟨-, rfl⟩ | ⟨hpe, hp, hi⟩
    · rw [s.newRemoved he] at hrem
      cases hrem
    · rw [s.removed hi] at hrem
      rw [s.isDir hi, s.byPath, Function.update_of_ne hpe]
      exact h.pending hp hrem
  dirPlain hp hd := by
    obtain ⟨hl, hal⟩ := s.attached_dirPlain h hfree hplain
      (fun t ht => ⟨(hlink t ht).1, (hlink t ht).2.2.1⟩) hp hd
    exact ⟨hl, by rw [hcount hp, hal, Finset.card_empty]⟩
  count := hcount
  regPath hp := by
    rcases s.byPath_cases h hp with ⟨rfl, rfl⟩ | ⟨hp, hi⟩
    · exact s.newPath
    · rw [s.path hi, h.regPath hp]
  regLt hp := by
    rw [s.next]
    rcases s.byPath_cases h hp with ⟨-, rfl⟩ | ⟨hp, -⟩
    · lia
    · have := h.regLt hp
      lia
  regLive hp := by
    rcases s.byPath_cases h hp with ⟨-, rfl⟩ | ⟨hp, hi⟩
    · exact s.newRemoved he
    · rw [s.removed hi, h.regLive hp]
  aliasOf := s.attached_aliasOf h hlink
  kidsLt := s.attached_kidsLt h he
  kidsNodup := s.attached_kidsNodup h he

end Attach

theorem addChild_ent (w : Writer) (e : FsEntry) {d : EntryId}
    (hd : (w.byPath (dir e.path)).getD w.root = d) (hdn : d ≠ w.next) (i : EntryId) :
    (w.addChild e).ent i =
      if i = w.next then { e with parent := some d }
      else if i = d then { w.ent d with children := (w.ent d).children ++ [w.next] }
      else w.ent i := by
  subst hd
  simp only [addChild, Function.update_apply]
  split_ifs with h1 h2 h3
  · exact absurd (h1.symm.trans h2) hdn
  · rfl
  · rfl
  · rfl

theorem addChild_attaches (w : Writer) (e : FsEntry) {d : EntryId}
    (hd : (w.byPath (dir e.path)).getD w.root = d) (hdn : d ≠ w.next) :
    Attaches w (w.addChild e) e d := by
  refine ⟨rfl, rfl, rfl, rfl, by rw [addChild_ent w e hd hdn, if_pos rfl], fun {i} hi => ?_⟩
  rw [addChild_ent w e hd hdn i, if_neg hi]
  split_ifs with h
  · rw [h]
  · rfl

theorem addChild_extraLinks (w : Writer) {e : FsEntry} (he : Fresh e) {d : EntryId}
    (hd : (w.byPath (dir e.path)).getD w.root = d) (hdn : d ≠ w.next) (i : EntryId) :
    ((w.addChild e).ent i).extraLinks = if i = w.next then 0 else (w.ent i).extraLinks := by
  rw [addChild_ent w e hd hdn i]
  split_ifs with h1 h2
  · exact he.extra
  · rw [h2]
  · rfl

/-- A tree's registered directory is where `addChild` attaches. -/
theorem Tree.parent_eq (h : Tree w g) {q : Path} {n : Bytes} {d : EntryId} (hq : g q = some d)
    (hlive : (w.ent d).removed = false) (hname : IsName n) :
    (w.byPath (dir (q ++ [n]))).getD w.root = d ∧ d ≠ w.next := by
  have hc : Canonical (q ++ [n]) :=
    (h.canonical hq).append fun x hx => by rwa [List.mem_singleton.1 hx]
  rw [dir_of_canonical hc, List.dropLast_concat, h.live hq hlive]
  exact ⟨rfl, fun hd => by have := h.nodeLt hq; lia⟩

/-- `addChild` of an entry that is no alias. -/
theorem Tree.addChild (h : Tree w g) {e : FsEntry} (he : Fresh e) {q : Path} {n : Bytes}
    {d : EntryId} (hpath : e.path = q ++ [n]) (hname : IsName n) (hq : g q = some d)
    (hdir : (w.ent d).isDir = true) (hlive : (w.ent d).removed = false)
    (hnone : g e.path = none) (hfree : w.byPath e.path = none) (hlink : e.linkTo = none) :
    Tree (w.addChild e) (Function.update g e.path (some w.next)) ∧
      Attaches w (w.addChild e) e d := by
  obtain ⟨hd, hdn⟩ := h.parent_eq hq hlive hname
  rw [← hpath] at hd
  have s := addChild_attaches w e hd hdn
  refine ⟨h.attach he s hpath hname hq hdir hnone hfree (fun _ => hlink)
    (fun t ht => by rw [hlink] at ht; cases ht) fun {p i} hp => ?_, s⟩
  have hal : (w.addChild e).aliases i = w.aliases i := by
    ext j
    rw [s.mem_aliases h hfree, hlink]
    simp
  rw [addChild_extraLinks w he hd hdn, hal]
  rw [Function.update_apply] at hp
  split_ifs at hp with hpe
  · -- Nothing names the new entry yet.
    obtain rfl := Option.some.inj hp
    rw [if_pos rfl, eq_comm, Finset.card_eq_zero, Finset.eq_empty_iff_forall_notMem]
    intro j hj
    have := (h.aliasOf (h.mem_aliases.1 hj).1 (h.mem_aliases.1 hj).2).1
    lia
  · rw [if_neg (fun hi => by have := h.nodeLt hp; lia), h.count hp]

/-- `addChild` of an alias of `t`, with the count of `t`. -/
theorem Tree.addAliasChild (h : Tree w g) {q : Path} {n : Bytes} {d t : EntryId}
    (hname : IsName n) (hq : g q = some d) (hdir : (w.ent d).isDir = true)
    (hlive : (w.ent d).removed = false) (hnone : g (q ++ [n]) = none)
    (hfree : w.byPath (q ++ [n]) = none) (htn : t < w.next) (htl : (w.ent t).linkTo = none)
    (htd : (w.ent t).isDir = false) :
    let e : FsEntry := { path := q ++ [n], mode := (w.ent t).mode, linkTo := some t }
    let w' := (w.addChild e).modify t fun x => { x with extraLinks := x.extraLinks + 1 }
    Tree w' (Function.update g (q ++ [n]) (some w.next)) ∧ Attaches w w' e d := by
  intro e w'
  have he : Fresh e := ⟨rfl, rfl, rfl⟩
  obtain ⟨hd, hdn⟩ := h.parent_eq hq hlive hname
  have s₀ := addChild_attaches w e hd hdn
  have hent : ∀ i, w'.ent i = if i = t then { (w.addChild e).ent t with
      extraLinks := ((w.addChild e).ent t).extraLinks + 1 } else (w.addChild e).ent i :=
    modify_ent (w.addChild e) t fun x => { x with extraLinks := x.extraLinks + 1 }
  have htne : t ≠ w.next := fun ht => by lia
  have s : Attaches w w' e d := by
    refine ⟨s₀.next, s₀.root, s₀.byPath, s₀.copyLinks, ?_, fun {i} hi => ?_⟩
    · rw [hent, if_neg (Ne.symm htne), s₀.new]
    · by_cases hit : i = t
      · rw [hent, if_pos hit, s₀.old htne, hit]
      · rw [hent, if_neg hit, s₀.old hi]
  refine ⟨h.attach he s rfl hname hq hdir hnone hfree (fun hd => ?_) ?_ fun {p i} hp => ?_, s⟩
  · rw [show e.isDir = (w.ent t).isDir from rfl, htd] at hd
    cases hd
  · intro t' ht'
    obtain rfl := Option.some.inj ht'
    exact ⟨htn, htl, htd, rfl⟩
  · have hextra : (w'.ent i).extraLinks = if i = t then (w.ent t).extraLinks + 1
        else if i = w.next then 0 else (w.ent i).extraLinks := by
      rw [hent]
      by_cases hit : i = t
      · rw [if_pos hit, if_pos hit, addChild_extraLinks w he hd hdn, if_neg htne]
      · rw [if_neg hit, if_neg hit, addChild_extraLinks w he hd hdn]
    have hnew : w.next ∉ w.aliases t := fun hmem => by
      have := h.regLt (h.mem_aliases.1 hmem).1
      lia
    have hal : w'.aliases i = if i = t then insert w.next (w.aliases t) else w.aliases i := by
      ext j
      rw [s.mem_aliases h hfree, show e.linkTo = some t from rfl]
      split_ifs with hit
      · rw [hit, Finset.mem_insert]
        simp [or_comm]
      · simp [Ne.symm hit]
    rw [hextra, hal]
    rw [Function.update_apply] at hp
    split_ifs at hp with hpe
    · -- Nothing names the new entry yet.
      obtain rfl := Option.some.inj hp
      rw [if_neg (Ne.symm htne), if_neg (Ne.symm htne), if_pos rfl, eq_comm, Finset.card_eq_zero,
        Finset.eq_empty_iff_forall_notMem]
      intro j hj
      have := (h.aliasOf (h.mem_aliases.1 hj).1 (h.mem_aliases.1 hj).2).1
      lia
    · have hin : i ≠ w.next := fun hi => by
        have := h.nodeLt hp
        lia
      by_cases hit : i = t
      · rw [if_pos hit, if_pos hit, Finset.card_insert_of_notMem hnew, ← hit, h.count hp]
      · rw [if_neg hit, if_neg hit, if_neg hin, h.count hp]

theorem Covered.attach {S : Set Path} (hc : Covered w g S) (h : Tree w g) {e : FsEntry}
    (he : Fresh e) {d : EntryId} (s : Attaches w w' e d) (hdir : (w.ent d).isDir = true)
    (hal : ∀ t, e.linkTo = some t → t < w.next ∧ (w.ent t).isDir = false ∧
      (e.path ∉ S → ∀ c ∈ (w.ent t).children, (w.ent c).removed = true)) :
    Covered w' (Function.update g e.path (some w.next)) S := by
  -- The children of an entry that is no directory are as they were.
  have hkids : ∀ {i}, i < w.next → (w.ent i).isDir = false →
      (∀ c ∈ (w.ent i).children, (w.ent c).removed = true) →
      ∀ c ∈ (w'.ent i).children, (w'.ent c).removed = true := by
    intro i hi hd hall c hcc
    rw [s.kids (by lia), if_neg (fun hid : i = d => by rw [hid, hdir] at hd; cases hd)] at hcc
    have := h.kidsLt i c hcc
    rw [s.removed (by lia)]
    exact hall c hcc
  have hcases : ∀ {p i}, Function.update g e.path (some w.next) p = some i →
      (p = e.path ∧ i = w.next) ∨ (p ≠ e.path ∧ g p = some i ∧ i < w.next) := by
    intro p i hp
    rw [Function.update_apply] at hp
    split_ifs at hp with hpe
    · exact Or.inl ⟨hpe, (Option.some.inj hp).symm⟩
    · exact Or.inr ⟨hpe, hp, h.nodeLt hp⟩
  constructor
  case stale =>
    intro q i hq hg
    rw [Function.update_apply] at hg
    split_ifs at hg with hqe
    rw [s.byPath, Function.update_of_ne hqe] at hq
    exact hc.stale hq hg
  case kids =>
    intro p i hp hd hS
    rcases hcases hp with ⟨rfl, rfl⟩ | ⟨-, hp, hi⟩
    · intro c hcc
      rw [s.newKids he] at hcc
      cases hcc
    · rw [s.isDir (by lia)] at hd
      exact hkids hi hd (hc.kids hp hd hS)
  case aliasKids =>
    intro p i t hp hl hS
    rcases hcases hp with ⟨rfl, rfl⟩ | ⟨-, hp, hi⟩
    · rw [s.newLink] at hl
      obtain ⟨hlt, htd, hall⟩ := hal t hl
      exact hkids hlt htd (hall hS)
    · rw [s.link (by lia)] at hl
      obtain ⟨hlt, -, htd, -⟩ := h.aliasOf (h.alias_registered hp hl) hl
      exact hkids hlt htd (hc.aliasKids hp hl hS)

/-! ## Overwriting in place -/

/-- The tree with the entry `i` placed at `p`: nothing stays below an entry that is no
directory. -/
def placed (isDir : Bool) (g : Path → Option EntryId) (p : Path) (i : EntryId) :
    Path → Option EntryId :=
  Function.update (if isDir then g else cut g p) p (some i)

theorem placed_some {b : Bool} {p q : Path} {e i : EntryId} (hp : g p = some e) :
    placed b g p e q = some i ↔ g q = some i ∧ (b = false → ¬ Below p q) := by
  unfold placed
  rw [Function.update_apply]
  split_ifs with h1 h2
  · subst h1
    simp [hp, Below]
  · simp [h2]
  · rw [cut_some]
    simp [h2, and_comm]

section Overwrite

variable {p : Path} {e : EntryId} {fe : FsEntry}

theorem overwrite_ent (w : Writer) (e : EntryId) (fe : FsEntry) (i : EntryId) :
    (w.overwrite e fe).ent i =
      if i = e then { fe with parent := (w.ent e).parent, children := (w.ent e).children }
      else w.ent i := modify_ent w e _ i

theorem overwrite_kids (w : Writer) (e : EntryId) (fe : FsEntry) (i : EntryId) :
    ((w.overwrite e fe).ent i).children = (w.ent i).children := by
  rw [overwrite_ent]
  split_ifs with hi
  · rw [hi]
  · rfl

theorem overwrite_parent (w : Writer) (e : EntryId) (fe : FsEntry) (i : EntryId) :
    ((w.overwrite e fe).ent i).parent = (w.ent i).parent := by
  rw [overwrite_ent]
  split_ifs with hi
  · rw [hi]
  · rfl

theorem overwrite_path (hpath : (w.ent e).path = fe.path) (i : EntryId) :
    ((w.overwrite e fe).ent i).path = (w.ent i).path := by
  rw [overwrite_ent]
  split_ifs with hi
  · rw [hi, hpath]
  · rfl

theorem overwrite_removed (he : Fresh fe) (hlive : (w.ent e).removed = false) (i : EntryId) :
    ((w.overwrite e fe).ent i).removed = (w.ent i).removed := by
  rw [overwrite_ent]
  split_ifs with hi
  · rw [hi, hlive]
    exact he.live
  · rfl

theorem overwrite_link (hl : fe.linkTo = none) (hle : (w.ent e).linkTo = none) (i : EntryId) :
    ((w.overwrite e fe).ent i).linkTo = (w.ent i).linkTo := by
  rw [overwrite_ent]
  split_ifs with hi
  · rw [hi, hle]
    exact hl
  · rfl

theorem overwrite_extra (he : Fresh fe) (hx : (w.ent e).extraLinks = 0) (i : EntryId) :
    ((w.overwrite e fe).ent i).extraLinks = (w.ent i).extraLinks := by
  rw [overwrite_ent]
  split_ifs with hi
  · rw [hi, hx]
    exact he.extra
  · rfl

theorem overwrite_isDir (i : EntryId) :
    ((w.overwrite e fe).ent i).isDir = if i = e then fe.isDir else (w.ent i).isDir := by
  rw [overwrite_ent]
  split_ifs <;> rfl

theorem overwrite_aliases (hpath : (w.ent e).path = fe.path) (hl : fe.linkTo = none)
    (hle : (w.ent e).linkTo = none) (i : EntryId) :
    (w.overwrite e fe).aliases i = w.aliases i := by
  unfold aliases
  rw [show (w.overwrite e fe).next = w.next from rfl]
  refine Finset.filter_congr fun j _ => ?_
  rw [overwrite_path hpath, overwrite_link hl hle]
  rfl

theorem Tree.overwrite_parentOf (h : Tree w g) (hp : g p = some e) {q : Path} {i : EntryId}
    (hq : placed fe.isDir g p e q = some i) (hne : q ≠ []) :
    ∃ d, placed fe.isDir g p e q.dropLast = some d ∧ ((w.overwrite e fe).ent d).isDir = true ∧
      i ∈ ((w.overwrite e fe).ent d).children ∧ ((w.overwrite e fe).ent i).parent = some d := by
  obtain ⟨hq, hnb⟩ := (placed_some hp).1 hq
  obtain ⟨d, hd, hdir, hmem, hpar⟩ := h.parentOf hq hne
  refine ⟨d, (placed_some hp).2 ⟨hd, fun hb hbelow => ?_⟩, ?_, by rwa [overwrite_kids],
    by rw [overwrite_parent, hpar]⟩
  · exact hnb hb (hbelow.mono (List.dropLast_prefix q))
  · rw [overwrite_isDir]
    split_ifs with hde
    · by_contra hfd
      rw [hde] at hd
      have hqp : p = q.dropLast := h.inj hp hd
      exact hnb (by simpa using hfd) (hqp ▸ below_dropLast hne)
    · exact hdir

theorem Tree.overwrite_childOf (h : Tree w g) (he : Fresh fe) (hp : g p = some e)
    (hlive : (w.ent e).removed = false)
    (hkids : fe.isDir = true → (w.ent e).isDir = false →
      ∀ c ∈ (w.ent e).children, (w.ent c).removed = true) {q : Path} {d c : EntryId}
    (hq : placed fe.isDir g p e q = some d) (hdir : ((w.overwrite e fe).ent d).isDir = true)
    (hc : c ∈ ((w.overwrite e fe).ent d).children)
    (hrem : ((w.overwrite e fe).ent c).removed = false) :
    d < c ∧ ∃ n, placed fe.isDir g p e (q ++ [n]) = some c := by
  rw [overwrite_kids] at hc
  rw [overwrite_removed he hlive] at hrem
  rw [overwrite_isDir] at hdir
  obtain ⟨hgq, hnb⟩ := (placed_some hp).1 hq
  by_cases hde : d = e
  · subst hde
    rw [if_pos rfl] at hdir
    cases hdd : (w.ent d).isDir with
    | true =>
      obtain ⟨hlt, n, hn⟩ := h.childOf hgq hdd hc hrem
      exact ⟨hlt, n, (placed_some hp).2 ⟨hn, fun hb => by rw [hdir] at hb; cases hb⟩⟩
    | false =>
      rw [hkids hdir hdd c hc] at hrem
      cases hrem
  · rw [if_neg hde] at hdir
    obtain ⟨hlt, n, hn⟩ := h.childOf hgq hdir hc hrem
    refine ⟨hlt, n, (placed_some hp).2 ⟨hn, fun hb hbelow => ?_⟩⟩
    have hpre := hbelow.dropLast
    rw [List.dropLast_concat] at hpre
    rcases prefix_or_below hpre with heq | hbelow'
    · rw [← heq, hp] at hgq
      exact hde (Option.some.inj hgq).symm
    · exact hnb hb hbelow'

theorem Tree.overwrite_aliasOf (h : Tree w g) (hp : g p = some e) (hle : (w.ent e).linkTo = none)
    (hx : (w.ent e).extraLinks = 0) (hl : fe.linkTo = none) {q : Path} {i t : EntryId}
    (hq : w.byPath q = some i) (hl' : ((w.overwrite e fe).ent i).linkTo = some t) :
    t < w.next ∧ ((w.overwrite e fe).ent t).linkTo = none ∧
      ((w.overwrite e fe).ent t).isDir = false ∧
      ((w.overwrite e fe).ent t).mode.typ = ((w.overwrite e fe).ent i).mode.typ := by
  rw [overwrite_link hl hle] at hl'
  obtain ⟨hlt, htl, htd, htt⟩ := h.aliasOf hq hl'
  -- the entry is neither an alias nor the inode of one
  have hte : t ≠ e := by
    rintro rfl
    have hmem : i ∈ w.aliases t := h.mem_aliases.2 ⟨by rw [h.regPath hq]; exact hq, hl'⟩
    have hpos := Finset.card_pos.2 ⟨i, hmem⟩
    rw [← h.count hp, hx] at hpos
    exact absurd hpos (lt_irrefl 0)
  have hie : i ≠ e := by
    rintro rfl
    rw [hle] at hl'
    cases hl'
  refine ⟨hlt, by rw [overwrite_link hl hle, htl], by rw [overwrite_isDir, if_neg hte, htd], ?_⟩
  rw [overwrite_ent, if_neg hte, overwrite_ent, if_neg hie, htt]

/-- Overwriting an entry that has no other names keeps the invariant.  A directory written
over something else must find no children there that are not removed. -/
theorem Tree.overwrite (h : Tree w g) (he : Fresh fe) (hp : g p = some e) (hne : p ≠ [])
    (hlive : (w.ent e).removed = false) (hle : (w.ent e).linkTo = none)
    (hx : (w.ent e).extraLinks = 0) (hpath : fe.path = p) (hl : fe.linkTo = none)
    (hkids : fe.isDir = true → (w.ent e).isDir = false →
      ∀ c ∈ (w.ent e).children, (w.ent c).removed = true) :
    Tree (w.overwrite e fe) (placed fe.isDir g p e) := by
  have hpath' : (w.ent e).path = fe.path := (h.nodePath hp).trans hpath.symm
  have hrem := overwrite_removed he hlive
  have hold : ∀ {q i}, placed fe.isDir g p e q = some i → g q = some i :=
    fun hq => ((placed_some hp).1 hq).1
  constructor
  case rootAt => exact (placed_some hp).2 ⟨h.rootAt, fun _ hb => hb.ne_nil rfl⟩
  case rootDir =>
    have hroot : w.root ≠ e := fun hr => hne (h.inj hp (hr ▸ h.rootAt))
    rw [show (w.overwrite e fe).root = w.root from rfl, overwrite_isDir, if_neg hroot]
    exact h.rootDir
  case rootLive => rw [hrem]; exact h.rootLive
  case nodePath =>
    intro q i hq
    rw [overwrite_path hpath', h.nodePath (hold hq)]
  case nodeLt => exact fun hq => h.nodeLt (hold hq)
  case canonical => exact fun hq => h.canonical (hold hq)
  case parentOf => exact h.overwrite_parentOf hp
  case childOf => exact h.overwrite_childOf he hp hlive hkids
  case live =>
    intro q i hq hr
    rw [hrem] at hr
    exact h.live (hold hq) hr
  case pending =>
    intro q i hq hr
    rw [hrem] at hr
    obtain ⟨hd, hb⟩ := h.pending (hold hq) hr
    refine ⟨?_, hb⟩
    rw [overwrite_isDir, if_neg, hd]
    rintro rfl
    rw [hlive] at hr
    cases hr
  case dirPlain =>
    intro q i hq hd
    rw [overwrite_link hl hle, overwrite_extra he hx]
    by_cases hie : i = e
    · rw [hie]
      exact ⟨hle, hx⟩
    · rw [overwrite_isDir, if_neg hie] at hd
      exact h.dirPlain (hold hq) hd
  case count =>
    intro q i hq
    rw [overwrite_extra he hx, overwrite_aliases hpath' hl hle, h.count (hold hq)]
  case regPath =>
    intro q i hq
    rw [overwrite_path hpath', h.regPath hq]
  case regLt => exact h.regLt
  case regLive =>
    intro q i hq
    rw [hrem, h.regLive hq]
  case aliasOf => exact h.overwrite_aliasOf hp hle hx hl
  case kidsLt =>
    intro i c hc
    rw [overwrite_kids] at hc
    exact h.kidsLt i c hc
  case kidsNodup =>
    intro i
    rw [overwrite_kids]
    exact h.kidsNodup i

/-- What an overwritten directory kept below it is cut off. -/
theorem Covered.overwrite {S : Set Path} (hc : Covered w g S) (h : Tree w g) (he : Fresh fe)
    (hp : g p = some e) (hlive : (w.ent e).removed = false) (hle : (w.ent e).linkTo = none)
    (hx : (w.ent e).extraLinks = 0) (hl : fe.linkTo = none) :
    Covered (w.overwrite e fe) (placed fe.isDir g p e) (if fe.isDir then S else insert p S) := by
  have hrem := overwrite_removed he hlive
  have hsub : S ⊆ if fe.isDir then S else insert p S := by
    split_ifs
    · exact Set.Subset.rfl
    · exact Set.subset_insert p S
  have hnone : w.aliases e = ∅ := by rw [← Finset.card_eq_zero, ← h.count hp, hx]
  constructor
  case stale =>
    intro q i hq hg
    cases hgq : g q with
    | none =>
      obtain ⟨r, hr, hb⟩ := hc.stale hq hgq
      exact ⟨r, hsub hr, hb⟩
    | some j =>
      -- Still in the old tree, so it is what the new entry has cut off.
      have hcut : ¬ (fe.isDir = false → ¬ Below p q) := fun hb => by
        rw [(placed_some hp).2 ⟨hgq, hb⟩] at hg
        cases hg
      push Not at hcut
      exact ⟨p, by simp [hcut.1], hcut.2⟩
  case kids =>
    intro q i hq hd hS c hcc
    have hgq := ((placed_some hp).1 hq).1
    rw [overwrite_kids] at hcc
    rw [hrem]
    rw [overwrite_isDir] at hd
    split_ifs at hd with hie
    · subst hie
      obtain rfl := h.inj hgq hp
      rw [hd] at hS
      simp at hS
    · exact hc.kids hgq hd (fun hin => hS (hsub hin)) c hcc
  case aliasKids =>
    intro q i t hq hlt hS c hcc
    rw [overwrite_kids] at hcc
    rw [overwrite_link hl hle] at hlt
    rw [hrem]
    exact hc.aliasKids ((placed_some hp).1 hq).1 hlt (fun hin => hS (hsub hin)) c hcc

end Overwrite

end Writer

end Erofs
