import Erofs.PathTree
import Erofs.Writer.State

/-!
# The tree invariant of the Writer

What the pointers, the `removed` flags, `byPath` and the hardlink counts of a `Writer`
have to do with each other.  The invariant `Tree w g` is stated against a ghost map
`g` from paths to entries, the tree the image will show; `byPath` may hold more than
`g` (names that were cut off when a file replaced their directory), and while a
removal is under way `g` holds more than `byPath` (directories already unlinked whose
contents are not).

The main results:

* `Tree.reach_iff` — what can be reached from an entry is what `g` holds below it;
* `Tree.mem_sortedAliases` — the walk of `promoteAlias` finds exactly the reachable
  aliases of an entry.

That the invariant survives every removal is proved in `Unlink` and `Remove`.
-/

namespace Erofs

open GoPath PathTree

namespace Writer

/-! ## What the image shows -/

/-- From the entry `d`, down the path `r` through directories and children that are not
removed, one arrives at `x`.  A child goes by the last element of its own path, as
`buildErofsTree` names it. -/
def Reach (w : Writer) : EntryId → Path → EntryId → Prop
  | d, [], x => d = x
  | d, n :: r, x => (w.ent d).isDir = true ∧
      ∃ c ∈ (w.ent d).children, (w.ent c).removed = false ∧ base (w.ent c).path = n ∧ w.Reach c r x

/-- The image shows entry `i` at the path `p`. -/
def Shown (w : Writer) (p : Path) (i : EntryId) : Prop := w.Reach w.root p i

/-- The image shows something at the path `p`. -/
def Live (w : Writer) (p : Path) : Prop := ∃ i, w.Shown p i

/-- The registered names of the inode `t` besides its own. -/
def aliases (w : Writer) (t : EntryId) : Finset EntryId :=
  (Finset.range w.next).filter fun i =>
    w.byPath (w.ent i).path = some i ∧ (w.ent i).linkTo = some t

/-! ## The invariant -/

/-- The invariant, relative to the tree `g`. -/
structure Tree (w : Writer) (g : Path → Option EntryId) : Prop where
  rootAt : g [] = some w.root
  rootDir : (w.ent w.root).isDir = true
  rootLive : (w.ent w.root).removed = false
  /-- An entry of the tree knows its path. -/
  nodePath : ∀ {p i}, g p = some i → (w.ent i).path = p
  nodeLt : ∀ {p i}, g p = some i → i < w.next
  canonical : ∀ {p i}, g p = some i → Canonical p
  /-- Every entry hangs under the directory its path names. -/
  parentOf : ∀ {p i}, g p = some i → p ≠ [] → ∃ d, g p.dropLast = some d ∧
    (w.ent d).isDir = true ∧ i ∈ (w.ent d).children ∧ (w.ent i).parent = some d
  /-- Every child that is not removed is an entry of the tree, one element further down. -/
  childOf : ∀ {p d c}, g p = some d → (w.ent d).isDir = true → c ∈ (w.ent d).children →
    (w.ent c).removed = false → d < c ∧ ∃ n, g (p ++ [n]) = some c
  /-- An entry of the tree is registered, unless it is a directory under removal. -/
  live : ∀ {p i}, g p = some i → (w.ent i).removed = false → w.byPath p = some i
  pending : ∀ {p i}, g p = some i → (w.ent i).removed = true →
    (w.ent i).isDir = true ∧ w.byPath p = none
  /-- A directory has one name. -/
  dirPlain : ∀ {p i}, g p = some i → (w.ent i).isDir = true →
    (w.ent i).linkTo = none ∧ (w.ent i).extraLinks = 0
  /-- `extraLinks` counts the registered aliases. -/
  count : ∀ {p i}, g p = some i → (w.ent i).extraLinks = (w.aliases i).card
  regPath : ∀ {p i}, w.byPath p = some i → (w.ent i).path = p
  regLt : ∀ {p i}, w.byPath p = some i → i < w.next
  regLive : ∀ {p i}, w.byPath p = some i → (w.ent i).removed = false
  /-- An alias names an inode that is no alias and no directory. -/
  aliasOf : ∀ {p i t}, w.byPath p = some i → (w.ent i).linkTo = some t →
    t < w.next ∧ (w.ent t).linkTo = none ∧ (w.ent t).isDir = false ∧
      (w.ent t).mode.typ = (w.ent i).mode.typ
  kidsLt : ∀ i, ∀ c ∈ (w.ent i).children, c < w.next
  kidsNodup : ∀ i, (w.ent i).children.Nodup

/-- What may lie outside the tree: names are cut off only below the paths in `S`, and only an
entry at such a path keeps children that are not removed without being a directory. -/
structure Covered (w : Writer) (g : Path → Option EntryId) (S : Set Path) : Prop where
  stale : ∀ {q i}, w.byPath q = some i → g q = none → ∃ r ∈ S, Below r q
  kids : ∀ {p i}, g p = some i → (w.ent i).isDir = false → p ∉ S →
    ∀ c ∈ (w.ent i).children, (w.ent c).removed = true
  aliasKids : ∀ {p i t}, g p = some i → (w.ent i).linkTo = some t → p ∉ S →
    ∀ c ∈ (w.ent t).children, (w.ent c).removed = true

theorem Covered.mono {w : Writer} {g : Path → Option EntryId} {S S' : Set Path}
    (h : Covered w g S) (hS : S ⊆ S') : Covered w g S' where
  stale hq hg := by
    obtain ⟨r, hr, hb⟩ := h.stale hq hg
    exact ⟨r, hS hr, hb⟩
  kids hp hd hn := h.kids hp hd fun hin => hn (hS hin)
  aliasKids hp hl hn := h.aliasKids hp hl fun hin => hn (hS hin)

/-- Nothing below `p` is under removal. -/
def Settled (w : Writer) (g : Path → Option EntryId) (p : Path) : Prop :=
  ∀ q i, Below p q → g q = some i → (w.ent i).removed = false

namespace Tree

variable {w : Writer} {g : Path → Option EntryId}

/-- The tree is a closed map. -/
theorem closed (h : Tree w g) : Closed (fun d => (w.ent d).isDir = true) g := by
  intro q v hq hne
  obtain ⟨d, hd, hdir, -, -⟩ := h.parentOf hq hne
  exact ⟨d, hd, hdir⟩

theorem inj (h : Tree w g) {p q : Path} {i : EntryId} (hp : g p = some i) (hq : g q = some i) :
    p = q := (h.nodePath hp).symm.trans (h.nodePath hq)

theorem mem_aliases (h : Tree w g) {i t : EntryId} :
    i ∈ w.aliases t ↔ w.byPath (w.ent i).path = some i ∧ (w.ent i).linkTo = some t := by
  unfold aliases
  rw [Finset.mem_filter, Finset.mem_range]
  exact ⟨fun hi => hi.2, fun hi => ⟨h.regLt hi.1, hi⟩⟩

/-- No registered alias names a directory. -/
theorem aliases_dir (h : Tree w g) {t : EntryId} (ht : (w.ent t).isDir = true) :
    w.aliases t = ∅ := by
  rw [Finset.eq_empty_iff_forall_notMem]
  intro i hi
  obtain ⟨hreg, hlink⟩ := h.mem_aliases.1 hi
  have := (h.aliasOf hreg hlink).2.2.1
  rw [ht] at this
  cases this

/-! ## Reachability -/

theorem child_name (h : Tree w g) {p : Path} {c : EntryId} {n : Bytes}
    (hc : g (p ++ [n]) = some c) : base (w.ent c).path = n := by
  rw [h.nodePath hc]
  simp [base]

/-- What is reached from an entry of the tree is what `g` holds below it, if no directory
on the way is under removal. -/
theorem reach_of (h : Tree w g) {p : Path} {d : EntryId} (hd : g p = some d) {r : Path}
    {x : EntryId} (hx : w.Reach d r x) : g (p ++ r) = some x := by
  induction r generalizing p d with
  | nil => simpa [Reach] using hx ▸ hd
  | cons n r ih =>
    obtain ⟨hdir, c, hc, hlive, hn, hr⟩ := hx
    obtain ⟨-, m, hm⟩ := h.childOf hd hdir hc hlive
    have hmn : m = n := (h.child_name hm).symm.trans hn
    subst hmn
    simpa using ih hm hr

theorem reach_live (h : Tree w g) {p : Path} {d : EntryId} (hd : g p = some d) {n : Bytes}
    {r : Path} {x : EntryId} (hx : w.Reach d (n :: r) x) : (w.ent x).removed = false := by
  induction r generalizing p d n with
  | nil =>
    obtain ⟨-, c, -, hlive, -, rfl⟩ := hx
    exact hlive
  | cons m r ih =>
    obtain ⟨hdir, c, hc, hlive, -, hr⟩ := hx
    obtain ⟨-, k, hk⟩ := h.childOf hd hdir hc hlive
    exact ih hk hr

theorem reach_to (h : Tree w g) {p : Path} {d : EntryId} (hd : g p = some d) (hs : w.Settled g p)
    {r : Path} {x : EntryId} (hx : g (p ++ r) = some x) : w.Reach d r x := by
  induction r generalizing p d with
  | nil => simpa [Reach, hd] using hx
  | cons n r ih =>
    have hnext : ∃ c, g (p ++ [n]) = some c := by
      rcases prefix_or_below (show p ++ [n] <+: p ++ n :: r from ⟨r, by simp⟩) with e | hb
      · exact ⟨x, e ▸ hx⟩
      · obtain ⟨c, hc, -⟩ := h.closed.above hx hb
        exact ⟨c, hc⟩
    obtain ⟨c, hc⟩ := hnext
    obtain ⟨d', hd', hdir, hmem, -⟩ := h.parentOf hc (by simp)
    have hdd : d' = d := by
      rw [List.dropLast_concat, hd] at hd'
      exact (Option.some.inj hd').symm
    subst hdd
    have hlive := hs _ _ (below_append_cons p n []) hc
    have hs' : w.Settled g (p ++ [n]) := fun q i hb hq =>
      hs q i (prefix_trans_below (List.prefix_append _ _) hb) hq
    exact ⟨hdir, c, hmem, hlive, h.child_name hc, ih hc hs' (by simpa using hx)⟩

/-- Below an entry with no removal under way, reachability is `g`. -/
theorem reach_iff (h : Tree w g) {p : Path} {d : EntryId} (hd : g p = some d) (hs : w.Settled g p)
    {r : Path} {x : EntryId} : w.Reach d r x ↔ g (p ++ r) = some x :=
  ⟨h.reach_of hd, h.reach_to hd hs⟩

/-- The image shows the tree. -/
theorem shown_iff (h : Tree w g) (hs : w.Settled g []) {p : Path} {i : EntryId} :
    w.Shown p i ↔ g p = some i := by
  exact h.reach_iff h.rootAt hs

theorem live_iff (h : Tree w g) (hs : w.Settled g []) {p : Path} :
    w.Live p ↔ (g p).isSome = true := by
  simp only [Live, h.shown_iff hs, Option.isSome_iff_exists]

/-! ## The walk of `promoteAlias` -/

theorem mem_aliasesBelow (h : Tree w g) {t c : EntryId} {fuel : ℕ} {p : Path} {d : EntryId}
    (hd : g p = some d) (hdir : (w.ent d).isDir = true) (hfuel : w.next ≤ d + fuel) :
    c ∈ w.aliasesBelow t fuel d ↔
      (∃ n r, w.Reach d (n :: r) c) ∧ (w.ent c).linkTo = some t := by
  induction fuel generalizing p d with
  | zero =>
    have := h.nodeLt hd
    lia
  | succ fuel ih =>
    rw [aliasesBelow, List.mem_flatMap]
    constructor
    · rintro ⟨x, hx, hmem⟩
      cases hrem : (w.ent x).removed with
      | true => simp [hrem] at hmem
      | false =>
        obtain ⟨hlt, m, hm⟩ := h.childOf hd hdir hx hrem
        rw [hrem, if_neg (by simp), List.mem_append] at hmem
        rcases hmem with hmem | hmem
        · split_ifs at hmem with hl
          · obtain rfl := List.mem_singleton.1 hmem
            exact ⟨⟨_, [], hdir, c, hx, hrem, rfl, rfl⟩, hl⟩
          · cases hmem
        · split_ifs at hmem with hxd
          · obtain ⟨⟨n, r, hr⟩, hl⟩ := (ih hm hxd (by lia)).1 hmem
            exact ⟨⟨_, n :: r, hdir, x, hx, hrem, rfl, hr⟩, hl⟩
          · cases hmem
    · rintro ⟨⟨n, r, -, x, hx, hrem, -, hr⟩, hl⟩
      obtain ⟨hlt, m, hm⟩ := h.childOf hd hdir hx hrem
      refine ⟨x, hx, ?_⟩
      rw [hrem, if_neg (by simp), List.mem_append]
      cases r with
      | nil =>
        obtain rfl : x = c := hr
        exact Or.inl (by simp [hl])
      | cons n' r =>
        refine Or.inr ?_
        rw [if_pos hr.1]
        exact (ih hm hr.1 (by lia)).2 ⟨⟨n', r, hr⟩, hl⟩

theorem nodup_aliasesBelow (h : Tree w g) {t : EntryId} {fuel : ℕ} {p : Path} {d : EntryId}
    (hd : g p = some d) (hdir : (w.ent d).isDir = true) (hfuel : w.next ≤ d + fuel) :
    (w.aliasesBelow t fuel d).Nodup := by
  induction fuel generalizing p d with
  | zero =>
    have := h.nodeLt hd
    lia
  | succ fuel ih =>
    -- What the walk finds under a child lies at or below that child's path.
    have hpos : ∀ x ∈ (w.ent d).children, ∀ c ∈ (if (w.ent x).removed = true then []
        else (if (w.ent x).linkTo = some t then [x] else []) ++
          if (w.ent x).isDir = true then aliasesBelow w t fuel x else []),
        ∃ n r, g (p ++ [n]) = some x ∧ g (p ++ n :: r) = some c := by
      intro x hx c hc
      cases hrem : (w.ent x).removed with
      | true => simp [hrem] at hc
      | false =>
        obtain ⟨hlt, n, hn⟩ := h.childOf hd hdir hx hrem
        rw [hrem, if_neg (by simp), List.mem_append] at hc
        rcases hc with hc | hc
        · split_ifs at hc with hl
          · obtain rfl := List.mem_singleton.1 hc
            exact ⟨n, [], hn, hn⟩
          · cases hc
        · split_ifs at hc with hxd
          · obtain ⟨⟨m, r, hr⟩, -⟩ := (h.mem_aliasesBelow hn hxd (by lia)).1 hc
            exact ⟨n, m :: r, hn, by simpa using h.reach_of hn hr⟩
          · cases hc
    rw [aliasesBelow, List.nodup_flatMap]
    constructor
    · intro x hx
      cases hrem : (w.ent x).removed with
      | true => simp
      | false =>
        obtain ⟨hlt, n, hn⟩ := h.childOf hd hdir hx hrem
        rw [if_neg (by simp)]
        refine List.Nodup.append (by split_ifs <;> simp) ?_ ?_
        · split_ifs with hxd
          · exact ih hn hxd (by lia)
          · exact List.nodup_nil
        · intro c hc hc'
          split_ifs at hc hc' with hl hxd
          · obtain rfl := List.mem_singleton.1 hc
            obtain ⟨⟨m, r, hr⟩, -⟩ := (h.mem_aliasesBelow hn hxd (by lia)).1 hc'
            have := h.inj hn (h.reach_of hn hr)
            simp at this
          · cases hc'
          · cases hc
          · cases hc
    · refine (h.kidsNodup d).imp_of_mem ?_
      intro x y hx hy hne c hcx hcy
      obtain ⟨n, r, hn, hr⟩ := hpos x hx c hcx
      obtain ⟨m, s, hm, hs⟩ := hpos y hy c hcy
      have he := List.append_cancel_left (h.inj hr hs)
      obtain rfl : n = m := by simpa using congrArg List.head? he
      rw [hn] at hm
      exact hne (Option.some.inj hm)

/-- The walk of `promoteAlias` finds the aliases of `t` that the image shows. -/
theorem mem_sortedAliases (h : Tree w g) {t c : EntryId} :
    c ∈ w.sortedAliases t ↔ (∃ n r, w.Shown (n :: r) c) ∧ (w.ent c).linkTo = some t := by
  rw [sortedAliases, List.mem_insertionSort, h.mem_aliasesBelow h.rootAt h.rootDir (by lia)]
  rfl

theorem nodup_sortedAliases (h : Tree w g) {t : EntryId} : (w.sortedAliases t).Nodup :=
  (List.perm_insertionSort _ _).nodup_iff.2
    (h.nodup_aliasesBelow h.rootAt h.rootDir (by lia))

end Tree

end Writer

end Erofs
