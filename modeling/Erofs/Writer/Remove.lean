import Erofs.Writer.Unlink

/-!
# Removal

The recursive removals, as runs of unlinked names.  The invariant survives each step, so
it survives the run; the tree loses exactly the subtree that was removed, and whatever
else is in it keeps its place and its type.

The main results:

* `Removes.tree`, `Removes.covered`, `Removes.shape` — what a run of unlinked names keeps;
* `Tree.removeTree`, `Tree.removeChildren` — a whole subtree is taken away.
-/

namespace Erofs

open GoPath PathTree

namespace Writer

/-! ## Runs of unlinked names -/

/-- A sequence of unlinked names, from the tree `g` to the tree `g'`.  A directory under
removal leaves the tree once nothing is below it. -/
inductive Removes : Writer → (Path → Option EntryId) → Writer → (Path → Option EntryId) → Prop
  | refl {w g} : Removes w g w g
  | unlink {w g w' g' p e} : Tree w g → g p = some e → p ≠ [] → (w.ent e).removed = false →
      Removes (w.unlinkEntry e) (unlinked w g p e) w' g' → Removes w g w' g'
  | drop {w g w' g' p e} : Tree w g → g p = some e → (w.ent e).removed = true →
      (∀ q, Below p q → g q = none) → Removes w (Function.update g p none) w' g' →
      Removes w g w' g'

section Removes

variable {w w' w'' : Writer} {g g' g'' : Path → Option EntryId}

theorem Removes.trans (r : Removes w g w' g') (r' : Removes w' g' w'' g'') :
    Removes w g w'' g'' := by
  induction r with
  | refl => exact r'
  | unlink ht hp hne hlive _ ih => exact .unlink ht hp hne hlive (ih r')
  | drop ht hp hrem hb _ ih => exact .drop ht hp hrem hb (ih r')

/-- An emptied directory under removal can leave the tree. -/
theorem Tree.dropPending (h : Tree w g) {p : Path} {e : EntryId} (hp : g p = some e)
    (hrem : (w.ent e).removed = true) (hb : ∀ q, Below p q → g q = none) :
    Tree w (Function.update g p none) := by
  have hsome : ∀ {q i}, Function.update g p none q = some i ↔ q ≠ p ∧ g q = some i := by
    intro q i
    rw [Function.update_apply]
    split_ifs with hq <;> simp [hq]
  have hne : p ≠ [] := by
    rintro rfl
    rw [h.rootAt] at hp
    rw [← Option.some.inj hp, h.rootLive] at hrem
    cases hrem
  constructor
  case rootAt => exact hsome.2 ⟨hne.symm, h.rootAt⟩
  case parentOf =>
    intro q i hq hqne
    obtain ⟨d, hd, hrest⟩ := h.parentOf (hsome.1 hq).2 hqne
    refine ⟨d, hsome.2 ⟨?_, hd⟩, hrest⟩
    rintro rfl
    have hgq := (hsome.1 hq).2
    rw [hb q (below_dropLast hqne)] at hgq
    cases hgq
  case childOf =>
    intro q d c hq hdir hc hlive
    obtain ⟨hlt, n, hn⟩ := h.childOf (hsome.1 hq).2 hdir hc hlive
    refine ⟨hlt, n, hsome.2 ⟨?_, hn⟩⟩
    rintro rfl
    rw [hn] at hp
    rw [Option.some.inj hp, hrem] at hlive
    cases hlive
  case rootDir => exact h.rootDir
  case rootLive => exact h.rootLive
  case nodePath => exact fun hq => h.nodePath (hsome.1 hq).2
  case nodeLt => exact fun hq => h.nodeLt (hsome.1 hq).2
  case canonical => exact fun hq => h.canonical (hsome.1 hq).2
  case live => exact fun hq => h.live (hsome.1 hq).2
  case pending => exact fun hq => h.pending (hsome.1 hq).2
  case dirPlain => exact fun hq => h.dirPlain (hsome.1 hq).2
  case count => exact fun hq => h.count (hsome.1 hq).2
  case regPath => exact h.regPath
  case regLt => exact h.regLt
  case regLive => exact h.regLive
  case aliasOf => exact h.aliasOf
  case kidsLt => exact h.kidsLt
  case kidsNodup => exact h.kidsNodup

/-- The invariant survives a sequence of unlinked names. -/
theorem Removes.tree (r : Removes w g w' g') (h : Tree w g) : Tree w' g' := by
  induction r with
  | refl => exact h
  | unlink ht hp hne hlive _ ih => exact ih (ht.unlinkEntry hp hne hlive).1
  | drop ht hp hrem hb _ ih => exact ih (ht.dropPending hp hrem hb)

theorem Removes.covered {S : Set Path} (r : Removes w g w' g') (h : Covered w g S) :
    Covered w' g' S := by
  induction r with
  | refl => exact h
  | unlink ht hp hne hlive _ ih => exact ih (h.unlinkEntry ht hp hne hlive)
  | @drop w g _ _ p e ht hp hrem hb _ ih =>
    have hsome : ∀ {q i}, Function.update g p none q = some i → g q = some i := by
      intro q i hq
      rw [Function.update_apply] at hq
      split_ifs at hq
      exact hq
    refine ih ⟨fun {q i} hq hg => ?_, fun hq => h.kids (hsome hq), fun hq => h.aliasKids (hsome hq)⟩
    refine h.stale hq ?_
    rw [Function.update_apply] at hg
    split_ifs at hg with hqp
    · -- The dropped directory is not registered.
      rw [hqp, (ht.pending hp hrem).2] at hq
      cases hq
    · exact hg

theorem Removes.shape (r : Removes w g w' g') : SameShape w w' := by
  induction r with
  | refl => exact .refl _
  | unlink ht hp hne hlive _ ih => exact (ht.unlinkEntry hp hne hlive).2.shape.trans ih
  | drop _ _ _ _ _ ih => exact ih

/-! ## Removing a subtree -/

/-- A run of removals that touches no flag of what stays in the tree. -/
structure RemovesTo (w : Writer) (g : Path → Option EntryId) (w' : Writer)
    (g' : Path → Option EntryId) : Prop where
  run : Removes w g w' g'
  flags : ∀ {q i}, g' q = some i → (w'.ent i).removed = (w.ent i).removed

theorem RemovesTo.trans (r : RemovesTo w g w' g') (r' : RemovesTo w' g' w'' g'')
    (hsub : ∀ {q i}, g'' q = some i → g' q = some i) : RemovesTo w g w'' g'' :=
  ⟨r.run.trans r'.run, fun hq => (r'.flags hq).trans (r.flags (hsub hq))⟩

theorem cut_prune {p : Path} {n : Bytes} : cut (prune g (p ++ [n])) p = cut g p := by
  funext q
  unfold cut prune
  split_ifs with h1 h2
  · rfl
  · exact absurd ((below_append_cons p n []).mono h2) h1
  · rfl

/-- Unlinking an entry and then everything below it takes away its subtree, provided the
recursion empties a directory. -/
theorem Tree.removeEntry (h : Tree w g) (sub : Writer → EntryId → Writer) {q : Path} {e : EntryId}
    (hq : g q = some e) (hne : q ≠ []) (hlive : (w.ent e).removed = false) (hs : w.Settled g q)
    (hsub : (w.ent e).isDir = true → ∀ {v}, Tree v g → SameShape w v → v.Settled g q →
      RemovesTo v g (sub v e) (cut g q)) :
    RemovesTo w g (removeEntry sub w e) (prune g q) := by
  obtain ⟨h₁, s₁⟩ := h.unlinkEntry hq hne hlive
  unfold Writer.removeEntry
  rw [s₁.shape.isDir]
  cases hd : (w.ent e).isDir with
  | false =>
    rw [if_neg (by simp)]
    have hprune : unlinked w g q e = prune g q := by
      rw [unlinked, if_neg (by simp [hd])]
      refine update_none_eq_prune fun x hx => h.closed.nothing_below (fun d hd' => ?_) hx
      rw [hq] at hd'
      rw [← Option.some.inj hd', hd]
      simp
    refine ⟨.unlink h hq hne hlive (hprune ▸ .refl), fun {x i} hx => ?_⟩
    rw [s₁.removed, if_neg]
    rintro rfl
    exact (prune_some.1 hx).1 (h.inj hq (prune_some.1 hx).2 ▸ List.prefix_rfl)
  | true =>
    rw [if_pos rfl]
    have hun : unlinked w g q e = g := by rw [unlinked, if_pos hd]
    rw [hun] at h₁
    have hother : ∀ {x i}, g x = some i → x ≠ q →
        ((w.unlinkEntry e).ent i).removed = (w.ent i).removed := by
      intro x i hx hxq
      rw [s₁.removed, if_neg]
      rintro rfl
      exact hxq (h.inj hx hq)
    have hs₁ : (w.unlinkEntry e).Settled g q := by
      intro x i hx hgx
      rw [hother hgx hx.2.symm]
      exact hs x i hx hgx
    obtain ⟨r, hflags⟩ := hsub hd h₁ s₁.shape hs₁
    have hqe : cut g q q = some e := by rw [cut_self, hq]
    have hrem : ((sub (w.unlinkEntry e) e).ent e).removed = true := by
      rw [hflags hqe, s₁.removed, if_pos rfl]
    have hempty : ∀ x, Below q x → cut g q x = none := fun x hx => by rw [cut, if_pos hx]
    have hprune : Function.update (cut g q) q none = prune g q := by
      funext x
      rw [Function.update_apply]
      unfold cut prune
      split_ifs with h1 h2 h3 h4
      · rfl
      · exact absurd (h1 ▸ List.prefix_rfl) h2
      · rfl
      · exact absurd h3.1 h4
      · rcases prefix_or_below (by assumption) with e' | hb
        · exact absurd e'.symm h1
        · exact absurd hb h3
      · rfl
    refine ⟨.unlink h hq hne hlive (hun.symm ▸ r.trans
      (.drop (r.tree h₁) hqe hrem hempty (hprune ▸ .refl))), fun {x i} hx => ?_⟩
    obtain ⟨hqx, hgx⟩ := prune_some.1 hx
    have hxq : x ≠ q := by
      rintro rfl
      exact hqx List.prefix_rfl
    rw [hflags (cut_some.2 ⟨fun hb => hqx hb.1, hgx⟩), hother hgx hxq]

/-- `removeSubtree` takes away what is strictly below a directory. -/
theorem Tree.removeSubtree (fuel : ℕ) : ∀ {w : Writer} {g : Path → Option EntryId} {p : Path}
    {d : EntryId}, Tree w g → g p = some d → (w.ent d).isDir = true → w.Settled g p →
    w.next ≤ d + fuel → RemovesTo w g (removeSubtree fuel w d) (cut g p) := by
  induction fuel with
  | zero =>
    intro w g p d h hp _ _ hfuel
    have := h.nodeLt hp
    lia
  | succ fuel ih =>
    -- The loop over the children still to be visited: every child in the tree is one.
    have hloop : ∀ (l : List EntryId) {w : Writer} {g : Path → Option EntryId} {p : Path}
        {d : EntryId}, Tree w g → g p = some d → (w.ent d).isDir = true → w.Settled g p →
        w.next ≤ d + (fuel + 1) → (∀ c ∈ l, c ∈ (w.ent d).children) →
        (∀ n c, g (p ++ [n]) = some c → c ∈ l) →
        RemovesTo w g (l.foldl (fun w c => if (w.ent c).removed then w
          else Writer.removeEntry (Writer.removeSubtree fuel) w c) w) (cut g p) := by
      intro l
      induction l with
      | nil =>
        intro w g p d h hp hdir hs hfuel hmem hall
        have hcut : cut g p = g := by
          funext q
          unfold cut
          split_ifs with hb
          · obtain ⟨n, r, rfl⟩ := below_iff.1 hb
            refine (h.closed.none_at_or_below (a := p ++ [n]) ?_ ⟨r, by simp⟩).symm
            cases hn : g (p ++ [n]) with
            | none => rfl
            | some c => exact absurd (hall n c hn) List.not_mem_nil
          · rfl
        rw [hcut]
        exact ⟨.refl, fun _ => rfl⟩
      | cons c l ihl =>
        intro w g p d h hp hdir hs hfuel hmem hall
        rw [List.foldl_cons]
        cases hrem : (w.ent c).removed with
        | true =>
          rw [if_pos rfl]
          refine ihl h hp hdir hs hfuel (fun x hx => hmem x (by simp [hx])) fun n x hx => ?_
          rcases List.mem_cons.1 (hall n x hx) with rfl | hx'
          · rw [hs _ _ (below_append_cons p n []) hx] at hrem
            cases hrem
          · exact hx'
        | false =>
          rw [if_neg (by simp)]
          obtain ⟨hlt, n, hn⟩ := h.childOf hp hdir (hmem c (by simp)) hrem
          have hs' : w.Settled g (p ++ [n]) := fun q i hb hq =>
            hs q i (prefix_trans_below (List.prefix_append _ _) hb) hq
          have r₁ := h.removeEntry (Writer.removeSubtree fuel) hn (by simp) hrem hs'
            fun hcd {v} hv sv hsv => ih hv hn (by rw [sv.isDir, hcd]) hsv (by rw [sv.next]; lia)
          have h₁ := r₁.run.tree h
          have hp₁ : prune g (p ++ [n]) p = some d := prune_some.2 ⟨fun hpre => by
            have := hpre.length_le
            simp at this, hp⟩
          have s₁ := r₁.run.shape
          have r₂ := ihl h₁ hp₁ (by rw [s₁.isDir, hdir])
            (fun q i hb hq => by
              rw [r₁.flags hq]
              exact hs q i hb (prune_some.1 hq).2)
            (by rw [s₁.next]; exact hfuel)
            (fun x hx => by
              rw [(s₁.place d).kids hdir]
              exact hmem x (by simp [hx]))
            (fun m x hx => by
              obtain ⟨hnp, hx⟩ := prune_some.1 hx
              rcases List.mem_cons.1 (hall m x hx) with rfl | hx'
              · exact absurd (h.inj hn hx ▸ List.prefix_rfl) hnp
              · exact hx')
          rw [cut_prune] at r₂
          refine r₁.trans r₂ fun {q i} hq => ?_
          obtain ⟨hnb, hq⟩ := cut_some.1 hq
          exact prune_some.2 ⟨fun hpre => hnb ((below_append_cons p n []).mono hpre), hq⟩
    intro w g p d h hp hdir hs hfuel
    refine hloop (w.ent d).children h hp hdir hs hfuel (fun c hc => hc) fun n c hc => ?_
    obtain ⟨d', hd', -, hmem, -⟩ := h.parentOf hc (by simp)
    rw [List.dropLast_concat, hp] at hd'
    rwa [Option.some.inj hd']

/-- In a tree with no removal under way, a registered path that is not cut off is where the
tree has it. -/
theorem Tree.byPath_eq (h : Tree w g) (hs : w.Settled g []) {p : Path}
    (hreg : g p = none → w.byPath p = none) : w.byPath p = g p := by
  cases hp : g p with
  | none => exact hreg hp
  | some i =>
    refine h.live hp ?_
    by_cases hne : p = []
    · subst hne
      rw [h.rootAt] at hp
      rw [← Option.some.inj hp, h.rootLive]
    · exact hs p i ⟨List.nil_prefix, Ne.symm hne⟩ hp

theorem Settled.mono {p q : Path} (hs : w.Settled g p) (hpq : p <+: q) : w.Settled g q :=
  fun x i hb hx => hs x i (prefix_trans_below hpq hb) hx

/-- `removeTree` takes away a path and everything below it. -/
theorem Tree.removeTree (h : Tree w g) (hs : w.Settled g []) {p : Path} (hne : p ≠ [])
    (hreg : g p = none → w.byPath p = none) : RemovesTo w g (w.removeTree p) (prune g p) := by
  unfold Writer.removeTree
  rw [h.byPath_eq hs hreg]
  cases hp : g p with
  | none =>
    rw [h.closed.prune_eq_self hp]
    exact ⟨.refl, fun _ => rfl⟩
  | some e =>
    have hlive := hs p e ⟨List.nil_prefix, Ne.symm hne⟩ hp
    exact h.removeEntry (Writer.removeSubtree w.next) hp hne hlive (hs.mono List.nil_prefix)
      fun hd {v} hv sv hsv =>
        Tree.removeSubtree w.next hv hp (by rw [sv.isDir, hd]) hsv (by rw [sv.next]; lia)

/-- `removeChildren` takes away everything below a directory. -/
theorem Tree.removeChildren (h : Tree w g) (hs : w.Settled g []) {p : Path}
    (hreg : g p = none → w.byPath p = none)
    (hdir : ∀ d, g p = some d → (w.ent d).isDir = true) :
    RemovesTo w g (w.removeChildren p) (cut g p) := by
  unfold Writer.removeChildren
  rw [h.byPath_eq hs hreg]
  cases hp : g p with
  | none =>
    rw [h.closed.cut_eq_self (fun d hd => by rw [hp] at hd; cases hd)]
    exact ⟨.refl, fun _ => rfl⟩
  | some d =>
    exact Tree.removeSubtree w.next h hp (hdir d hp) (hs.mono List.nil_prefix) (by lia)

/-- Nothing is under removal once a run of removals is over. -/
theorem RemovesTo.settled (r : RemovesTo w g w' g') (hs : w.Settled g [])
    (hsub : ∀ {q i}, g' q = some i → g q = some i) : w'.Settled g' [] :=
  fun q i hb hq => (r.flags hq).trans (hs q i hb (hsub hq))

end Removes

end Writer

end Erofs
