import Erofs.Writer.Copying

/-!
# Removing the root

A marker can name the root.  `removeTree` then drops the root's own name first and removes what is
below it afterwards.  Nothing below depends on that name, so the order does not matter: what is left
is an emptied tree whose root has lost its name.

The main result: `Copying.removeTree_root`.
-/

namespace Erofs

open GoPath PathTree

namespace Writer

variable {w : Writer} {g : Path → Option EntryId} {S : Set Path}

/-- The Writer once the name of its root is dropped. -/
def dropRoot (w : Writer) : Writer := w.dropName w.root

theorem dropRoot_ent {i : EntryId} (hi : i ≠ w.root) : w.dropRoot.ent i = w.ent i := by
  rw [dropRoot, dropName_ent, if_neg hi]

@[simp] theorem dropRoot_next (w : Writer) : w.dropRoot.next = w.next := rfl

@[simp] theorem dropRoot_root (w : Writer) : w.dropRoot.root = w.root := rfl

theorem dropRoot_children (w : Writer) (i : EntryId) :
    (w.dropRoot.ent i).children = (w.ent i).children := by
  rw [dropRoot, dropName_ent]
  split_ifs with hi
  · rw [hi]
  · rfl

theorem dropRoot_isDir (w : Writer) (i : EntryId) :
    (w.dropRoot.ent i).isDir = (w.ent i).isDir := by
  rw [dropRoot, dropName_ent]
  split_ifs with hi
  · rw [hi]
    rfl
  · rfl

/-- No directory of the tree has the root for a child. -/
theorem Tree.child_ne_root (h : Tree w g) {p : Path} {d c : EntryId} (hp : g p = some d)
    (hdir : (w.ent d).isDir = true) (hc : c ∈ (w.ent d).children) : c ≠ w.root := by
  rintro rfl
  obtain ⟨-, n, hn⟩ := h.childOf hp hdir hc h.rootLive
  have := h.inj hn h.rootAt
  simp at this

/-- The walk of `promoteAlias` does not look at the root's name. -/
theorem Tree.aliasesBelow_dropRoot (h : Tree w g) {t : EntryId} {fuel : ℕ} {p : Path} {d : EntryId}
    (hp : g p = some d) (hdir : (w.ent d).isDir = true) :
    w.dropRoot.aliasesBelow t fuel d = w.aliasesBelow t fuel d := by
  induction fuel generalizing p d with
  | zero => rfl
  | succ fuel ih =>
    rw [aliasesBelow, aliasesBelow, dropRoot_children]
    refine List.flatMap_congr fun c hc => ?_
    rw [dropRoot_ent (h.child_ne_root hp hdir hc)]
    by_cases hrem : (w.ent c).removed = true
    · rw [if_pos hrem, if_pos hrem]
    · rw [if_neg hrem, if_neg hrem]
      by_cases hcd : (w.ent c).isDir = true
      · obtain ⟨-, n, hn⟩ := h.childOf hp hdir hc (by simpa using hrem)
        rw [if_pos hcd, if_pos hcd, ih hn hcd]
      · rw [if_neg hcd, if_neg hcd]

theorem Tree.sortedAliases_dropRoot (h : Tree w g) (t : EntryId) :
    w.dropRoot.sortedAliases t = w.sortedAliases t := by
  have hpath : ∀ i, (w.dropRoot.ent i).path = (w.ent i).path := by
    intro i
    rw [dropRoot, dropName_ent]
    split_ifs with hi
    · rw [hi]
    · rfl
  unfold sortedAliases
  simp only [hpath, dropRoot_next, dropRoot_root]
  rw [h.aliasesBelow_dropRoot h.rootAt h.rootDir]

/-! ## The steps of a removal -/

theorem modify_dropRoot {i : EntryId} {f : FsEntry → FsEntry} (hi : i ≠ w.root) :
    w.dropRoot.modify i f = (w.modify i f).dropRoot := by
  unfold dropRoot dropName modify
  simp only [Function.update_of_ne hi, Function.update_of_ne hi.symm, Function.update_comm hi]

theorem foldl_modify_dropRoot (f : FsEntry → FsEntry) {l : List EntryId} (hl : w.root ∉ l) :
    l.foldl (fun w a => w.modify a f) w.dropRoot =
      (l.foldl (fun w a => w.modify a f) w).dropRoot := by
  induction l generalizing w with
  | nil => rfl
  | cons a l ih =>
    obtain ⟨ha, hl⟩ : w.root ≠ a ∧ w.root ∉ l := by simpa using hl
    rw [List.foldl_cons, List.foldl_cons, modify_dropRoot ha.symm]
    exact ih hl

theorem dropName_dropRoot {c : EntryId} (hc : c ≠ w.root) :
    w.dropRoot.dropName c = (w.dropName c).dropRoot := by
  have hnames : ∀ (b : Path → Option EntryId) (x y : Path),
      Function.update (Function.update b x none) y none =
        Function.update (Function.update b y none) x none := by
    intro b x y
    by_cases hxy : x = y
    · rw [hxy]
    · exact Function.update_comm hxy _ _ _
  unfold dropRoot dropName modify
  simp only [Function.update_of_ne hc, Function.update_of_ne hc.symm, Function.update_comm hc]
  rw [hnames]

theorem Tree.promoteAlias_dropRoot (h : Tree w g) {t : EntryId} (ht : t ≠ w.root) :
    w.dropRoot.promoteAlias t = (w.promoteAlias t).dropRoot := by
  unfold Writer.promoteAlias
  rw [h.sortedAliases_dropRoot t]
  cases hs : w.sortedAliases t with
  | nil => exact modify_dropRoot ht
  | cons heir others =>
    have hne : ∀ c ∈ heir :: others, c ≠ w.root := by
      rintro c hc rfl
      obtain ⟨p, hp, hg, -⟩ := h.alias_facts (hs ▸ hc)
      exact hp (h.inj hg h.rootAt)
    have hothers : w.root ∉ others := fun hr => hne _ (List.mem_cons_of_mem _ hr) rfl
    set w₁ := w.modify heir fun h => takeover (w.ent t) h others.length with hw₁
    have htakes : w.dropRoot.modify heir (fun h => takeover (w.dropRoot.ent t) h others.length) =
        w₁.dropRoot := by
      rw [dropRoot_ent ht]
      exact modify_dropRoot (hne heir List.mem_cons_self)
    set f : FsEntry → FsEntry := fun e => { e with linkTo := some heir } with hf
    obtain ⟨ent', he⟩ := foldl_modify_frame f others w₁
    have hroot : t ≠ (others.foldl (fun w a => w.modify a f) w₁).root := by
      rw [he]
      exact ht
    dsimp only
    rw [htakes, foldl_modify_dropRoot (w := w₁) f hothers, modify_dropRoot hroot]
    rfl

/-- Unlinking an entry does not depend on the root's name. -/
theorem Tree.unlinkEntry_dropRoot (h : Tree w g) {p : Path} {c : EntryId} (hp : g p = some c)
    (hne : p ≠ []) (hlive : (w.ent c).removed = false) :
    w.dropRoot.unlinkEntry c = (w.unlinkEntry c).dropRoot := by
  have hc : c ≠ w.root := by
    rintro rfl
    exact hne (h.inj hp h.rootAt)
  unfold Writer.unlinkEntry
  rw [dropRoot_ent hc]
  cases hl : (w.ent c).linkTo with
  | some t =>
    have ht : t ≠ w.root := by
      rintro rfl
      have := (h.aliasOf (h.live hp hlive) hl).2.2.1
      rw [h.rootDir] at this
      cases this
    dsimp only
    rw [dropName_dropRoot hc]
    exact modify_dropRoot (w := w.dropName c) ht
  | none =>
    dsimp only
    rw [dropName_dropRoot hc]
    split_ifs
    · exact (h.dropName hp hne hl).promoteAlias_dropRoot hc
    · rfl

/-- What is below a directory is removed the same way with and without the root's name. -/
theorem Tree.removeSubtree_dropRoot (fuel : ℕ) : ∀ {w : Writer} {g : Path → Option EntryId}
    {p : Path} {d : EntryId}, Tree w g → g p = some d → (w.ent d).isDir = true → w.Settled g p →
    w.next ≤ d + fuel →
    Writer.removeSubtree fuel w.dropRoot d = (Writer.removeSubtree fuel w d).dropRoot := by
  induction fuel with
  | zero => exact fun _ _ _ _ _ => rfl
  | succ fuel ih =>
    -- the loop over the children still to be visited
    have hloop : ∀ (l : List EntryId) {w : Writer} {g : Path → Option EntryId} {p : Path}
        {d : EntryId}, Tree w g → g p = some d → (w.ent d).isDir = true → w.Settled g p →
        w.next ≤ d + (fuel + 1) → (∀ c ∈ l, c ∈ (w.ent d).children) →
        l.foldl (fun w c => if (w.ent c).removed then w
            else Writer.removeEntry (Writer.removeSubtree fuel) w c) w.dropRoot =
          (l.foldl (fun w c => if (w.ent c).removed then w
            else Writer.removeEntry (Writer.removeSubtree fuel) w c) w).dropRoot := by
      intro l
      induction l with
      | nil => exact fun _ _ _ _ _ _ => rfl
      | cons c l ihl =>
        intro w g p d h hp hdir hs hfuel hmem
        have hc := hmem c List.mem_cons_self
        have hrest : ∀ x ∈ l, x ∈ (w.ent d).children := fun x hx =>
          hmem x (List.mem_cons_of_mem _ hx)
        rw [List.foldl_cons, List.foldl_cons, dropRoot_ent (h.child_ne_root hp hdir hc)]
        cases hrem : (w.ent c).removed with
        | true =>
          rw [if_pos rfl, if_pos rfl]
          exact ihl h hp hdir hs hfuel hrest
        | false =>
          rw [if_neg (by simp), if_neg (by simp)]
          obtain ⟨hlt, n, hn⟩ := h.childOf hp hdir hc hrem
          have hs' : w.Settled g (p ++ [n]) := fun q i hb hq =>
            hs q i (prefix_trans_below (List.prefix_append _ _) hb) hq
          have hentry : Writer.removeEntry (Writer.removeSubtree fuel) w.dropRoot c =
              (Writer.removeEntry (Writer.removeSubtree fuel) w c).dropRoot := by
            unfold Writer.removeEntry
            rw [h.unlinkEntry_dropRoot hn (by simp) hrem, dropRoot_isDir]
            split_ifs with hcd
            · obtain ⟨h₁, s₁⟩ := h.unlinkEntry hn (by simp) hrem
              rw [s₁.shape.isDir] at hcd
              rw [unlinked, if_pos hcd] at h₁
              refine ih h₁ hn (by rw [s₁.shape.isDir, hcd]) (fun q i hb hq => ?_)
                (by rw [s₁.shape.next]; lia)
              rw [s₁.removed, if_neg]
              · exact hs' q i hb hq
              · rintro rfl
                exact hb.2 (h.inj hn hq)
            · rfl
          have r₁ := h.removeEntry (Writer.removeSubtree fuel) hn (by simp) hrem hs'
            fun hcd {v} hv sv hsv =>
              Tree.removeSubtree fuel hv hn (by rw [sv.isDir, hcd]) hsv (by rw [sv.next]; lia)
          have s₁ := r₁.run.shape
          rw [hentry]
          refine ihl (r₁.run.tree h) (prune_some.2 ⟨fun hpre => ?_, hp⟩) (by rw [s₁.isDir, hdir])
            (fun q i hb hq => ?_) (by rw [s₁.next]; exact hfuel) fun x hx => ?_
          · have := hpre.length_le
            simp at this
          · rw [r₁.flags hq]
            exact hs q i hb (prune_some.1 hq).2
          · rw [(s₁.place d).kids hdir]
            exact hrest x hx
    intro w g p d h hp hdir hs hfuel
    rw [Writer.removeSubtree, Writer.removeSubtree, dropRoot_children]
    exact hloop (w.ent d).children h hp hdir hs hfuel fun c hc => hc

/-- **A marker of the root** empties the tree, and the root loses its name. -/
theorem Copying.removeTree_root (h : Copying w g S) :
    w.removeTree [] = (w.removeChildren []).dropRoot := by
  have hroot : w.byPath [] = some w.root := h.tree.live h.tree.rootAt h.tree.rootLive
  obtain ⟨hl, hx⟩ := h.tree.dirPlain h.tree.rootAt h.tree.rootDir
  have hunlink : w.unlinkEntry w.root = w.dropRoot := by
    unfold Writer.unlinkEntry
    rw [hl]
    dsimp only
    rw [hx, if_neg (lt_irrefl 0)]
    rfl
  unfold Writer.removeTree Writer.removeChildren
  rw [hroot]
  dsimp only
  unfold Writer.removeEntry
  rw [hunlink, dropRoot_isDir, if_pos h.tree.rootDir]
  exact Tree.removeSubtree_dropRoot w.next h.tree h.tree.rootAt h.tree.rootDir h.settled (by lia)

end Writer

end Erofs
