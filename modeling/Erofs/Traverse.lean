import Mathlib

/-!
# Traversals of a tree in a heap

A tree is often kept as nodes that list their children, and walked in one of two ways: depth first,
a node before what is under it, or breadth first, with a queue.  This file is a small library about
both walks, over any type of nodes.  What makes the nodes a tree is the structure `Hangs`: a child
is one name further down than its node and of smaller rank, and two nodes never stand at one
position.

The main results:

* `Hangs.mem_dfs`, `Hangs.nodup_dfs` — the depth-first walk meets every node under its start, once;
* `Hangs.bfs_perm` — the breadth-first walk meets the same nodes.
-/

namespace Traverse

variable {V E : Type*}

/-- The depth-first walk, `fuel` levels deep. -/
def dfs (kids : V → List V) : ℕ → V → List V
  | 0, _ => []
  | fuel + 1, v => v :: (kids v).flatMap (dfs kids fuel)

/-- The breadth-first walk of a queue, `fuel` nodes long. -/
def bfs (kids : V → List V) : ℕ → List V → List V
  | 0, _ => []
  | _ + 1, [] => []
  | fuel + 1, v :: queue => v :: bfs kids fuel (queue ++ kids v)

/-- The nodes are a tree: children hang one name below their node, and every position has one
node. -/
structure Hangs (node : V → Prop) (pos : V → List E) (rank : V → ℕ) (kids : V → List V) : Prop where
  kid : ∀ {v c}, node v → c ∈ kids v → node c
  below : ∀ {v c}, node v → c ∈ kids v → ∃ n, pos c = pos v ++ [n]
  /-- The certificate that no chain of children goes on for ever. -/
  rank_lt : ∀ {v c}, node v → c ∈ kids v → rank c < rank v
  inj : ∀ {v u}, node v → node u → pos v = pos u → v = u
  nodup : ∀ {v}, node v → (kids v).Nodup

namespace Hangs

variable {node : V → Prop} {pos : V → List E} {rank : V → ℕ} {kids : V → List V}

/-- The order of the children does not matter. -/
theorem of_perm {kids' : V → List V} (h : Hangs node pos rank kids)
    (hperm : ∀ {v}, node v → (kids' v).Perm (kids v)) : Hangs node pos rank kids' where
  kid hv hc := h.kid hv ((hperm hv).mem_iff.1 hc)
  below hv hc := h.below hv ((hperm hv).mem_iff.1 hc)
  rank_lt hv hc := h.rank_lt hv ((hperm hv).mem_iff.1 hc)
  inj := h.inj
  nodup hv := (hperm hv).nodup_iff.2 (h.nodup hv)

/-! ## Depth first -/

/-- Levels past the rank of the start do not matter. -/
theorem dfs_fuel (h : Hangs node pos rank kids) {v : V} (hv : node v) {f f' : ℕ}
    (hf : rank v < f) (hf' : rank v < f') : dfs kids f v = dfs kids f' v := by
  induction f generalizing v f' with
  | zero => omega
  | succ f ih =>
    obtain ⟨f', rfl⟩ : ∃ k, f' = k + 1 := ⟨f' - 1, by omega⟩
    rw [dfs, dfs]
    congr 1
    refine List.flatMap_congr fun c hc => ?_
    have hlt := h.rank_lt hv hc
    exact ih (h.kid hv hc) (by omega) (by omega)

/-- What the walk meets are nodes at or below its start. -/
theorem node_of_mem (h : Hangs node pos rank kids) {v : V} (hv : node v) {f : ℕ} {x : V}
    (hx : x ∈ dfs kids f v) : node x ∧ pos v <+: pos x := by
  induction f generalizing v with
  | zero => simp [dfs] at hx
  | succ f ih =>
    rw [dfs, List.mem_cons, List.mem_flatMap] at hx
    rcases hx with rfl | ⟨c, hc, hx⟩
    · exact ⟨hv, List.prefix_rfl⟩
    · obtain ⟨hnode, hpre⟩ := ih (h.kid hv hc) hx
      obtain ⟨n, hn⟩ := h.below hv hc
      rw [hn] at hpre
      exact ⟨hnode, (List.prefix_append _ _).trans hpre⟩

theorem self_mem {v : V} {f : ℕ} (hf : 0 < f) : v ∈ dfs kids f v := by
  obtain ⟨f, rfl⟩ : ∃ k, f = k + 1 := ⟨f - 1, by omega⟩
  rw [dfs]
  exact List.mem_cons_self

/-- The walk meets the children of every node it meets. -/
theorem kid_mem (h : Hangs node pos rank kids) {v : V} (hv : node v) {f : ℕ} (hf : rank v < f)
    {x c : V} (hx : x ∈ dfs kids f v) (hc : c ∈ kids x) : c ∈ dfs kids f v := by
  induction f generalizing v with
  | zero => omega
  | succ f ih =>
    rw [dfs, List.mem_cons, List.mem_flatMap] at hx ⊢
    right
    rcases hx with rfl | ⟨u, hu, hx⟩
    · have hlt := h.rank_lt hv hc
      exact ⟨c, hc, self_mem (by omega)⟩
    · have hlt := h.rank_lt hv hu
      exact ⟨u, hu, ih (h.kid hv hu) (by omega) hx⟩

/-- Where every other node hangs under a node, the walk meets all of them. -/
theorem mem_dfs (h : Hangs node pos rank kids) {v : V} (hv : node v) {f : ℕ} (hf : rank v < f)
    (hup : ∀ x, node x → x ≠ v → ∃ u, node u ∧ x ∈ kids u) {x : V} (hx : node x) :
    x ∈ dfs kids f v := by
  induction hn : (pos x).length using Nat.strong_induction_on generalizing x with
  | _ n ih =>
    by_cases hxv : x = v
    · rw [hxv]
      exact self_mem (by omega)
    · obtain ⟨u, hu, hxu⟩ := hup x hx hxv
      obtain ⟨m, hm⟩ := h.below hu hxu
      have hlen : (pos u).length < n := by
        rw [← hn, hm, List.length_append, List.length_singleton]
        omega
      exact h.kid_mem hv hf (ih _ hlen hu rfl) hxu

/-- The walk meets no node twice. -/
theorem nodup_dfs (h : Hangs node pos rank kids) {v : V} (hv : node v) {f : ℕ} :
    (dfs kids f v).Nodup := by
  induction f generalizing v with
  | zero => exact List.nodup_nil
  | succ f ih =>
    rw [dfs, List.nodup_cons, List.nodup_flatMap]
    refine ⟨fun hself => ?_, fun c hc => ih (h.kid hv hc), (h.nodup hv).imp_of_mem ?_⟩
    · obtain ⟨c, hc, hx⟩ := List.mem_flatMap.1 hself
      have hlen := (h.node_of_mem (h.kid hv hc) hx).2.length_le
      obtain ⟨n, hn⟩ := h.below hv hc
      simp [hn] at hlen
    · -- Two children stand at different positions of one length, so nothing is below both.
      intro a b ha hb hne x hxa hxb
      refine hne (h.inj (h.kid hv ha) (h.kid hv hb) ?_)
      obtain ⟨n, hn⟩ := h.below hv ha
      obtain ⟨m, hm⟩ := h.below hv hb
      have hpa := (h.node_of_mem (h.kid hv ha) hxa).2
      have hpb := (h.node_of_mem (h.kid hv hb) hxb).2
      refine (List.prefix_of_prefix_length_le hpa hpb ?_).eq_of_length ?_ <;> simp [hn, hm]

/-! ## Breadth first -/

/-- The queue is worked off to what the depth-first walks of its members meet. -/
theorem bfs_perm (h : Hangs node pos rank kids) {n fuel : ℕ} {queue : List V}
    (hq : ∀ v ∈ queue, node v ∧ rank v < n)
    (hfuel : (queue.flatMap (dfs kids n)).length ≤ fuel) :
    (bfs kids fuel queue).Perm (queue.flatMap (dfs kids n)) := by
  induction fuel generalizing queue with
  | zero =>
    rw [List.length_eq_zero_iff.1 (Nat.le_zero.1 hfuel)]
    exact List.Perm.refl _
  | succ fuel ih =>
    cases queue with
    | nil => exact List.Perm.refl _
    | cons v queue =>
      obtain ⟨hv, hrank⟩ := hq v List.mem_cons_self
      have hkids : (kids v).flatMap (dfs kids (n - 1)) = (kids v).flatMap (dfs kids n) := by
        refine List.flatMap_congr fun c hc => ?_
        have hlt := h.rank_lt hv hc
        exact h.dfs_fuel (h.kid hv hc) (by omega) (by omega)
      have hone : dfs kids n v = v :: (kids v).flatMap (dfs kids n) := by
        rw [← hkids]
        obtain ⟨n, rfl⟩ : ∃ k, n = k + 1 := ⟨n - 1, by omega⟩
        rw [dfs, Nat.add_sub_cancel]
      have hwalks : (v :: queue).flatMap (dfs kids n) =
          v :: ((kids v).flatMap (dfs kids n) ++ queue.flatMap (dfs kids n)) := by
        rw [List.flatMap_cons, hone, List.cons_append]
      have hswap : ((queue ++ kids v).flatMap (dfs kids n)).Perm
          ((kids v).flatMap (dfs kids n) ++ queue.flatMap (dfs kids n)) := by
        rw [List.flatMap_append]
        exact List.perm_append_comm
      rw [bfs, hwalks]
      refine ((ih (fun u hu => ?_) ?_).trans hswap).cons v
      · rcases List.mem_append.1 hu with hu | hu
        · exact hq u (List.mem_cons_of_mem _ hu)
        · exact ⟨h.kid hv hu, (h.rank_lt hv hu).trans hrank⟩
      · rw [hwalks, List.length_cons] at hfuel
        rw [hswap.length_eq]
        omega

end Hangs

end Traverse
