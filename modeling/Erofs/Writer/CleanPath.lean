import Erofs.Writer.State

/-!
# Cleaning paths

`cleanPath` (`mkfs.go`) on strings, as the source computes it, and when its result is canonical.  A
path that is not rooted and has more `".."` than names before some point cleans to one that begins
with `".."`; `cleanPath` puts a slash in front of it and keeps it.

The main result is `cleanPathOk_iff`: the result is canonical exactly for the paths that do not
climb above where they start.
-/

namespace GoPath

/-! ## Climbing -/

/-- The element names an entry, or would where it holds no slash. -/
def Proper (e : Bytes) : Prop := e ≠ [] ∧ e ≠ dot ∧ e ≠ dotdot

instance (e : Bytes) : Decidable (Proper e) := inferInstanceAs (Decidable (_ ∧ _))

/-- From depth `n`, the elements `es` climb above depth zero nowhere. -/
def StaysBelow (n : ℕ) (es : List Bytes) : Prop :=
  ∀ t ∈ es.inits, t.count dotdot ≤ n + t.countP (Proper ·)

instance (n : ℕ) (es : List Bytes) : Decidable (StaysBelow n es) :=
  inferInstanceAs (Decidable (∀ t ∈ es.inits, _))

theorem staysBelow_nil (n : ℕ) : StaysBelow n [] := by
  simp [StaysBelow]

theorem staysBelow_cons {n : ℕ} {e : Bytes} {es : List Bytes} : StaysBelow n (e :: es) ↔
    ∀ t ∈ es.inits, (e :: t).count dotdot ≤ n + (e :: t).countP (Proper ·) := by
  simp [StaysBelow]

theorem staysBelow_skip {n : ℕ} {e : Bytes} {es : List Bytes} (h : e = [] ∨ e = dot) :
    StaysBelow n (e :: es) ↔ StaysBelow n es := by
  have hne : e ≠ dotdot := by rcases h with rfl | rfl <;> decide
  have hp : ¬ Proper e := by rcases h with rfl | rfl <;> decide
  rw [staysBelow_cons]
  refine forall₂_congr fun t _ => ?_
  rw [List.count_cons_of_ne hne, List.countP_cons_of_neg (by simpa using hp)]

theorem staysBelow_name {n : ℕ} {e : Bytes} {es : List Bytes} (h : Proper e) :
    StaysBelow n (e :: es) ↔ StaysBelow (n + 1) es := by
  rw [staysBelow_cons]
  refine forall₂_congr fun t _ => ?_
  rw [List.count_cons_of_ne h.2.2, List.countP_cons_of_pos (by simpa using h)]
  omega

theorem staysBelow_up {n : ℕ} {es : List Bytes} :
    StaysBelow (n + 1) (dotdot :: es) ↔ StaysBelow n es := by
  rw [staysBelow_cons]
  refine forall₂_congr fun t _ => ?_
  rw [List.count_cons_self, List.countP_cons_of_neg (by decide)]
  omega

theorem not_staysBelow_zero {es : List Bytes} : ¬ StaysBelow 0 (dotdot :: es) := by
  rw [staysBelow_cons]
  intro h
  have := h [] (by simp)
  exact absurd this (by decide)

/-- An element is dropped, goes up or is kept. -/
theorem elem_cases (e : Bytes) : (e = [] ∨ e = dot) ∨ e = dotdot ∨ Proper e := by
  by_cases h1 : e = [] ∨ e = dot
  · exact .inl h1
  by_cases h2 : e = dotdot
  · exact .inr (.inl h2)
  · exact .inr (.inr ⟨(not_or.1 h1).1, (not_or.1 h1).2, h2⟩)

section Push

variable {r : Bool} {kept : List Bytes} {e : Bytes}

theorem pushElem_skip (h : e = [] ∨ e = dot) : pushElem r kept e = kept := by
  unfold pushElem
  exact if_pos h

theorem pushElem_proper (h : Proper e) : pushElem r kept e = e :: kept := by
  unfold pushElem
  rw [if_neg (not_or.2 ⟨h.1, h.2.1⟩), if_neg h.2.2]

theorem pushElem_up {top : Bytes} {rest : List Bytes} (h : top ≠ dotdot) :
    pushElem r (top :: rest) dotdot = rest := by
  unfold pushElem
  rw [if_neg (by decide), if_pos rfl]
  exact if_neg h

theorem pushElem_climb : pushElem false [] dotdot = [dotdot] := by decide

theorem pushElem_root : pushElem true [] dotdot = [] := by decide

theorem pushElem_climbed {rest : List Bytes} :
    pushElem r (dotdot :: rest) dotdot = dotdot :: dotdot :: rest := by
  unfold pushElem
  rw [if_neg (by decide), if_pos rfl]
  exact if_pos rfl

/-- One step keeps only what was kept and the element itself. -/
theorem pushElem_subset {x : Bytes} (h : x ∈ pushElem r kept e) :
    x ∈ kept ∨ (x = e ∧ e ≠ [] ∧ e ≠ dot) := by
  rcases elem_cases e with he | rfl | he
  · rw [pushElem_skip he] at h
    exact .inl h
  · have hdd : dotdot ≠ [] ∧ dotdot ≠ dot := by decide
    cases kept with
    | nil =>
      cases r with
      | true =>
        rw [pushElem_root] at h
        cases h
      | false => exact .inr ⟨List.mem_singleton.1 (pushElem_climb ▸ h), hdd⟩
    | cons top rest =>
      by_cases htop : top = dotdot
      · subst htop
        rw [pushElem_climbed] at h
        exact (List.mem_cons.1 h).elim (fun hx => .inr ⟨hx, hdd⟩) .inl
      · rw [pushElem_up htop] at h
        exact .inl (List.mem_cons_of_mem _ h)
  · rw [pushElem_proper he] at h
    exact (List.mem_cons.1 h).elim (fun hx => .inr ⟨hx, he.1, he.2.1⟩) .inl

end Push

/-- What cleaning keeps are elements of the path, none of them empty or `"."`. -/
theorem mem_foldl_pushElem {r : Bool} {es kept : List Bytes} {e : Bytes}
    (h : e ∈ es.foldl (pushElem r) kept) : e ∈ kept ∨ (e ∈ es ∧ e ≠ [] ∧ e ≠ dot) := by
  induction es generalizing kept with
  | nil => exact .inl h
  | cons x es ih =>
    rcases ih h with hk | ⟨he, hne⟩
    · rcases pushElem_subset hk with hk | ⟨rfl, hne⟩
      · exact .inl hk
      · exact .inr ⟨List.mem_cons_self, hne⟩
    · exact .inr ⟨List.mem_cons_of_mem _ he, hne⟩

/-- A `".."` that is kept stays. -/
theorem dotdot_mem_foldl {es kept : List Bytes} (h : dotdot ∈ kept) :
    dotdot ∈ es.foldl (pushElem false) kept := by
  induction es generalizing kept with
  | nil => exact h
  | cons e es ih =>
    refine ih ?_
    rcases elem_cases e with he | rfl | he
    · rwa [pushElem_skip he]
    · cases kept with
      | nil => cases h
      | cons top rest =>
        by_cases htop : top = dotdot
        · rw [htop, pushElem_climbed]
          exact List.mem_cons_self
        · rw [pushElem_up htop]
          exact (List.mem_cons.1 h).resolve_left fun hx => htop hx.symm
    · rw [pushElem_proper he]
      exact List.mem_cons_of_mem _ h

/-- Without climbing, a path is cleaned as if it were rooted. -/
theorem foldl_pushElem_rooted {es kept : List Bytes} (hk : dotdot ∉ kept)
    (h : StaysBelow kept.length es) :
    es.foldl (pushElem false) kept = es.foldl (pushElem true) kept := by
  induction es generalizing kept with
  | nil => rfl
  | cons e es ih =>
    rw [List.foldl_cons, List.foldl_cons]
    rcases elem_cases e with he | rfl | he
    · rw [pushElem_skip he, pushElem_skip he]
      exact ih hk ((staysBelow_skip he).1 h)
    · cases kept with
      | nil => exact absurd h not_staysBelow_zero
      | cons top rest =>
        have htop : top ≠ dotdot := fun hx => hk (hx ▸ List.mem_cons_self)
        rw [pushElem_up htop, pushElem_up htop]
        exact ih (fun hm => hk (List.mem_cons_of_mem _ hm)) (staysBelow_up.1 h)
    · rw [pushElem_proper he, pushElem_proper he]
      refine ih (fun hm => ?_) ((staysBelow_name he).1 h)
      exact (List.mem_cons.1 hm).elim (fun hx => he.2.2 hx.symm) hk

/-- A path that climbs keeps a `".."`. -/
theorem dotdot_mem_of_climbs {es kept : List Bytes} (hk : dotdot ∉ kept)
    (h : ¬ StaysBelow kept.length es) : dotdot ∈ es.foldl (pushElem false) kept := by
  induction es generalizing kept with
  | nil => exact absurd (staysBelow_nil _) h
  | cons e es ih =>
    rw [List.foldl_cons]
    rcases elem_cases e with he | rfl | he
    · rw [pushElem_skip he]
      exact ih hk (mt (staysBelow_skip he).2 h)
    · cases kept with
      | nil =>
        rw [pushElem_climb]
        exact dotdot_mem_foldl List.mem_cons_self
      | cons top rest =>
        have htop : top ≠ dotdot := fun hx => hk (hx ▸ List.mem_cons_self)
        rw [pushElem_up htop]
        exact ih (fun hm => hk (List.mem_cons_of_mem _ hm)) (mt staysBelow_up.2 h)
    · rw [pushElem_proper he]
      refine ih (fun hm => ?_) (mt (staysBelow_name he).2 h)
      exact (List.mem_cons.1 hm).elim (fun hx => he.2.2 hx.symm) hk

/-- A path string that is rooted or does not climb above where it starts. -/
def StaysInside (p : Bytes) : Prop := isAbs p = true ∨ StaysBelow 0 (split p)

instance (p : Bytes) : Decidable (StaysInside p) := inferInstanceAs (Decidable (_ ∨ _))

theorem cleanElems_rooted {p : Bytes} (h : StaysInside p) :
    cleanElems (isAbs p) (split p) = cleanElems true (split p) := by
  cases hp : isAbs p with
  | true => rfl
  | false =>
    have hb : StaysBelow 0 (split p) := h.resolve_left (by simp [hp])
    rw [cleanElems, @foldl_pushElem_rooted _ [] List.not_mem_nil hb]
    rfl

theorem dotdot_mem_cleanElems {p : Bytes} (h : ¬ StaysInside p) :
    dotdot ∈ cleanElems (isAbs p) (split p) := by
  obtain ⟨hp, hb⟩ := not_or.1 h
  rw [Bool.eq_false_of_not_eq_true hp, cleanElems, List.mem_reverse]
  exact dotdot_mem_of_climbs List.not_mem_nil hb

end GoPath

namespace Erofs

open GoPath

/-! ## `cleanPath` -/

/-- `cleanPath` on strings. -/
def cleanPathString (p : Bytes) : Bytes :=
  if p = [] ∨ p = dot ∨ p = [slash] then [slash]
  else
    let p := clean p
    if p = dot then [slash]
    else if isAbs p then p
    else slash :: p

theorem cleanPath_elem {p : Bytes} {e : Bytes} (h : e ∈ cleanPath p) :
    e ≠ [] ∧ e ≠ dot ∧ slash ∉ e := by
  rw [cleanPath, cleanElems, List.mem_reverse] at h
  rcases mem_foldl_pushElem h with h | ⟨h, hne, hdot⟩
  · cases h
  · exact ⟨hne, hdot, slash_not_mem_split p e h⟩

theorem isAbs_join {es : List Bytes} (hne : es ≠ []) (h : ∀ e ∈ es, e ≠ [] ∧ slash ∉ e) :
    isAbs (join es) = false := by
  obtain ⟨e, es, rfl⟩ := List.exists_cons_of_ne_nil hne
  obtain ⟨he, hslash⟩ := h e List.mem_cons_self
  obtain ⟨c, e, rfl⟩ := List.exists_cons_of_ne_nil he
  have hc : c ≠ slash := fun hx => hslash (hx ▸ List.mem_cons_self)
  have hhead : (join ((c :: e) :: es)).head? = some c := by
    cases es with
    | nil => simp [join, List.intercalate]
    | cons x es => simp [join, List.intercalate]
  simp [isAbs, hhead, hc]

theorem join_ne_dot {es : List Bytes} (h : ∀ e ∈ es, e ≠ [] ∧ e ≠ dot ∧ slash ∉ e) :
    join es ≠ dot := by
  intro heq
  by_cases hne : es = []
  · rw [hne] at heq
    exact absurd heq (by decide)
  · have hsplit : split (join es) = es :=
      List.splitOn_intercalate slash (fun e he => (h e he).2.2) hne
    rw [heq] at hsplit
    exact (h dot (hsplit ▸ by decide)).2.1 rfl

/-- The elements the model keys `byPath` by are those of the string the source keys it by. -/
theorem cleanPathString_eq (p : Bytes) : cleanPathString p = render (cleanPath p) := by
  unfold cleanPathString
  by_cases h1 : p = [] ∨ p = dot ∨ p = [slash]
  · rw [if_pos h1]
    rcases h1 with rfl | rfl | rfl <;> decide
  rw [if_neg h1]
  dsimp only
  cases hp : isAbs p with
  | true =>
    have hclean : clean p = render (cleanPath p) := by
      rw [clean, if_pos hp, render, cleanPath, hp]
    have habs : isAbs (render (cleanPath p)) = true := rfl
    rw [hclean, if_neg (by simp [render, dot, dotByte, slash]), if_pos habs]
  | false =>
    have hpath : cleanPath p = cleanElems false (split p) := by rw [cleanPath, hp]
    have helem : ∀ e ∈ cleanPath p, e ≠ [] ∧ e ≠ dot ∧ slash ∉ e := fun e => cleanPath_elem
    cases hes : cleanPath p with
    | nil =>
      have hclean : clean p = dot := by
        rw [clean, if_neg (by simp [hp]), ← hpath, hes]
      rw [hclean, if_pos rfl]
      rfl
    | cons e es =>
      rw [hes] at helem
      have hclean : clean p = join (e :: es) := by
        rw [clean, if_neg (by simp [hp]), ← hpath, hes]
      have habs : isAbs (join (e :: es)) = false :=
        isAbs_join (by simp) fun x hx => ⟨(helem x hx).1, (helem x hx).2.2⟩
      rw [hclean, if_neg (join_ne_dot helem), habs]
      rfl

/-- A string that ends in a slash has an empty last element. -/
theorem nil_mem_split_tail {s : Bytes} (h : s.getLast? = some slash) : [] ∈ (split s).tail := by
  obtain ⟨t, rfl⟩ := List.getLast?_eq_some_iff.1 h
  rw [split, List.splitOn_append_cons_self, List.tail_append_of_ne_nil (List.splitOn_ne_nil _ _)]
  exact List.mem_append_right _ List.mem_cons_self

/-- What a canonical path string is: rooted, with proper elements only and no slash at its end but
the root's, left alone by cleaning, and the key of the rooted spelling too. -/
structure CleanPathOk (p : Bytes) : Prop where
  rooted : isAbs (cleanPathString p) = true
  elems : cleanPathString p = [slash] ∨ ∀ e ∈ (split (cleanPathString p)).tail, Proper e
  noTrailing : cleanPathString p = [slash] ∨ (cleanPathString p).getLast? ≠ some slash
  idem : cleanPathString (cleanPathString p) = cleanPathString p
  spelling : cleanPathString (slash :: p) = cleanPathString p

theorem cleanPath_rooted {p : Bytes} (h : StaysInside p) :
    cleanPath p = cleanElems true (split p) :=
  cleanElems_rooted h

/-- A path that does not climb is cleaned to a canonical one. -/
theorem canonical_cleanPath {p : Bytes} (h : StaysInside p) : Canonical (cleanPath p) := by
  rw [cleanPath_rooted h]
  exact canonical_clean_rooted (slash_not_mem_split p)

/-- A slash in front of a path makes it rooted and changes nothing else. -/
theorem cleanPath_slash (p : Bytes) : cleanPath (slash :: p) = cleanElems true (split p) := by
  have habs : isAbs (slash :: p) = true := rfl
  have hsplit : split (slash :: p) = [] :: split p := by
    rw [split, List.splitOn_cons_eq_if_modifyHead, if_pos (by simp)]
    rfl
  rw [cleanPath, habs, hsplit, cleanElems, List.foldl_cons, pushElem_skip (.inl rfl)]
  rfl

/-- **Cleaning.**  The cleaned path is canonical exactly when the path is rooted or does not climb
above where it starts. -/
theorem cleanPathOk_iff (p : Bytes) : CleanPathOk p ↔ StaysInside p := by
  constructor
  · intro h
    by_contra hclimb
    have hmem : dotdot ∈ cleanPath p := dotdot_mem_cleanElems hclimb
    have hne : cleanPath p ≠ [] := List.ne_nil_of_mem hmem
    have hsplit : split (cleanPathString p) = [] :: cleanPath p := by
      rw [cleanPathString_eq]
      exact split_render (fun e he => (cleanPath_elem he).2.2) hne
    rcases h.elems with hroot | helems
    · rw [hroot] at hsplit
      have : cleanPath p = [[]] := (List.cons.inj hsplit).2.symm
      rw [this] at hmem
      exact absurd hmem (by decide)
    · rw [hsplit] at helems
      exact (helems dotdot hmem).2.2 rfl
  · intro h
    have hc := canonical_cleanPath h
    have hstr := cleanPathString_eq p
    have hsplit : cleanPath p ≠ [] → split (cleanPathString p) = [] :: cleanPath p := fun hne => by
      rw [hstr, split_render (fun e he => (hc e he).1.2) hne]
    have helems : cleanPathString p = [slash] ∨
        ∀ e ∈ (split (cleanPathString p)).tail, Proper e := by
      by_cases hne : cleanPath p = []
      · exact .inl (by rw [hstr, hne]; rfl)
      · right
        rw [hsplit hne]
        exact fun e he => ⟨(hc e he).1.1, (hc e he).2⟩
    refine ⟨by rw [hstr]; rfl, helems, ?_, ?_, ?_⟩
    · exact helems.imp_right fun hall hlast => (hall [] (nil_mem_split_tail hlast)).1 rfl
    · rw [cleanPathString_eq (cleanPathString p), hstr, cleanPath_render hc]
    · rw [cleanPathString_eq, hstr, cleanPath_slash, cleanPath_rooted h]

end Erofs
