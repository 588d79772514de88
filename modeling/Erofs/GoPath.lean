import Mathlib

/-!
# Slash-separated byte paths

Go strings are byte strings, and the `path` package works on them one `/` at a
time.  This file is a small library for such paths: splitting and joining, the
element stack behind `path.Clean`, and the order and prefix facts that hold of
any list of path elements.

A *rooted* path is kept as the list of its elements, so that `/` is `[]` and
`/a/b` is `[a, b]`; `render` writes it back as a string and `elems_render`
recovers the elements, which is why nothing is lost by working on the lists.

The main results:

* `clean_eq_self` — a list of ordinary elements is a fixed point of cleaning,
  and `canonical_clean_rooted`: cleaning a rooted path always ends in one;
* `elems_render` — the list of elements is the string.
-/

namespace GoPath

/-- One byte of a string. -/
abbrev Byte := Fin 256

instance byteNeZero : NeZero 256 := ⟨by decide⟩

instance byteLawfulBEq : LawfulBEq Byte := inferInstance

/-- A Go string or byte slice. -/
abbrev Bytes := List Byte

/-- The bytes of ASCII text. -/
def ascii (cs : List Char) : Bytes := cs.map fun c => Fin.ofNat 256 c.toNat

/-- The byte NUL. -/
def nulByte : Byte := 0

/-- The separator `'/'`. -/
def slash : Byte := 47

/-- The byte `'.'`. -/
def dotByte : Byte := 46

/-- The element `"."`. -/
def dot : Bytes := [dotByte]

/-- The element `".."`. -/
def dotdot : Bytes := [dotByte, dotByte]

/-- A rooted path as the list of its elements: `/a/b` is `[a, b]`, `/` is `[]`. -/
abbrev Path := List Bytes

/-! ## Elements of a string -/

/-- `strings.Split(p, "/")`. -/
def split (p : Bytes) : List Bytes := p.splitOn slash

/-- `strings.Join(es, "/")`. -/
def join (es : List Bytes) : Bytes := [slash].intercalate es

/-- `path.IsAbs`. -/
def isAbs (p : Bytes) : Bool := p.head? == some slash

/-- A byte string that can be one element of a path. -/
def IsElem (e : Bytes) : Prop := e ≠ [] ∧ slash ∉ e

/-- An element that names an entry: neither `"."` nor `".."`. -/
def IsName (e : Bytes) : Prop := IsElem e ∧ e ≠ dot ∧ e ≠ dotdot

instance (e : Bytes) : Decidable (IsElem e) := inferInstanceAs (Decidable (_ ∧ _))

instance (e : Bytes) : Decidable (IsName e) := inferInstanceAs (Decidable (_ ∧ _))

/-- A path all of whose elements are names. -/
def Canonical (p : Path) : Prop := ∀ e ∈ p, IsName e

instance (p : Path) : Decidable (Canonical p) := inferInstanceAs (Decidable (∀ e ∈ p, IsName e))

/-! ## Cleaning -/

/-- One step of `path.Clean`: the elements kept so far, the last one first, and
the next element of the path.  An empty element and `"."` are dropped, `".."`
drops the element before it; where there is none to drop, a rooted path stays at
the root and any other keeps the `".."`. -/
def pushElem (rooted : Bool) (kept : List Bytes) (e : Bytes) : List Bytes :=
  if e = [] ∨ e = dot then kept
  else if e = dotdot then
    match kept with
    | [] => if rooted then [] else [dotdot]
    | top :: rest => if top = dotdot then dotdot :: top :: rest else rest
  else e :: kept

/-- The elements `path.Clean` keeps of a path with elements `es`. -/
def cleanElems (rooted : Bool) (es : List Bytes) : List Bytes :=
  (es.foldl (pushElem rooted) []).reverse

/-- `path.Clean`. -/
def clean (p : Bytes) : Bytes :=
  if isAbs p then slash :: join (cleanElems true (split p))
  else match cleanElems false (split p) with
    | [] => dot
    | es => join es

/-- The string of a rooted path. -/
def render (p : Path) : Bytes := slash :: join p

/-- `path.Dir` of a rooted path: its last element dropped and the rest cleaned. -/
def dir (p : Path) : Path := cleanElems true p.dropLast

/-- `path.Base` of a rooted path. -/
def base (p : Path) : Bytes := p.getLastD [slash]

/-- `path.Join(dir, e)` for one further element. -/
def joinElem (p : Path) (e : Bytes) : Path := cleanElems true (p ++ [e])

/-! ## Cleaning a canonical path -/

theorem pushElem_name {r : Bool} {kept : List Bytes} {e : Bytes} (h : IsName e) :
    pushElem r kept e = e :: kept := by
  obtain ⟨⟨hne, -⟩, hdot, hdd⟩ := h
  simp [pushElem, hne, hdot, hdd]

theorem foldl_pushElem_names {r : Bool} {es : List Bytes} (h : Canonical es) (kept : List Bytes) :
    es.foldl (pushElem r) kept = es.reverse ++ kept := by
  induction es generalizing kept with
  | nil => rfl
  | cons e es ih =>
    have he : IsName e := h e (by simp)
    rw [List.foldl_cons, pushElem_name he, ih (fun x hx => h x (by simp [hx]))]
    simp

/-- Cleaning leaves a path of ordinary names as it is. -/
theorem clean_eq_self {r : Bool} {es : List Bytes} (h : Canonical es) : cleanElems r es = es := by
  rw [cleanElems, foldl_pushElem_names h]
  simp

theorem Canonical.dropLast {p : Path} (h : Canonical p) : Canonical p.dropLast :=
  fun e he => h e (List.dropLast_subset p he)

theorem Canonical.append {p q : Path} (hp : Canonical p) (hq : Canonical q) :
    Canonical (p ++ q) := by
  intro e he
  rcases List.mem_append.1 he with h | h
  · exact hp e h
  · exact hq e h

theorem Canonical.mono {p q : Path} (hq : Canonical q) (h : p <+: q) : Canonical p :=
  fun e he => hq e (h.subset he)

theorem dir_of_canonical {p : Path} (h : Canonical p) : dir p = p.dropLast :=
  clean_eq_self h.dropLast

/-- Every element a rooted path keeps is a name: `".."` at the root goes nowhere. -/
theorem canonical_foldl_pushElem {es : List Bytes} (hs : ∀ e ∈ es, slash ∉ e) :
    ∀ {kept : List Bytes}, Canonical kept → Canonical (es.foldl (pushElem true) kept) := by
  induction es with
  | nil => intro kept hk; exact hk
  | cons e es ih =>
    intro kept hk
    refine ih (fun x hx => hs x (by simp [hx])) ?_
    by_cases h1 : e = [] ∨ e = dot
    · simpa [pushElem, h1] using hk
    by_cases h2 : e = dotdot
    · cases kept with
      | nil => simp [pushElem, h2, dotdot, dot, Canonical]
      | cons top rest =>
        have htop : top ≠ dotdot := (hk top (by simp)).2.2
        rw [pushElem, if_neg h1, if_pos h2]
        simp only [htop, if_false]
        exact fun x hx => hk x (by simp [hx])
    · rw [show pushElem true kept e = e :: kept by simp [pushElem, h1, h2]]
      push Not at h1
      intro x hx
      rcases List.mem_cons.1 hx with rfl | hx
      · exact ⟨⟨h1.1, hs x (by simp)⟩, h1.2, h2⟩
      · exact hk x hx

/-- Cleaning a rooted path gives a canonical one. -/
theorem canonical_clean_rooted {es : List Bytes} (hs : ∀ e ∈ es, slash ∉ e) :
    Canonical (cleanElems true es) := by
  intro e he
  rw [cleanElems, List.mem_reverse] at he
  exact canonical_foldl_pushElem hs (show Canonical [] by simp [Canonical]) e he

theorem slash_not_mem_split (p : Bytes) : ∀ e ∈ split p, slash ∉ e := by
  induction p with
  | nil => simp [split]
  | cons c cs ih =>
    intro e he
    rw [split, List.splitOn_cons_eq_if_modifyHead] at he
    split_ifs at he with hc
    · rcases List.mem_cons.1 he with rfl | he
      · simp
      · exact ih e he
    · cases hcs : cs.splitOn slash with
      | nil => exact absurd hcs (List.splitOn_ne_nil slash cs)
      | cons f fs =>
        rw [hcs, List.modifyHead_cons] at he
        rw [split, hcs] at ih
        rcases List.mem_cons.1 he with rfl | he
        · simp only [beq_iff_eq] at hc
          simp only [List.mem_cons, not_or]
          exact ⟨fun h => hc h.symm, ih f (by simp)⟩
        · exact ih e (by simp [he])

/-! ## The string of a path -/

theorem split_render {p : Path} (h : ∀ e ∈ p, slash ∉ e) (hne : p ≠ []) :
    split (render p) = [] :: p := by
  rw [split, render, ← List.nil_append (slash :: join p), List.splitOn_append_cons_self]
  rw [List.splitOn_nil, join, List.splitOn_intercalate slash h hne]
  rfl

/-- A rooted path is recovered from its string. -/
theorem elems_render {p : Path} (h : Canonical p) : cleanElems true (split (render p)) = p := by
  by_cases hp : p = []
  · subst hp
    decide
  · rw [split_render (fun e he => (h e he).1.2) hp]
    have : cleanElems true ([] :: p) = cleanElems true p := by
      simp [cleanElems, pushElem]
    rw [this, clean_eq_self h]

theorem join_append_singleton {p : Path} (hp : p ≠ []) (e : Bytes) :
    join (p ++ [e]) = join p ++ slash :: e := by
  induction p with
  | nil => exact absurd rfl hp
  | cons a p ih =>
    cases p with
    | nil => simp [join, List.intercalate]
    | cons b p =>
      have := ih (by simp)
      simp only [join, List.intercalate, List.cons_append, List.intersperse_cons_cons,
        List.flatten_cons] at this ⊢
      rw [this]
      simp

/-! ## Paths as strings of elements -/

/-- The number of components of a path that is walked. -/
def components (name : Bytes) : ℕ := if name = [] then 0 else name.count slash + 1

theorem join_cons_cons (a b : Bytes) (es : List Bytes) :
    join (a :: b :: es) = a ++ slash :: join (b :: es) := by
  simp [join, List.intercalate, List.intersperse_cons_cons]

/-- Between two elements there is one slash, and no element is empty. -/
theorem two_mul_count_join {es : List Bytes} (hne : es ≠ []) (h : ∀ e ∈ es, IsElem e) :
    2 * (join es).count slash < (join es).length := by
  induction es with
  | nil => exact absurd rfl hne
  | cons a es ih =>
    obtain ⟨ha, hslash⟩ := h a (by simp)
    have hpos : 0 < a.length := List.length_pos_of_ne_nil ha
    have hcount : a.count slash = 0 := List.count_eq_zero.2 hslash
    cases es with
    | nil => simpa [join, List.intercalate, hcount] using hpos
    | cons b es =>
      have hrest := ih (by simp) fun e he => h e (by simp [he])
      rw [join_cons_cons, List.count_append, List.count_cons_self, List.length_append,
        List.length_cons, hcount]
      omega

theorem join_split (p : Bytes) : join (split p) = p := List.intercalate_splitOn slash

theorem split_join {es : List Bytes} (hne : es ≠ []) (h : ∀ e ∈ es, slash ∉ e) :
    split (join es) = es := List.splitOn_intercalate slash h hne

theorem join_append {p q : List Bytes} (hp : p ≠ []) (hq : q ≠ []) :
    join (p ++ q) = join p ++ slash :: join q := by
  induction p with
  | nil => exact absurd rfl hp
  | cons a p ih =>
    obtain ⟨b, q, rfl⟩ := List.exists_cons_of_ne_nil hq
    cases p with
    | nil => simp [join, List.intercalate]
    | cons c p =>
      have hih := ih (by simp)
      rw [List.cons_append, List.cons_append, join_cons_cons, ← List.cons_append, hih,
        join_cons_cons]
      simp

theorem join_cons_eq (e : Bytes) (es : List Bytes) :
    join (e :: es) = e ++ if es = [] then [] else slash :: join es := by
  cases es with
  | nil => simp [join, List.intercalate]
  | cons b es => simp [join_cons_cons]

theorem not_isAbs_join {e : Bytes} (h : IsElem e) (es : List Bytes) :
    isAbs (join (e :: es)) = false := by
  obtain ⟨hne, hslash⟩ := h
  obtain ⟨c, cs, rfl⟩ := List.exists_cons_of_ne_nil hne
  have hc : c ≠ slash := fun h => hslash (by simp [h])
  simp [join_cons_eq, isAbs, hc]

theorem cleanElems_dot (r : Bool) (p q : List Bytes) :
    cleanElems r (p ++ [dot] ++ q) = cleanElems r (p ++ q) := by
  simp [cleanElems, List.foldl_append, pushElem]

/-- Cleaning a relative path, on its elements. -/
theorem clean_join {e : Bytes} {es : List Bytes} (he : IsElem e) (h : ∀ x ∈ es, slash ∉ x)
    (hne : cleanElems false (e :: es) ≠ []) :
    clean (join (e :: es)) = join (cleanElems false (e :: es)) := by
  have hall : ∀ x ∈ e :: es, slash ∉ x := by
    intro x hx
    rcases List.mem_cons.1 hx with rfl | hx
    · exact he.2
    · exact h x hx
  rw [clean, not_isAbs_join he, split_join (by simp) hall]
  simp only [Bool.false_eq_true, if_false]

end GoPath
