import Erofs.Reader.Stat

/-!
# Stored attributes

What an xattr area says, apart from how it is read.  An attribute is stored as an entry (`Stored`):
a name index, the rest of the name and the value; entries follow each other at multiples of four
(`Stores`).  A name is put together from the index's prefix and the rest (`nameOf`), and an
attribute listed twice is refused (`add`).

`loadXattrs` sees an area through windows of at most a block, loaded again wherever its cursor runs
out of bytes.  The invariant of its loop is that what is left of the window is what the area has
at the cursor (`XattrCursor.On`).

The main results:

* `inlineXattrs_yields` — the inline loop accepts what the area stores and nothing else;
* `inlineXattrs_settles`, `xattrValue_settles` — the loops end by themselves, in every world;
* `inlineXattrs_asks` — what they ask for is what loading a window asks for.
-/

namespace Erofs

open GoPath LittleEndian Oracle

/-! ## Entries -/

/-- The first `n` bytes of `b`, none if it has fewer. -/
def exactly (b : Bytes) (n : ℕ) : Option Bytes := if n ≤ b.length then some (b.take n) else none

theorem exactly_of_le {b : Bytes} {n : ℕ} (h : n ≤ b.length) : exactly b n = some (b.take n) :=
  if_pos h

theorem exactly_of_lt {b : Bytes} {n : ℕ} (h : b.length < n) : exactly b n = none :=
  if_neg (by omega)

theorem exactly_eq_some {b v : Bytes} {n : ℕ} :
    exactly b n = some v ↔ n ≤ b.length ∧ b.take n = v := by
  unfold exactly
  split_ifs with h <;> simp [h]

theorem length_of_exactly {b v : Bytes} {n : ℕ} (h : exactly b n = some v) : v.length = n := by
  obtain ⟨hn, rfl⟩ := exactly_eq_some.1 h
  rw [List.length_take, min_eq_left hn]

/-- The first `m` bytes are the first `n` and then the rest of them. -/
theorem exactly_split {buf b : Bytes} {n m : ℕ} (hn : n ≤ m) (h : n ≤ b.length) :
    (exactly b m).map (buf ++ ·) =
      (exactly (b.drop n) (m - n)).map (buf ++ b.take n ++ ·) := by
  by_cases hm : m ≤ b.length
  · rw [exactly_of_le hm, exactly_of_le (by rw [List.length_drop]; omega), Option.map_some,
      Option.map_some, List.append_assoc, ← List.take_add, Nat.add_sub_cancel' hn]
  · rw [exactly_of_lt (by omega), exactly_of_lt (by rw [List.length_drop]; omega)]
    rfl

/-- An attribute as an entry stores it. -/
structure Stored where
  index : ℕ
  suffix : Bytes
  value : Bytes
  deriving DecidableEq

namespace Stored

/-- The bytes of an entry, without the padding behind it. -/
def size (s : Stored) : ℕ := Disk.sizeXattrEntry + s.suffix.length + s.value.length

/-- The entry at the start of `b`, none if `b` ends inside it. -/
def parse (b : Bytes) : Option Stored :=
  let e := xattrEntryAt b
  (exactly b Disk.sizeXattrEntry).bind fun _ =>
    (exactly (b.drop Disk.sizeXattrEntry) e.nameLen).bind fun suffix =>
      (exactly ((b.drop Disk.sizeXattrEntry).drop e.nameLen) e.valueLen).map fun value =>
        ⟨e.nameIndex, suffix, value⟩

/-- An entry is there when its header and what the header counts are. -/
theorem parse_of_le {b : Bytes} {e : XattrEntry} (he : xattrEntryAt b = e)
    (h : Disk.sizeXattrEntry + (e.nameLen + e.valueLen) ≤ b.length) :
    parse b = some ⟨e.nameIndex, (b.drop Disk.sizeXattrEntry).take e.nameLen,
      ((b.drop Disk.sizeXattrEntry).drop e.nameLen).take e.valueLen⟩ := by
  rw [parse, he, exactly_of_le (by omega), exactly_of_le (by rw [List.length_drop]; omega),
    exactly_of_le (by simp only [List.length_drop]; omega)]
  rfl

theorem parse_of_lt {b : Bytes} {e : XattrEntry} (he : xattrEntryAt b = e)
    (h : b.length < Disk.sizeXattrEntry + (e.nameLen + e.valueLen)) : parse b = none := by
  rw [parse, he]
  by_cases h4 : b.length < Disk.sizeXattrEntry
  · rw [exactly_of_lt h4]
    rfl
  by_cases hn : (b.drop Disk.sizeXattrEntry).length < e.nameLen
  · rw [exactly_of_lt hn]
    cases exactly b Disk.sizeXattrEntry <;> rfl
  · have hv : ((b.drop Disk.sizeXattrEntry).drop e.nameLen).length < e.valueLen := by
      simp only [List.length_drop] at hn ⊢
      omega
    rw [exactly_of_lt hv]
    cases exactly b Disk.sizeXattrEntry <;>
      cases exactly (b.drop Disk.sizeXattrEntry) e.nameLen <;> rfl

/-- An entry that is there takes what its header counts, and all of it is there. -/
theorem size_of_parse {b : Bytes} {s : Stored} (h : parse b = some s) :
    s.size = Disk.sizeXattrEntry + ((xattrEntryAt b).nameLen + (xattrEntryAt b).valueLen) ∧
      s.size ≤ b.length := by
  by_cases hlen : b.length <
      Disk.sizeXattrEntry + ((xattrEntryAt b).nameLen + (xattrEntryAt b).valueLen)
  · rw [parse_of_lt rfl hlen] at h
    cases h
  · rw [parse_of_le rfl (Nat.le_of_not_lt hlen)] at h
    cases h
    simp only [size, List.length_take, List.length_drop]
    omega

end Stored

/-- The next multiple of four. -/
def align4 (n : ℕ) : ℕ := n + (4 - n % 4) % 4

theorem le_align4 (n : ℕ) : n ≤ align4 n := Nat.le_add_right ..

/-- From `pos` on, `b` stores the attributes `l`, the last of them ending at `stop` or past it. -/
inductive Stores (b : Bytes) (stop : ℕ) : ℕ → List Stored → Prop
  | done {pos : ℕ} (h : stop ≤ pos) : Stores b stop pos []
  | next {pos : ℕ} {s : Stored} {l : List Stored} (h : pos < stop)
      (hs : Stored.parse (b.drop pos) = some s) (hl : Stores b stop (align4 (pos + s.size)) l) :
      Stores b stop pos (s :: l)

/-- What is stored between two positions is settled by the bytes. -/
theorem Stores.unique {b : Bytes} {stop pos : ℕ} {l l' : List Stored} (h : Stores b stop pos l)
    (h' : Stores b stop pos l') : l = l' := by
  induction h generalizing l' with
  | done hend =>
    cases h' with
    | done _ => rfl
    | next h _ _ => omega
  | next hpos hs _ ih =>
    cases h' with
    | done h => omega
    | next _ hs' hl' =>
      rw [hs, Option.some.injEq] at hs'
      subst hs'
      rw [ih hl']

/-- An entry is read the same from every byte string that starts alike and holds its header. -/
theorem xattrEntryAt_of_isPrefix {b b' : Bytes} (hb : b <+: b')
    (h : Disk.sizeXattrEntry ≤ b.length) :
    xattrEntryAt b = xattrEntryAt b' := by
  have h4 : 4 ≤ b.length := h
  simp only [xattrEntryAt, field_of_isPrefix hb (show 0 + 1 ≤ b.length by omega),
    field_of_isPrefix hb (show 1 + 1 ≤ b.length by omega),
    field_of_isPrefix hb (show 2 + 2 ≤ b.length by omega)]

theorem nameLen_lt (b : Bytes) : (xattrEntryAt b).nameLen < 256 := field_lt b 0 1

/-! ## Names -/

/-- One more attribute, none if it is there already. -/
def addName (xs : Xattrs) (name value : Bytes) : Option Xattrs :=
  if (xs.lookup name).isSome then none else some (xs ++ [(name, value)])

theorem setXattr_mirrors {full : Prop} (nid : ℕ) (xs : Xattrs) (name value : Bytes) :
    Mirrors full Eq (setXattr nid xs name value) (addName xs name value) := by
  unfold setXattr addName
  split_ifs
  · exact .fail _
  · exact .ok rfl

namespace Image

section Names

variable (img : Image)

/-- The prefix a name index stands for. -/
def prefixOf (index : ℕ) : Option Bytes :=
  if index &&& 0x80 ≠ 0 then img.longPrefixes[index &&& 0x7f]?
  else if index = 0 then some []
  else if xattrIndexString index ≠ [] then some (xattrIndexString index) else none

/-- The name of a stored attribute. -/
def nameOf (s : Stored) : Option Bytes := (img.prefixOf s.index).map (· ++ s.suffix)

/-- One more stored attribute. -/
def add (xs : Xattrs) (s : Stored) : Option Xattrs :=
  (img.nameOf s).bind fun name => addName xs name s.value

/-- The attributes after those stored in `b` from `pos` to `stop`. -/
def Decodes (b : Bytes) (stop pos : ℕ) (xs out : Xattrs) : Prop :=
  ∃ l, Stores b stop pos l ∧ l.foldlM img.add xs = some out

/-- The attribute stored in `b` at `pos`, added, and where the next one is. -/
def takeStored (b : Bytes) (pos : ℕ) (xs : Xattrs) : Option (ℕ × Xattrs) :=
  (Stored.parse (b.drop pos)).bind fun s =>
    (img.add xs s).map fun ys => (align4 (pos + s.size), ys)

/-- Where shared attribute number `i` of an area is. -/
def sharedAddr (area : Bytes) (i : ℕ) : ℕ :=
  img.sb.xattrBlkAddr * img.blockSize + field area (Disk.sizeXattrBodyHeader + i * 4) 4 * 4

/-- The attributes after `k` shared ones of an area from number `i` on, `look` giving what is stored
at an address. -/
def takeShared (look : ℕ → Option Stored) (area : Bytes) : ℕ → ℕ → Xattrs → Option Xattrs
  | 0, _, xs => some xs
  | k + 1, i, xs =>
    (exactly (area.drop (Disk.sizeXattrBodyHeader + i * 4)) 4).bind fun _ =>
      ((look (img.sharedAddr area i)).bind (img.add xs)).bind fun ys =>
        takeShared look area k (i + 1) ys

/-- The number of shared attributes an area declares. -/
def sharedCount (area : Bytes) : ℕ := field area 4 1

/-- Where the inline entries of an area start. -/
def inlineStart (area : Bytes) : ℕ := Disk.sizeXattrBodyHeader + sharedCount area * 4

/-- What an area lists: the shared attributes `ss` it refers to, then the attributes `l` it stores
up to `stop`. -/
structure Lists (look : ℕ → Option Stored) (area : Bytes) (stop : ℕ) (ss l : List Stored)
    (out : Xattrs) : Prop where
  room : inlineStart area ≤ area.length
  refs : (List.range (sharedCount area)).map (fun i => look (img.sharedAddr area i)) = ss.map some
  entries : Stores area stop (inlineStart area) l
  names : (ss ++ l).foldlM img.add [] = some out

end Names

variable {img : Image} {full : Prop} {b : Bytes} {stop pos : ℕ} {xs out : Xattrs}

theorem Lists.unique {look : ℕ → Option Stored} {ss l ss' l' : List Stored} {out' : Xattrs}
    (h : img.Lists look b stop ss l out) (h' : img.Lists look b stop ss' l' out') :
    ss = ss' ∧ l = l' := by
  have hss := h.refs.symm.trans h'.refs
  exact ⟨List.map_injective_iff.2 (Option.some_injective _) hss, h.entries.unique h'.entries⟩

/-- Finding more at the references keeps what is listed. -/
theorem Lists.mono {look look' : ℕ → Option Stored} {ss l : List Stored}
    (h : img.Lists look b stop ss l out) (hlook : ∀ a s, look a = some s → look' a = some s) :
    img.Lists look' b stop ss l out := by
  refine ⟨h.room, ?_, h.entries, h.names⟩
  rw [← h.refs]
  refine List.map_congr_left fun i hi => ?_
  have hmem : look (img.sharedAddr b i) ∈ ss.map some := by
    rw [← h.refs]
    exact List.mem_map_of_mem hi
  obtain ⟨s, -, hs⟩ := List.mem_map.1 hmem
  rw [← hs]
  exact hlook _ _ hs.symm

theorem getLongPrefix_mirrors (index : ℕ) :
    Mirrors full Eq (img.getLongPrefix index) img.longPrefixes[index]? := by
  unfold getLongPrefix
  cases img.longPrefixes[index]? with
  | none => exact .fail _
  | some p => exact .ok rfl

theorem xattrIndexPrefix_mirrors (index : ℕ) : Mirrors full Eq (xattrIndexPrefix index)
    (if index = 0 then some []
      else if xattrIndexString index ≠ [] then some (xattrIndexString index) else none) := by
  unfold xattrIndexPrefix
  split_ifs
  · exact .ok rfl
  · exact .ok rfl
  · exact .fail _

theorem entryPrefix_mirrors (img : Image) (nid : ℕ) (where_ : String) (e : XattrEntry) :
    Mirrors full Eq (img.entryPrefix nid where_ e) (img.prefixOf e.nameIndex) := by
  unfold entryPrefix prefixOf
  split_ifs with hlong
  · exact (getLongPrefix_mirrors _).mapError _
  all_goals
    have h : Mirrors full Eq _ _ := (xattrIndexPrefix_mirrors e.nameIndex).mapError fun err =>
      err.wrap (where_ ++ " xattr for nid %d: %w") [.int nid]
    simpa [*] using h

/-- An index the format leaves undefined has no spelling. -/
theorem xattrIndexString_undefined {index : ℕ} (h : 6 < index) : xattrIndexString index = [] := by
  obtain ⟨i, rfl⟩ : ∃ i, index = i + 1 := ⟨index - 1, by omega⟩
  have hlen : xattrPrefixes.length = 6 := rfl
  exact List.getD_eq_default _ _ (by omega)

/-- What is listed is put under its name, in order. -/
theorem forall₂_of_foldlM {l : List Stored} {xs : Xattrs} (h : l.foldlM img.add xs = some out) :
    ∃ ys, out = xs ++ ys ∧
      List.Forall₂ (fun s y => img.nameOf s = some y.1 ∧ y.2 = s.value) l ys := by
  induction l generalizing xs with
  | nil =>
    cases h
    exact ⟨[], (List.append_nil _).symm, .nil⟩
  | cons s l ih =>
    rw [List.foldlM_cons] at h
    obtain ⟨xs', hadd, h⟩ := Option.bind_eq_some_iff.1 h
    obtain ⟨name, hname, hadd⟩ := Option.bind_eq_some_iff.1 hadd
    unfold addName at hadd
    split_ifs at hadd
    cases hadd
    obtain ⟨ys, rfl, hys⟩ := ih h
    exact ⟨(name, s.value) :: ys, by simp, .cons ⟨hname, rfl⟩ hys⟩

theorem decodes_stop (h : stop ≤ pos) : img.Decodes b stop pos xs out ↔ xs = out := by
  constructor
  · rintro ⟨l, hl, hout⟩
    cases hl with
    | done => simpa using hout
    | next h' => omega
  · rintro rfl
    exact ⟨[], .done h, rfl⟩

theorem decodes_step (h : pos < stop) : img.Decodes b stop pos xs out ↔
    ∃ v, img.takeStored b pos xs = some v ∧ img.Decodes b stop v.1 v.2 out := by
  constructor
  · rintro ⟨l, hl, hout⟩
    cases hl with
    | done h' => omega
    | @next _ s l _ hs hl =>
      rw [List.foldlM_cons] at hout
      obtain ⟨ys, hys, hout⟩ := Option.bind_eq_some_iff.1 hout
      refine ⟨(align4 (pos + s.size), ys), ?_, l, hl, hout⟩
      rw [takeStored, hs, Option.bind_some, hys, Option.map_some]
  · rintro ⟨v, hv, l, hl, hout⟩
    obtain ⟨s, hs, hv⟩ := Option.bind_eq_some_iff.1 hv
    obtain ⟨ys, hys, rfl⟩ := Option.map_eq_some_iff.1 hv
    refine ⟨s :: l, .next h hs hl, ?_⟩
    rw [List.foldlM_cons]
    exact Option.bind_eq_some_iff.2 ⟨ys, hys, hout⟩

/-- A step takes at least an entry's header. -/
theorem takeStored_pos {v : ℕ × Xattrs} (h : img.takeStored b pos xs = some v) :
    pos + Disk.sizeXattrEntry ≤ v.1 := by
  obtain ⟨s, hs, hv⟩ := Option.bind_eq_some_iff.1 h
  obtain ⟨ys, -, rfl⟩ := Option.map_eq_some_iff.1 hv
  have := le_align4 (pos + s.size)
  simp only [Stored.size] at this ⊢
  omega

/-- The step in the order of `loadXattrs`: the prefix is looked up before the name is there. -/
theorem takeStored_eq {rest : Bytes} {e : XattrEntry} (hr : b.drop pos = rest)
    (he : xattrEntryAt rest = e) :
    img.takeStored b pos xs =
      (exactly rest Disk.sizeXattrEntry).bind fun _ =>
      (img.prefixOf e.nameIndex).bind fun pre =>
      (exactly (rest.drop Disk.sizeXattrEntry) e.nameLen).bind fun suffix =>
      (exactly ((rest.drop Disk.sizeXattrEntry).drop e.nameLen) e.valueLen).bind fun value =>
      (addName xs (pre ++ suffix) value).map fun ys =>
        (align4 (pos + Disk.sizeXattrEntry + e.nameLen + e.valueLen), ys) := by
  rw [takeStored, hr, Stored.parse, he]
  cases exactly rest Disk.sizeXattrEntry with
  | none => rfl
  | some _ =>
    cases hn : exactly (rest.drop Disk.sizeXattrEntry) e.nameLen with
    | none => cases img.prefixOf e.nameIndex <;> rfl
    | some suffix =>
      cases hv : exactly ((rest.drop Disk.sizeXattrEntry).drop e.nameLen) e.valueLen with
      | none => cases img.prefixOf e.nameIndex <;> rfl
      | some value =>
        simp only [Option.bind_some, Option.map_some, add, nameOf, Stored.size,
          length_of_exactly hn, length_of_exactly hv, Nat.add_assoc]
        cases img.prefixOf e.nameIndex <;> rfl

/-! ## The cursor -/

/-- What is left of the window is what the area has at the cursor. -/
def XattrCursor.On (area : Bytes) (c : XattrCursor) : Prop := c.xb <+: area.drop c.pos

variable {area : Bytes} {c : XattrCursor} {o : Req → Answer} {nid addr xsize : ℕ}

theorem XattrCursor.On.skip (h : c.On area) (n : ℕ) : (c.skip n).On area := by
  have := List.IsPrefix.drop h n
  rwa [List.drop_drop] at this

theorem XattrCursor.On.length_le (h : c.On area) : c.xb.length ≤ (area.drop c.pos).length :=
  List.IsPrefix.length_le h

theorem XattrCursor.On.take (h : c.On area) {n : ℕ} (hn : n ≤ c.xb.length) :
    c.xb.take n = (area.drop c.pos).take n := by
  rw [List.prefix_iff_eq_take.1 h, List.take_take, min_eq_left hn]

/-- Loading a window of the area gives what the area has there, up to a block, and fails past the
area's end; where it is `full` it fails there only. -/
def Windows (img : Image) (full : Prop) (o : Req → Answer) (nid addr xsize : ℕ) (area : Bytes) :
    Prop :=
  ∀ pos, Mirrors full Eq ((img.loadBody nid addr xsize pos).run o)
    (if area.length ≤ pos then none else some ((area.drop pos).take img.blockSize))

theorem ensureBytes_mirrors (hw : img.Windows full o nid addr xsize area) (hc : c.On area) {n : ℕ}
    (hn : n ≤ img.blockSize) (short : GoError) :
    Mirrors full (fun c' v => c'.pos = c.pos ∧ c'.On area ∧ n ≤ c'.xb.length ∧ c'.xb.take n = v)
      ((img.ensureBytes nid addr xsize c n short).run o) (exactly (area.drop c.pos) n) := by
  unfold ensureBytes
  by_cases hxb : n ≤ c.xb.length
  · rw [if_pos hxb, exactly_of_le (le_trans hxb hc.length_le)]
    exact .ok ⟨rfl, hc, hxb, hc.take hxb⟩
  rw [if_neg hxb, Prog.exec_bind]
  have hload := hw c.pos
  generalize (img.loadBody nid addr xsize c.pos).run o = r at hload
  by_cases hend : area.length ≤ c.pos
  · rw [if_pos hend] at hload
    rw [exactly_of_lt (by rw [List.length_drop]; omega)]
    cases hload
    exact .fail _
  rw [if_neg hend] at hload
  cases hload with
  | error e h => exact .error _ fun hfull => absurd (h hfull) (Option.some_ne_none _)
  | ok h =>
    subst h
    dsimp only
    rw [Prog.run_done]
    by_cases hlen : n ≤ (area.drop c.pos).length
    · have hle : n ≤ ((area.drop c.pos).take img.blockSize).length := by
        rw [List.length_take]
        omega
      rw [exactly_of_le hlen, if_pos hle]
      refine .ok ⟨rfl, List.take_prefix .., hle, ?_⟩
      rw [List.take_take, min_eq_left hn]
    · rw [exactly_of_lt (by omega), if_neg (by rw [List.length_take]; omega)]
      exact .fail _

theorem xattrValue_mirrors (hw : img.Windows full o nid addr xsize area) {fuel remaining : ℕ}
    (buf : Bytes) (hc : c.On area) (hf : remaining ≤ fuel) :
    Mirrors full (fun r v => r.1.pos = c.pos + remaining ∧ r.1.On area ∧ r.2 = v)
      ((img.xattrValue nid addr xsize fuel remaining c buf).run o)
      ((exactly (area.drop c.pos) remaining).map (buf ++ ·)) := by
  have hzero : (exactly (area.drop c.pos) 0).map (buf ++ ·) = some buf := by
    rw [exactly_of_le (Nat.zero_le _), Option.map_some, List.take_zero, List.append_nil]
  induction fuel generalizing remaining c buf with
  | zero =>
    obtain rfl : remaining = 0 := by omega
    rw [hzero]
    exact .ok ⟨rfl, hc, rfl⟩
  | succ fuel ih =>
    rw [xattrValue]
    by_cases h0 : remaining = 0
    · subst h0
      rw [if_pos rfl, hzero]
      exact .ok ⟨rfl, hc, rfl⟩
    rw [if_neg h0, Prog.exec_bind]
    have hens := ensureBytes_mirrors hw hc (n := 1) Nat.one_le_two_pow
      (errorf "empty xattr block while reading value: %w" [] .corrupt)
    generalize (img.ensureBytes nid addr xsize c 1 _).run o = r at hens
    by_cases h1 : 1 ≤ (area.drop c.pos).length
    · rw [exactly_of_le h1] at hens
      cases hens with
      | error e h => exact .error _ fun hfull => absurd (h hfull) (Option.some_ne_none _)
      | @ok c' _ h =>
        obtain ⟨hpos, hon, hlen, -⟩ := h
        have hle := hon.length_le
        rw [hpos] at hle
        generalize hn : min remaining c'.xb.length = n
        have hstep := ih (buf ++ c'.xb.take n) (hon.skip n)
          (show remaining - n ≤ fuel by omega) (by
            rw [exactly_of_le (Nat.zero_le _), Option.map_some, List.take_zero, List.append_nil])
        have hdrop : area.drop (c'.skip n).pos = (area.drop c.pos).drop n := by
          rw [List.drop_drop, ← hpos]
          rfl
        have htake : c'.xb.take n = (area.drop c.pos).take n := by
          rw [← hpos]
          exact hon.take (by omega)
        rw [hdrop, htake, ← exactly_split (by omega) (by omega)] at hstep
        dsimp only
        rw [hn, htake]
        refine hstep.mono fun r v hr => ⟨?_, hr.2⟩
        rw [hr.1, XattrCursor.skip, hpos, Nat.add_assoc, Nat.add_sub_cancel' (by omega)]
    · rw [exactly_of_lt (by omega)] at hens
      rw [exactly_of_lt (by omega)]
      cases hens
      exact .fail _

theorem inlineXattr_mirrors (hw : img.Windows full o nid addr xsize area)
    (hbs : 256 ≤ img.blockSize) (hc : c.On area) (xs : Xattrs) :
    Mirrors full (fun r v => r.1.pos = v.1 ∧ r.1.On area ∧ r.2 = v.2)
      ((img.inlineXattr nid addr xsize c xs).run o) (img.takeStored area c.pos xs) := by
  rw [takeStored_eq rfl rfl, inlineXattr]
  refine (ensureBytes_mirrors hw hc (by unfold Disk.sizeXattrEntry; omega) _).tryBind ?_
  rintro c₁ - ⟨hpos₁, hon₁, hlen₁, -⟩
  have hentry : xattrEntryAt c₁.xb = xattrEntryAt (area.drop c.pos) := by
    rw [← hpos₁]
    exact xattrEntryAt_of_isPrefix hon₁ hlen₁
  dsimp only
  rw [hentry]
  generalize he : xattrEntryAt (area.drop c.pos) = e
  have hpre : Mirrors full Eq _ _ := img.entryPrefix_mirrors nid "inline" e
  generalize img.entryPrefix nid "inline" e = r at hpre
  generalize img.prefixOf e.nameIndex = p at hpre ⊢
  cases hpre with
  | error err h => exact .error _ fun hfull => by rw [h hfull, Option.bind_none]
  | @ok pre _ h =>
    subst h
    have hrest : (area.drop c.pos).drop Disk.sizeXattrEntry =
        area.drop (c₁.skip Disk.sizeXattrEntry).pos := by
      rw [List.drop_drop, ← hpos₁]
      rfl
    have hname : e.nameLen ≤ img.blockSize := by
      have := nameLen_lt (area.drop c.pos)
      rw [he] at this
      omega
    rw [Option.bind_some, hrest]
    refine (ensureBytes_mirrors hw (hon₁.skip _) hname _).tryBind ?_
    rintro c₂ suffix ⟨hpos₂, hon₂, -, rfl⟩
    have hrest₂ : (area.drop (c₁.skip Disk.sizeXattrEntry).pos).drop e.nameLen =
        area.drop (c₂.skip e.nameLen).pos := by
      rw [List.drop_drop, ← hpos₂]
      rfl
    have hvalue := xattrValue_mirrors hw [] (hon₂.skip e.nameLen) (le_refl e.valueLen)
    simp only [List.nil_append, Option.map_id'] at hvalue
    rw [hrest₂]
    refine hvalue.tryBind ?_
    rintro r value ⟨hpos₃, hon₃, rfl⟩
    rw [Prog.run_done]
    have hset : Mirrors full Eq _ _ := setXattr_mirrors nid xs (pre ++ c₂.xb.take e.nameLen) r.2
    generalize setXattr nid xs (pre ++ c₂.xb.take e.nameLen) r.2 = s at hset
    generalize addName xs (pre ++ c₂.xb.take e.nameLen) r.2 = t at hset ⊢
    cases hset with
    | error err h => exact .error _ fun hfull => by rw [h hfull, Option.map_none]
    | ok h =>
      subst h
      refine .ok ⟨?_, hon₃.skip _, rfl⟩
      have hend : c.pos + Disk.sizeXattrEntry + e.nameLen + e.valueLen = r.1.pos := by
        rw [hpos₃, XattrCursor.skip, hpos₂, XattrCursor.skip, hpos₁]
      rw [hend]
      rfl

/-- **The inline loop.** What `loadXattrs` accepts is what the area stores. -/
theorem inlineXattrs_yields (hw : img.Windows full o nid addr xsize area)
    (hbs : 256 ≤ img.blockSize) {fuel : ℕ} (hf : xsize ≤ c.pos + fuel) (hc : c.On area) :
    Yields full ((img.inlineXattrs nid addr xsize fuel c xs).run o)
      (img.Decodes area xsize c.pos xs) := by
  induction fuel generalizing c xs with
  | zero =>
    refine .of_iff fun out => ?_
    rw [decodes_stop (by omega), inlineXattrs, Prog.run_done, Except.ok.injEq]
  | succ fuel ih =>
    rw [inlineXattrs]
    by_cases hend : xsize ≤ c.pos
    · refine .of_iff fun out => ?_
      rw [if_pos hend, decodes_stop hend, Prog.run_done, Except.ok.injEq]
    rw [if_neg hend, Prog.exec_bind]
    have hm := inlineXattr_mirrors hw hbs hc xs
    generalize (img.inlineXattr nid addr xsize c xs).run o = r at hm
    generalize ht : img.takeStored area c.pos xs = t at hm
    have hdecodes : ∀ out, img.Decodes area xsize c.pos xs out ↔
        ∃ v, t = some v ∧ img.Decodes area xsize v.1 v.2 out := by
      intro out
      rw [decodes_step (by omega), ht]
    cases hm with
    | error e h =>
      refine .error fun hfull out hout => ?_
      obtain ⟨v, hv, -⟩ := (hdecodes out).1 hout
      rw [h hfull] at hv
      cases hv
    | @ok r v h =>
      obtain ⟨hpos, hon, hxs⟩ := h
      have hstep := takeStored_pos ht
      unfold Disk.sizeXattrEntry at hstep
      refine (ih (by omega) hon).congr fun out => ?_
      rw [hdecodes, hpos, hxs]
      simp

/-! ## Shared attributes -/

theorem sharedXattr_mirrors (img : Image) (nid : ℕ) (sb : Bytes) (xs : Xattrs) :
    Mirrors full Eq (img.sharedXattr nid sb xs) ((Stored.parse sb).bind (img.add xs)) := by
  rw [sharedXattr]
  by_cases h4 : sb.length < Disk.sizeXattrEntry
  · rw [if_pos h4, Stored.parse_of_lt rfl (by omega)]
    exact .fail _
  rw [if_neg h4]
  dsimp only
  generalize he : xattrEntryAt sb = e
  have hpre : Mirrors full Eq _ _ := img.entryPrefix_mirrors nid "shared" e
  generalize img.entryPrefix nid "shared" e = r at hpre ⊢
  by_cases hlen : (sb.drop Disk.sizeXattrEntry).length < e.nameLen + e.valueLen
  · rw [Stored.parse_of_lt he (by rw [List.length_drop] at hlen; omega)]
    cases r with
    | error err => exact .fail _
    | ok pre =>
      simp only [if_pos hlen]
      exact .fail _
  · rw [Stored.parse_of_le he (by rw [List.length_drop] at hlen; omega), Option.bind_some, add,
      nameOf]
    generalize img.prefixOf e.nameIndex = p at hpre
    cases hpre with
    | error err h => exact .error _ fun hfull => by rw [h hfull]; rfl
    | @ok pre _ h =>
      subst h
      simp only [if_neg hlen]
      exact setXattr_mirrors ..

theorem run_reload {xb : Bytes} {n : ℕ} {short : GoError} :
    Prog.run o (if n ≤ xb.length then .done (.ok xb)
      else (img.loadBody nid addr xsize pos).tryBind fun xb =>
        .done <| if n ≤ xb.length then .ok xb else .error short) =
      ((img.ensureBytes nid addr xsize ⟨pos, xb⟩ n short).run o).map (·.xb) := by
  unfold ensureBytes
  dsimp only
  split_ifs
  · rfl
  · rw [Prog.exec_bind, Prog.exec_bind]
    cases (img.loadBody nid addr xsize pos).run o with
    | error e => rfl
    | ok xb =>
      dsimp only [Prog.run_done]
      split_ifs <;> rfl

theorem sharedXattrs_mirrors (hw : img.Windows full o nid addr xsize area)
    (hbs : 256 ≤ img.blockSize) (xs : Xattrs) {win : ℕ → Option Bytes} {k i : ℕ} {xb : Bytes}
    (hwin : ∀ j < k, Mirrors full Eq
      ((img.loadAt (img.sharedAddr area (i + j)) img.blockSize).run o)
      (win (img.sharedAddr area (i + j))))
    (hxb : xb <+: area.drop (Disk.sizeXattrBodyHeader + i * 4)) :
    Mirrors full (fun r out => r.2 = out ∧
      r.1 <+: area.drop (Disk.sizeXattrBodyHeader + (i + k) * 4))
      ((img.sharedXattrs nid addr xsize k i xb xs).run o)
      (img.takeShared (fun a => (win a).bind Stored.parse) area k i xs) := by
  induction k generalizing i xb xs with
  | zero => exact .ok ⟨rfl, hxb⟩
  | succ k ih =>
    rw [sharedXattrs, takeShared]
    -- the four bytes of the reference, loaded again if need be
    refine Mirrors.tryBind (S := fun xb' _ => 4 ≤ xb'.length ∧
      xb' <+: area.drop (Disk.sizeXattrBodyHeader + i * 4)) ?_ ?_
    · rw [run_reload]
      refine (ensureBytes_mirrors hw (c := ⟨_, xb⟩) hxb (by omega) _).map _ ?_
      rintro c' v ⟨hpos, hon, hlen, -⟩
      rw [XattrCursor.On, hpos] at hon
      exact ⟨hlen, hon⟩
    rintro xb' - ⟨hlen, hxb'⟩
    have haddr : img.sb.xattrBlkAddr * img.blockSize + field xb' 0 4 * 4 =
        img.sharedAddr area i := by
      rw [sharedAddr, field_of_isPrefix hxb' (by omega), field_drop, Nat.add_zero]
    dsimp only
    rw [haddr]
    simp only [Option.bind_assoc]
    refine Mirrors.tryBind (S := Eq) ?_ ?_
    · rw [Prog.run_bind]
      exact (hwin 0 (by omega)).mapError _
    rintro sb - rfl
    rw [← Option.bind_assoc]
    have hshared : Mirrors full Eq _ _ := img.sharedXattr_mirrors nid sb xs
    generalize img.sharedXattr nid sb xs = r at hshared
    generalize (Stored.parse sb).bind (img.add xs) = v at hshared ⊢
    cases hshared with
    | error e h => exact .error e fun hfull => by rw [h hfull, Option.bind_none]
    | @ok ys _ h =>
      subst h
      have hnext : xb'.drop 4 <+: area.drop (Disk.sizeXattrBodyHeader + (i + 1) * 4) := by
        have := List.IsPrefix.drop hxb' 4
        rwa [List.drop_drop, Nat.add_assoc, ← Nat.succ_mul] at this
      have hrest := ih ys (i := i + 1) (fun j hj => by
        rw [Nat.add_right_comm, Nat.add_assoc]
        exact hwin (j + 1) (by omega)) hnext
      rwa [Nat.add_right_comm, Nat.add_assoc] at hrest

theorem takeShared_iff {look : ℕ → Option Stored} {k i : ℕ} :
    img.takeShared look area k i xs = some out ↔
      (0 < k → Disk.sizeXattrBodyHeader + (i + k) * 4 ≤ area.length) ∧
      ∃ ss : List Stored,
        (List.range' i k).map (fun j => look (img.sharedAddr area j)) = ss.map some ∧
        ss.foldlM img.add xs = some out := by
  induction k generalizing i xs with
  | zero =>
    rw [takeShared]
    constructor
    · intro h
      exact ⟨nofun, [], rfl, h⟩
    · rintro ⟨-, ss, hss, h⟩
      obtain rfl : ss = [] := by simpa using hss.symm
      exact h
  | succ k ih =>
    rw [takeShared]
    constructor
    · intro h
      obtain ⟨ref, href, h⟩ := Option.bind_eq_some_iff.1 h
      obtain ⟨ys, hys, h⟩ := Option.bind_eq_some_iff.1 h
      obtain ⟨s, hs, hadd⟩ := Option.bind_eq_some_iff.1 hys
      obtain ⟨hroom, ss, hss, hout⟩ := ih.1 h
      have hlen := (exactly_eq_some.1 href).1
      rw [List.length_drop] at hlen
      refine ⟨fun _ => ?_, s :: ss, ?_, ?_⟩
      · rcases Nat.eq_zero_or_pos k with rfl | hk
        · omega
        · have := hroom hk
          omega
      · rw [List.range'_succ, List.map_cons, List.map_cons, hs, hss]
      · rw [List.foldlM_cons]
        exact Option.bind_eq_some_iff.2 ⟨ys, hadd, hout⟩
    · rintro ⟨hroom, ss, hss, hout⟩
      have hlen := hroom (by omega)
      rw [List.range'_succ, List.map_cons] at hss
      cases ss with
      | nil => cases hss
      | cons s ss =>
        rw [List.map_cons, List.cons.injEq] at hss
        rw [List.foldlM_cons] at hout
        obtain ⟨ys, hadd, hout⟩ := Option.bind_eq_some_iff.1 hout
        rw [exactly_of_le (by rw [List.length_drop]; omega), Option.bind_some, hss.1,
          Option.bind_some, hadd, Option.bind_some]
        exact ih.2 ⟨fun _ => by omega, ss, hss.2, hout⟩

/-- An area that holds its header and its references holds the start of its entries. -/
theorem inlineStart_le (h : Disk.sizeXattrBodyHeader ≤ area.length)
    (hrefs : 0 < sharedCount area →
      Disk.sizeXattrBodyHeader + (0 + sharedCount area) * 4 ≤ area.length) :
    inlineStart area ≤ area.length := by
  rw [Nat.zero_add] at hrefs
  rcases Nat.eq_zero_or_pos (sharedCount area) with h0 | h0
  · rw [inlineStart, h0]
    omega
  · exact hrefs h0

/-- What an area lists, shared attributes first. -/
theorem lists_iff {look : ℕ → Option Stored} : (∃ ss l, img.Lists look area stop ss l out) ↔
    inlineStart area ≤ area.length ∧
      ∃ ys, img.takeShared look area (sharedCount area) 0 [] = some ys ∧
        img.Decodes area stop (inlineStart area) ys out := by
  constructor
  · rintro ⟨ss, l, hl⟩
    have hnames := hl.names
    rw [List.foldlM_append] at hnames
    obtain ⟨ys, hys, hout⟩ := Option.bind_eq_some_iff.1 hnames
    refine ⟨hl.room, ys, takeShared_iff.2 ⟨fun _ => ?_, ss, ?_, hys⟩, l, hl.entries, hout⟩
    · rw [Nat.zero_add]
      exact hl.room
    · rw [← List.range_eq_range']
      exact hl.refs
  · rintro ⟨hroom, ys, hys, l, hl, hout⟩
    obtain ⟨-, ss, hss, hys⟩ := takeShared_iff.1 hys
    rw [← List.range_eq_range'] at hss
    refine ⟨ss, l, hroom, hss, hl, ?_⟩
    rw [List.foldlM_append]
    exact Option.bind_eq_some_iff.2 ⟨ys, hys, hout⟩

/-- **`loadXattrs`.** It accepts what the area lists. -/
theorem loadXattrs_yields {ino : Inode} (win : ℕ → Option Bytes)
    (hw : img.Windows full o ino.nid (img.inodeStart ino.nid + ino.icsize) ino.xsize area)
    (hbs : 256 ≤ img.blockSize) (hlen : area.length ≤ ino.xsize)
    (hwin : ∀ i < sharedCount area,
      Mirrors full Eq ((img.loadAt (img.sharedAddr area i) img.blockSize).run o)
        (win (img.sharedAddr area i))) :
    Yields full ((img.loadXattrs ino).run o) fun out =>
      ∃ ss l, img.Lists (fun a => (win a).bind Stored.parse) area ino.xsize ss l out := by
  have hstart : Disk.sizeXattrBodyHeader ≤ inlineStart area := Nat.le_add_right ..
  unfold Disk.sizeXattrBodyHeader at hstart
  refine Yields.congr ?_ fun out => lists_iff.symm
  rw [loadXattrs, Prog.exec_bind]
  have hload := hw 0
  generalize (img.loadBody ino.nid _ ino.xsize 0).run o = r at hload
  by_cases hne : area.length ≤ 0
  · rw [if_pos hne] at hload
    cases hload
    exact .error fun _ out hout => absurd hout.1 (by omega)
  rw [if_neg hne, List.drop_zero] at hload
  cases hload with
  | error e h => exact .error fun hfull => absurd (h hfull) (Option.some_ne_none _)
  | ok h =>
    subst h
    dsimp only
    by_cases h12 : (area.take img.blockSize).length < Disk.sizeXattrBodyHeader
    · rw [if_pos h12]
      rw [List.length_take, Disk.sizeXattrBodyHeader] at h12
      exact .error fun _ out hout => absurd hout.1 (by omega)
    have hcount : field (area.take img.blockSize) 4 1 = sharedCount area := field_take (by omega)
    rw [if_neg h12, hcount]
    by_cases hroom : ino.xsize < Disk.sizeXattrBodyHeader + sharedCount area * 4
    · rw [if_pos hroom]
      exact .error fun _ out hout => absurd hout.1 (by rw [inlineStart]; omega)
    rw [if_neg hroom, Prog.exec_bind]
    have hshared := sharedXattrs_mirrors hw hbs [] (k := sharedCount area) (i := 0)
      (fun j hj => by simpa using hwin j hj)
      (show (area.take img.blockSize).drop Disk.sizeXattrBodyHeader <+: _ by
        rw [Nat.zero_mul, Nat.add_zero]
        exact List.IsPrefix.drop (List.take_prefix ..) _)
    generalize (img.sharedXattrs ino.nid _ ino.xsize _ _ _ _).run o = r at hshared
    generalize ht : img.takeShared _ area _ _ _ = v at hshared ⊢
    cases hshared with
    | error e h =>
      refine .error fun hfull out hout => ?_
      obtain ⟨_, ys, hys, _⟩ := hout
      rw [h hfull] at hys
      cases hys
    | @ok r ys h =>
      obtain ⟨rfl, hon⟩ := h
      rw [Nat.zero_add] at hon
      have hroom' : inlineStart area ≤ area.length :=
        inlineStart_le (by rw [List.length_take] at h12; omega) (takeShared_iff.1 ht).1
      refine (inlineXattrs_yields (c := ⟨_, r.1⟩) hw hbs (Nat.le_add_left ..) hon).congr
        fun out => ?_
      rw [and_iff_right hroom']
      simp only [Option.some.injEq, exists_eq_left', inlineStart]

/-! ## The loops end by themselves -/

theorem ensureBytes_ok {n : ℕ} {short : GoError} {c' : XattrCursor}
    (h : (img.ensureBytes nid addr xsize c n short).run o = .ok c') :
    c'.pos = c.pos ∧ n ≤ c'.xb.length := by
  unfold ensureBytes at h
  split_ifs at h with hxb
  · cases h
    exact ⟨rfl, hxb⟩
  · obtain ⟨xb, -, h⟩ := Prog.exec_bind_ok h
    rw [Prog.run_done] at h
    split_ifs at h with hlen
    cases h
    exact ⟨rfl, hlen⟩

theorem xattrValue_pos {fuel remaining : ℕ} {buf : Bytes} {r : XattrCursor × Bytes}
    (h : (img.xattrValue nid addr xsize fuel remaining c buf).run o = .ok r) : c.pos ≤ r.1.pos := by
  induction fuel generalizing remaining c buf with
  | zero =>
    cases h
    exact le_refl _
  | succ fuel ih =>
    rw [xattrValue] at h
    split_ifs at h with h0
    · cases h
      exact le_refl _
    · obtain ⟨c', hc', h⟩ := Prog.exec_bind_ok h
      obtain ⟨hpos, -⟩ := ensureBytes_ok hc'
      have hle := ih h
      dsimp only [XattrCursor.skip] at hle
      omega

theorem inlineXattr_pos {r : XattrCursor × Xattrs}
    (h : (img.inlineXattr nid addr xsize c xs).run o = .ok r) :
    c.pos + Disk.sizeXattrEntry ≤ r.1.pos := by
  obtain ⟨c₁, hc₁, h⟩ := Prog.exec_bind_ok h
  dsimp only at h
  cases hp : img.entryPrefix nid "inline" (xattrEntryAt c₁.xb) with
  | error e =>
    rw [hp] at h
    cases h
  | ok pre =>
    rw [hp] at h
    obtain ⟨c₂, hc₂, h⟩ := Prog.exec_bind_ok h
    obtain ⟨v, hv, h⟩ := Prog.exec_bind_ok h
    have h₁ := (ensureBytes_ok hc₁).1
    have h₂ := (ensureBytes_ok hc₂).1
    have h₃ := xattrValue_pos hv
    cases hset : setXattr nid xs (pre ++ c₂.xb.take (xattrEntryAt c₁.xb).nameLen) v.2 with
    | error e =>
      rw [Prog.run_done, hset] at h
      cases h
    | ok ys =>
      rw [Prog.run_done, hset] at h
      cases h
      simp only [XattrCursor.skip] at h₂ h₃ ⊢
      omega

/-- More fuel than bytes of the value changes nothing. -/
theorem xattrValue_settles {fuel remaining : ℕ} (hf : remaining ≤ fuel) (k : ℕ) (buf : Bytes) :
    (img.xattrValue nid addr xsize (fuel + k) remaining c buf).run o =
      (img.xattrValue nid addr xsize fuel remaining c buf).run o := by
  induction fuel generalizing remaining c buf with
  | zero =>
    obtain rfl : remaining = 0 := by omega
    cases k <;> rfl
  | succ fuel ih =>
    rw [Nat.add_right_comm, xattrValue, xattrValue]
    split_ifs with h0
    · rfl
    rw [Prog.exec_bind, Prog.exec_bind]
    cases hens : (img.ensureBytes nid addr xsize c 1 _).run o with
    | error e => rfl
    | ok c' =>
      have hlen := (ensureBytes_ok hens).2
      exact ih (by omega) _

/-- More fuel than bytes of the area changes nothing. -/
theorem inlineXattrs_settles {fuel : ℕ} (hf : xsize ≤ c.pos + fuel) (k : ℕ) :
    (img.inlineXattrs nid addr xsize (fuel + k) c xs).run o =
      (img.inlineXattrs nid addr xsize fuel c xs).run o := by
  induction fuel generalizing c xs with
  | zero =>
    cases k with
    | zero => rfl
    | succ k =>
      rw [Nat.zero_add]
      conv_lhs => rw [inlineXattrs, if_pos (show xsize ≤ c.pos by omega)]
      rfl
  | succ fuel ih =>
    rw [Nat.add_right_comm, inlineXattrs, inlineXattrs]
    split_ifs with hend
    · rfl
    rw [Prog.exec_bind, Prog.exec_bind]
    cases hr : (img.inlineXattr nid addr xsize c xs).run o with
    | error e => rfl
    | ok r =>
      have hpos := inlineXattr_pos hr
      unfold Disk.sizeXattrEntry at hpos
      exact ih (by omega)

/-! ## What the loops ask -/

section Asks

variable {P : Req → Prop} (hb : ∀ pos, (img.loadBody nid addr xsize pos).Asks o P)

include hb

theorem ensureBytes_asks (c : XattrCursor) (n : ℕ) (short : GoError) :
    (img.ensureBytes nid addr xsize c n short).Asks o P := by
  unfold ensureBytes
  split_ifs
  · exact Prog.asks_done
  · exact Prog.asks_tryBind (hb _) fun _ _ => Prog.asks_done

theorem xattrValue_asks {fuel remaining : ℕ} {c : XattrCursor} {buf : Bytes} :
    (img.xattrValue nid addr xsize fuel remaining c buf).Asks o P := by
  induction fuel generalizing remaining c buf with
  | zero => exact Prog.asks_done
  | succ fuel ih =>
    rw [xattrValue]
    split_ifs
    · exact Prog.asks_done
    · exact Prog.asks_tryBind (ensureBytes_asks hb ..) fun _ _ => ih

theorem inlineXattr_asks (c : XattrCursor) (xs : Xattrs) :
    (img.inlineXattr nid addr xsize c xs).Asks o P := by
  refine Prog.asks_tryBind (ensureBytes_asks hb ..) fun c _ => ?_
  dsimp only
  split
  · exact Prog.asks_done
  · refine Prog.asks_tryBind (ensureBytes_asks hb ..) fun c _ => ?_
    exact Prog.asks_tryBind (xattrValue_asks hb) fun _ _ => Prog.asks_done

theorem inlineXattrs_asks {fuel : ℕ} {c : XattrCursor} {xs : Xattrs} :
    (img.inlineXattrs nid addr xsize fuel c xs).Asks o P := by
  induction fuel generalizing c xs with
  | zero => exact Prog.asks_done
  | succ fuel ih =>
    rw [inlineXattrs]
    split_ifs
    · exact Prog.asks_done
    · exact Prog.asks_tryBind (inlineXattr_asks hb ..) fun _ _ => ih

end Asks

end Image

end Erofs
