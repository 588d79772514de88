import Erofs.Reader.Dir

/-!
# The grammar of a directory block

A directory block holds dirents and, after them, their names: the offset of the first name counts
the dirents, a name runs to the offset of the next one, and the last name to the first NUL or the
end of the block.  This file states that grammar once, on the offsets, and gives what `ReadDir` and
`lookup` make of a block in its terms.

The main results:

* `listedName_iff`, `checkDirBlock_iff` — `ReadDir` takes exactly the well-formed dirents of a
  block with a well-formed head;
* `listBlock_accounts` — what one call hands out of a block, for every cursor and page size;
* `length_listBlock_le` — the slab `ReadDir` allocates for a block is never too small.
-/

namespace Erofs

open GoPath LittleEndian

/-- A name that `checkDirentName` lets pass. -/
structure ValidName (name : Bytes) : Prop where
  nonempty : name ≠ []
  noSlash : slash ∉ name
  noNul : nulByte ∉ name

theorem checkDirentName_ok_iff {name : Bytes} {u : Unit} :
    checkDirentName name = .ok u ↔ ValidName name := by
  unfold checkDirentName
  split_ifs with h1 h2 h3
  · exact iff_of_false nofun fun h => h.nonempty h1
  · exact iff_of_false nofun fun h => h.noSlash h2
  · exact iff_of_false nofun fun h => h.noNul h3
  · exact iff_of_true rfl ⟨h1, h2, h3⟩

instance (name : Bytes) : Decidable (ValidName name) :=
  decidable_of_iff (name ≠ [] ∧ slash ∉ name ∧ nulByte ∉ name)
    ⟨fun h => ⟨h.1, h.2.1, h.2.2⟩, fun h => ⟨h.nonempty, h.noSlash, h.noNul⟩⟩

namespace DirBlock

variable (buf : Bytes)

/-! ## Offsets -/

/-- Where the name of dirent `i` begins. -/
def off (i : ℕ) : ℕ := (direntAt buf i).nameOff

/-- The number of dirents. -/
def count : ℕ := off buf 0 / 12

/-- Where the name of dirent `i` ends. -/
def nameEnd (i : ℕ) : ℕ :=
  if i + 1 < count buf then off buf (i + 1)
  else off buf i + (untilNul (buf.drop (off buf i))).length

/-- The name of dirent `i`. -/
def name (i : ℕ) : Bytes := slice buf (off buf i) (nameEnd buf i)

/-- The dirents are a whole number and end inside the block. -/
structure Head : Prop where
  count_pos : 0 < count buf
  aligned : off buf 0 = 12 * count buf
  inside : off buf 0 < buf.length

/-- The dirent `i` has a name in the name region, and a valid one. -/
structure Entry (i : ℕ) : Prop where
  region : off buf 0 ≤ off buf i
  ordered : off buf i ≤ nameEnd buf i
  inside : nameEnd buf i ≤ buf.length
  valid : ValidName (name buf i)

/-- The block is well formed. -/
structure Sound : Prop where
  head : Head buf
  entry : ∀ i < count buf, Entry buf i

instance : Decidable (Head buf) :=
  decidable_of_iff (0 < count buf ∧ off buf 0 = 12 * count buf ∧ off buf 0 < buf.length)
    ⟨fun h => ⟨h.1, h.2.1, h.2.2⟩, fun h => ⟨h.count_pos, h.aligned, h.inside⟩⟩

instance (i : ℕ) : Decidable (Entry buf i) :=
  decidable_of_iff (off buf 0 ≤ off buf i ∧ off buf i ≤ nameEnd buf i ∧
      nameEnd buf i ≤ buf.length ∧ ValidName (name buf i))
    ⟨fun h => ⟨h.1, h.2.1, h.2.2.1, h.2.2.2⟩, fun h => ⟨h.region, h.ordered, h.inside, h.valid⟩⟩

instance : Decidable (Sound buf) :=
  decidable_of_iff (Head buf ∧ ∀ i < count buf, Entry buf i)
    ⟨fun h => ⟨h.1, h.2⟩, fun h => ⟨h.head, h.entry⟩⟩

variable {buf}

theorem nameEnd_next {i : ℕ} (h : i + 1 < count buf) : nameEnd buf i = off buf (i + 1) := if_pos h

theorem nameEnd_last {i : ℕ} (h : ¬ i + 1 < count buf) :
    nameEnd buf i = off buf i + (untilNul (buf.drop (off buf i))).length := if_neg h

theorem length_untilNul_le (b : Bytes) : (untilNul b).length ≤ b.length :=
  (List.takeWhile_prefix _).length_le

theorem untilNul_eq_self {b : Bytes} (h : nulByte ∉ b) : untilNul b = b := by
  refine List.takeWhile_eq_self_iff.2 fun x hx => ?_
  have hne : x ≠ nulByte := fun he => h (he ▸ hx)
  simpa using hne

/-- The bytes before a NUL are those of a name without one. -/
theorem untilNul_append {nm : Bytes} (rest : Bytes) (h : nulByte ∉ nm) :
    untilNul (nm ++ nulByte :: rest) = nm := by
  have hall : ∀ x ∈ nm, (x != nulByte) = true := fun x hx => by
    have hne : x ≠ nulByte := fun he => h (he ▸ hx)
    simpa using hne
  rw [untilNul, List.takeWhile_append_of_pos hall]
  simp

/-- The last name ends inside the block when it begins there. -/
theorem nameEnd_last_le_iff {i : ℕ} (h : ¬ i + 1 < count buf) :
    nameEnd buf i ≤ buf.length ↔ off buf i ≤ buf.length := by
  have hle := length_untilNul_le (buf.drop (off buf i))
  rw [List.length_drop] at hle
  rw [nameEnd_last h]
  omega

theorem slice_initial {b t : Bytes} {lo : ℕ} (h : t <+: b.drop lo) :
    slice b lo (lo + t.length) = t := by
  rw [slice, Nat.add_sub_cancel_left]
  exact (List.prefix_iff_eq_take.1 h).symm

theorem name_last {i : ℕ} (h : ¬ i + 1 < count buf) :
    name buf i = untilNul (buf.drop (off buf i)) := by
  rw [name, nameEnd_last h]
  exact slice_initial (List.takeWhile_prefix _)

theorem slice_to_end (b : Bytes) (lo : ℕ) : slice b lo b.length = b.drop lo := by
  rw [slice, List.take_of_length_le]
  rw [List.length_drop]

/-- Where `lookup` and the copy take the name of dirent `i` to end: at the next name or the end of
the block. -/
def sliceEnd (buf : Bytes) (i : ℕ) : ℕ :=
  if i + 1 < count buf then off buf (i + 1) else buf.length

theorem length_name {i : ℕ} (h : nameEnd buf i ≤ buf.length) :
    (name buf i).length = nameEnd buf i - off buf i := by
  rw [name, slice, List.length_take, List.length_drop]
  omega

theorem slice_next {i : ℕ} (h : i + 1 < count buf) :
    slice buf (off buf i) (sliceEnd buf i) = name buf i := by
  rw [sliceEnd, if_pos h, name, nameEnd_next h]

theorem untilNul_slice_last {i : ℕ} (h : ¬ i + 1 < count buf) :
    untilNul (slice buf (off buf i) (sliceEnd buf i)) = name buf i := by
  rw [sliceEnd, if_neg h, slice_to_end, name_last h]

theorem sliceEnd_bounds_iff {i : ℕ} :
    off buf i ≤ sliceEnd buf i ∧ sliceEnd buf i ≤ buf.length ↔
      off buf i ≤ nameEnd buf i ∧ nameEnd buf i ≤ buf.length := by
  unfold sliceEnd
  by_cases h : i + 1 < count buf
  · rw [if_pos h, nameEnd_next h]
  · have hle := nameEnd_last_le_iff h
    have hord : off buf i ≤ nameEnd buf i := by
      rw [nameEnd_last h]
      exact Nat.le_add_right _ _
    rw [if_neg h]
    omega

/-! ## `ReadDir` takes the well-formed dirents -/

theorem checkDirBlock_iff {nid m : ℕ} :
    checkDirBlock nid buf = .ok m ↔ Head buf ∧ m = count buf := by
  have hdiv : count buf = (direntAt buf 0).nameOff / 12 := rfl
  have hoff : off buf 0 = (direntAt buf 0).nameOff := rfl
  simp only [checkDirBlock]
  rw [Disk.sizeDirent]
  generalize (direntAt buf 0).nameOff = x at hdiv hoff
  split_ifs with h1 h2
  · refine iff_of_false nofun fun h => ?_
    obtain ⟨hpos, hal, hin⟩ := h.1
    omega
  · refine iff_of_false nofun fun h => ?_
    obtain ⟨hpos, hal, hin⟩ := h.1
    omega
  · rw [Except.ok.injEq]
    refine ⟨fun h => ⟨⟨?_, ?_, ?_⟩, ?_⟩, fun h => ?_⟩ <;> omega

theorem checkDirBlock_ok {nid : ℕ} (h : Head buf) : checkDirBlock nid buf = .ok (count buf) :=
  checkDirBlock_iff.2 ⟨h, rfl⟩

/-- The dirent after `i` lies inside the block. -/
theorem Head.dirent_inside {i : ℕ} (h : Head buf) (hi : i < count buf) :
    12 * i + 12 < buf.length := by
  have := h.aligned
  have := h.inside
  omega

theorem nameBounds_iff {i : ℕ} (h : Head buf) {b : ℕ × ℕ} :
    nameBounds buf (count buf) i = .ok b ↔
      (off buf i ≤ nameEnd buf i ∧ nameEnd buf i ≤ buf.length) ∧
        b = (off buf i, nameEnd buf i) := by
  have hlo : (direntAt buf i).nameOff = off buf i := rfl
  have hhi : (direntAt buf (i + 1)).nameOff = off buf (i + 1) := rfl
  simp only [nameBounds, hlo, hhi]
  by_cases hi : i + 1 < count buf
  · have hin := h.dirent_inside hi
    rw [if_pos hi, if_neg (by omega), nameEnd_next hi]
    split_ifs with hb
    · exact iff_of_false nofun fun h => by omega
    · rw [Except.ok.injEq]
      exact ⟨fun h => ⟨by omega, h.symm⟩, fun h => h.2.symm⟩
  · have hle := nameEnd_last_le_iff hi
    rw [if_neg hi, ← nameEnd_last hi]
    split_ifs with hb
    · exact iff_of_false nofun fun h => by omega
    · rw [Except.ok.injEq]
      refine ⟨fun h => ⟨⟨?_, by omega⟩, h.symm⟩, fun h => h.2.symm⟩
      rw [nameEnd_last hi]
      exact Nat.le_add_right _ _

theorem listedName_iff {i : ℕ} (h : Head buf) {nm : Bytes} :
    listedName buf (count buf) i = .ok nm ↔ Entry buf i ∧ nm = name buf i := by
  have hbase : (direntAt buf 0).nameOff = off buf 0 := rfl
  constructor
  · intro hl
    obtain ⟨b, hb, hl⟩ := except_bind_ok hl
    obtain ⟨⟨hord, hin⟩, rfl⟩ := (nameBounds_iff h).1 hb
    by_cases hreg : off buf i < off buf 0
    · simp only [hbase, if_pos hreg] at hl
      cases hl
    · simp only [hbase, if_neg hreg] at hl
      obtain ⟨u, hu, hl⟩ := except_bind_ok hl
      cases hl
      exact ⟨⟨not_lt.1 hreg, hord, hin, checkDirentName_ok_iff.1 hu⟩, rfl⟩
  · rintro ⟨he, rfl⟩
    have hb := (nameBounds_iff h).2 ⟨⟨he.ordered, he.inside⟩, rfl⟩
    have hc : checkDirentName (slice buf (off buf i) (nameEnd buf i)) = .ok () :=
      checkDirentName_ok_iff.2 he.valid
    simp only [listedName, hb, hbase, bind, Except.bind, if_neg (not_lt.2 he.region), hc, pure,
      Except.pure]
    rfl

theorem listedName_error {i : ℕ} (h : Head buf) (he : ¬ Entry buf i) :
    ∃ e, listedName buf (count buf) i = .error e := by
  cases hl : listedName buf (count buf) i with
  | error e => exact ⟨e, rfl⟩
  | ok nm => exact absurd ((listedName_iff h).1 hl).1 he

/-! ## Entries -/

variable (buf)

/-- What `ReadDir` returns for dirent `i`. -/
def entry (i : ℕ) : DirEntry :=
  ⟨name buf i, (direntAt buf i).nid, eroFSFtypeToFileMode (direntAt buf i).fileType⟩

/-- `"."` and `".."` are not listed. -/
def Hidden (i : ℕ) : Prop := name buf i = dot ∨ name buf i = dotdot

instance (i : ℕ) : Decidable (Hidden buf i) := inferInstanceAs (Decidable (_ ∨ _))

/-- The entries listed of the first `i` dirents. -/
def below : ℕ → List DirEntry
  | 0 => []
  | i + 1 => below i ++ if Hidden buf i then [] else [entry buf i]

/-- The well-formed dirents from `i` on, `k` of them left, up to the first malformed one. -/
def goodFrom : ℕ → ℕ → ℕ
  | 0, i => i
  | k + 1, i => if Entry buf i then goodFrom k (i + 1) else i

/-- The number of well-formed dirents before the first malformed one. -/
def good : ℕ := if Head buf then goodFrom buf (count buf) 0 else 0

/-- The entries `ReadDir` can list of the block. -/
def decoded : List DirEntry := below buf (good buf)

variable {buf}

theorem below_hidden {i : ℕ} (h : Hidden buf i) : below buf (i + 1) = below buf i := by
  rw [below, if_pos h, List.append_nil]

theorem below_shown {i : ℕ} (h : ¬ Hidden buf i) :
    below buf (i + 1) = below buf i ++ [entry buf i] := by
  rw [below, if_neg h]

theorem below_eq (m : ℕ) : below buf m =
    (List.range' 0 m).flatMap fun i => if Hidden buf i then [] else [entry buf i] := by
  induction m with
  | zero => rfl
  | succ m ih =>
    rw [below, ih, List.range'_concat, List.flatMap_append]
    simp

theorem mem_below {ent : DirEntry} {m : ℕ} :
    ent ∈ below buf m ↔ ∃ i < m, ¬ Hidden buf i ∧ ent = entry buf i := by
  induction m with
  | zero => simp [below]
  | succ m ih =>
    rw [below, List.mem_append, ih]
    constructor
    · rintro (⟨i, hi, h⟩ | h)
      · exact ⟨i, by omega, h⟩
      · split_ifs at h with hh
        · cases h
        · exact ⟨m, by omega, hh, List.mem_singleton.1 h⟩
    · rintro ⟨i, hi, hh, rfl⟩
      rcases Nat.lt_succ_iff_lt_or_eq.1 hi with hi | rfl
      · exact .inl ⟨i, hi, hh, rfl⟩
      · right
        rw [if_neg hh]
        exact List.mem_singleton_self _

theorem below_append {c r : ℕ} (h : c ≤ r) : below buf c <+: below buf r := by
  induction r, h using Nat.le_induction with
  | base => exact List.prefix_rfl
  | succ r _ ih => exact ih.trans (List.prefix_append _ _)

theorem goodFrom_spec {k i : ℕ} :
    i ≤ goodFrom buf k i ∧ goodFrom buf k i ≤ i + k ∧
      (∀ j, i ≤ j → j < goodFrom buf k i → Entry buf j) ∧
      (goodFrom buf k i < i + k → ¬ Entry buf (goodFrom buf k i)) := by
  induction k generalizing i with
  | zero =>
    rw [goodFrom]
    refine ⟨le_rfl, le_rfl, fun j h1 h2 => ?_, fun h => ?_⟩ <;> omega
  | succ k ih =>
    rw [goodFrom]
    split_ifs with he
    · obtain ⟨hlo, hhi, hall, hstop⟩ := @ih (i + 1)
      refine ⟨by omega, by omega, fun j h1 h2 => ?_, fun h => hstop (by omega)⟩
      rcases h1.eq_or_lt with rfl | h1
      · exact he
      · exact hall j h1 h2
    · exact ⟨le_rfl, by omega, fun j h1 h2 => by omega, fun _ => he⟩

theorem good_le : good buf ≤ count buf := by
  unfold good
  split_ifs
  · simpa using (@goodFrom_spec buf (count buf) 0).2.1
  · exact Nat.zero_le _

theorem entry_of_lt_good {i : ℕ} (h : i < good buf) : Entry buf i := by
  unfold good at h
  split_ifs at h
  · exact goodFrom_spec.2.2.1 i (Nat.zero_le _) h
  · omega

theorem not_entry_good (hh : Head buf) (h : good buf < count buf) : ¬ Entry buf (good buf) := by
  unfold good at h ⊢
  rw [if_pos hh] at h ⊢
  exact goodFrom_spec.2.2.2 (by omega)

theorem le_good {i : ℕ} (hh : Head buf) (hi : i ≤ count buf) (h : ∀ j < i, Entry buf j) :
    i ≤ good buf := by
  by_contra hlt
  exact not_entry_good hh (by omega) (h _ (by omega))

/-- A block is well formed exactly when its head is and no dirent stops the walk. -/
theorem sound_iff : Sound buf ↔ Head buf ∧ good buf = count buf :=
  ⟨fun h => ⟨h.head, le_antisymm good_le (le_good h.head le_rfl h.entry)⟩,
    fun h => ⟨h.1, fun _ hi => entry_of_lt_good (h.2 ▸ hi)⟩⟩

/-! ## One block of `ReadDir` -/

section Listing

variable {n : Option ℕ} {nid : ℕ} {d : OpenDir} {ents : List DirEntry}

/-- What a walk over a block has done: it has handed out `new`, which with the entries before the
cursor are the entries of the first `r` dirents. -/
structure Accounts (n : Option ℕ) (buf : Bytes) (d : OpenDir) (ents : List DirEntry) (l : Listing)
    (new : List DirEntry) (r : ℕ) : Prop where
  ents_eq : l.ents = ents ++ new
  below_eq : below buf d.consumed ++ new = below buf r
  le_good : r ≤ good buf
  page : ∀ m, n = some m → l.ents.length ≤ m
  whole : l.ended = .whole → Head buf ∧ r = count buf ∧ l.dir.bn = d.bn ∧
    ∀ m, n = some m → l.ents.length < m
  full : l.ended = .full → n = some l.ents.length ∧ Head buf ∧
    (l.dir.bn = d.bn ∧ l.dir.consumed = r ∨
      l.dir.bn = d.bn + 1 ∧ l.dir.consumed = 0 ∧ r = count buf)
  failed : ∀ e, l.ended = .failed e → ¬ Sound buf ∧ r = good buf ∧ l.dir.bn = d.bn ∧
    l.dir.consumed ≤ good buf ∧ below buf l.dir.consumed = below buf (good buf)

/-- The walk at a well-formed dirent. -/
theorem listEntries_entry {k i : ℕ} (h : Head buf) (he : Entry buf i) :
    OpenDir.listEntries n buf (count buf) (k + 1) i d ents =
      if i < d.consumed ∨ Hidden buf i then OpenDir.listEntries n buf (count buf) k (i + 1) d ents
      else if n = some (ents ++ [entry buf i]).length then
        ⟨if i = count buf - 1 then { d with consumed := 0, bn := d.bn + 1 }
          else { d with consumed := i + 1 }, ents ++ [entry buf i], .full⟩
      else OpenDir.listEntries n buf (count buf) k (i + 1) { d with consumed := i + 1 }
        (ents ++ [entry buf i]) := by
  rw [OpenDir.listEntries, (listedName_iff h).2 ⟨he, rfl⟩]
  rfl

theorem listEntries_accounts {k i : ℕ} (h : Head buf) (hik : i + k = count buf)
    (hgood : ∀ j < i, Entry buf j) (hc : d.consumed ≤ good buf)
    (hcur : d.consumed ≤ i → below buf i = below buf d.consumed)
    (hn : ∀ m, n = some m → ents.length < m) :
    ∃ new r, Accounts n buf d ents (OpenDir.listEntries n buf (count buf) k i d ents) new r := by
  induction k generalizing i d ents with
  | zero =>
    obtain rfl : i = count buf := by omega
    have hg : good buf = count buf := le_antisymm good_le (DirBlock.le_good h le_rfl hgood)
    refine ⟨[], count buf, ?_⟩
    rw [OpenDir.listEntries]
    refine ⟨by simp, ?_, hg.ge, fun m hm => (hn m hm).le, fun _ => ⟨h, rfl, rfl, hn⟩, nofun, nofun⟩
    rw [List.append_nil, hcur (hc.trans good_le)]
  | succ k ih =>
    by_cases he : Entry buf i
    swap
    · -- the walk stops at the first malformed dirent
      obtain ⟨e, hl⟩ := listedName_error h he
      rw [OpenDir.listEntries, hl]
      have hg : good buf = i := le_antisymm
        (not_lt.1 fun hlt => he (entry_of_lt_good hlt))
        (DirBlock.le_good h (by omega) hgood)
      have hb : below buf d.consumed = below buf (good buf) := by
        rw [hg, hcur (hg ▸ hc)]
      refine ⟨[], good buf, by simp, by rw [List.append_nil, hb], le_rfl,
        fun m hm => (hn m hm).le, nofun, nofun, fun _ _ => ⟨fun hs => ?_, rfl, rfl, hc, hb⟩⟩
      exact he (hs.entry i (by omega))
    · have hgood' : ∀ j < i + 1, Entry buf j := fun j hj =>
        (Nat.lt_succ_iff_lt_or_eq.1 hj).elim (hgood j) fun hji => hji ▸ he
      rw [listEntries_entry h he]
      by_cases hskip : i < d.consumed ∨ Hidden buf i
      · -- already handed out, or hidden
        rw [if_pos hskip]
        refine ih (by omega) hgood' hc (fun hci => ?_) hn
        rcases hci.eq_or_lt with hci | hci
        · rw [hci]
        · rcases hskip with hskip | hskip
          · omega
          · rw [below_hidden hskip, hcur (by omega)]
      rw [if_neg hskip]
      obtain ⟨hci, hsh⟩ := not_or.1 hskip
      have hb := hcur (not_lt.1 hci)
      have hle : i + 1 ≤ good buf := DirBlock.le_good h (by omega) hgood'
      by_cases hfull : n = some (ents ++ [entry buf i]).length
      · -- the page is full
        rw [if_pos hfull]
        refine ⟨[entry buf i], i + 1, rfl, by rw [below_shown hsh, hb],
          hle, fun m hm => ?_, nofun, fun _ => ⟨hfull, h, ?_⟩,
          nofun⟩
        · rw [hm] at hfull
          exact (Option.some.inj hfull).ge
        · split_ifs with hlast
          · exact .inr ⟨rfl, rfl, by omega⟩
          · exact .inl ⟨rfl, rfl⟩
      · -- one more entry
        rw [if_neg hfull]
        obtain ⟨new, r, hacc⟩ := @ih { d with consumed := i + 1 } (ents ++ [entry buf i]) (i + 1)
          (by omega) hgood' hle (fun _ => rfl) (fun m hm => by
            have hne : m ≠ (ents ++ [entry buf i]).length := fun he => hfull (by rw [hm, he])
            have := hn m hm
            rw [List.length_append, List.length_singleton] at hne ⊢
            omega)
        refine ⟨entry buf i :: new, r, ?_, ?_, hacc.le_good, hacc.page, hacc.whole, hacc.full,
          hacc.failed⟩
        · rw [hacc.ents_eq, List.append_assoc]
          rfl
        · rw [← hacc.below_eq, below_shown hsh, hb, List.append_assoc]
          rfl

/-- **One block.**  A call that comes to a block hands out the entries after its cursor, up to the
end of the block, a full page or the first malformed dirent. -/
theorem listBlock_accounts (hc : d.consumed ≤ good buf) (hn : ∀ m, n = some m → ents.length < m) :
    ∃ new r, Accounts n buf d ents (OpenDir.listBlock n nid buf d ents) new r := by
  unfold OpenDir.listBlock
  by_cases h : Head buf
  · rw [checkDirBlock_ok h]
    exact listEntries_accounts h (by omega) (fun j hj => absurd hj (by omega)) hc
      (fun h0 => by rw [Nat.le_zero.1 h0]) hn
  · have hg : good buf = 0 := if_neg h
    cases hb : checkDirBlock nid buf with
    | ok m => exact absurd (checkDirBlock_iff.1 hb).1 h
    | error e =>
      have h0 : d.consumed = 0 := by omega
      refine ⟨[], 0, by simp, by rw [List.append_nil, h0], Nat.zero_le _, fun m hm => (hn m hm).le,
        nofun, nofun, fun _ _ => ⟨fun hs => h hs.head, hg.symm, rfl, hc, by rw [hg, h0]⟩⟩

/-- With no limit on their number, a block's entries are all listed up to the first malformed
dirent. -/
theorem listBlock_none (hc : d.consumed = 0) :
    let l := OpenDir.listBlock none nid buf d ents
    l.ents = ents ++ decoded buf ∧
      (Sound buf ∧ l.ended = .whole ∨ ¬ Sound buf ∧ ∃ e, l.ended = .failed e) := by
  obtain ⟨new, r, hacc⟩ := @listBlock_accounts buf none nid d ents (hc ▸ Nat.zero_le _) nofun
  have hnew : new = below buf r := by
    rw [← hacc.below_eq, hc]
    rfl
  dsimp only
  rw [hacc.ents_eq, hnew]
  cases hended : (OpenDir.listBlock none nid buf d ents).ended with
  | full => cases (hacc.full hended).1
  | whole =>
    obtain ⟨hh, hr, -⟩ := hacc.whole hended
    have hg : good buf = count buf := le_antisymm good_le (hr ▸ hacc.le_good)
    exact ⟨by rw [decoded, hg, hr], .inl ⟨sound_iff.2 ⟨hh, hg⟩, rfl⟩⟩
  | failed e =>
    obtain ⟨hs, hr, -⟩ := hacc.failed e hended
    exact ⟨by rw [decoded, hr], .inr ⟨hs, e, rfl⟩⟩

theorem listedName_notEof {entryN i : ℕ} : Image.NotEof (listedName buf entryN i) := by
  refine Image.NotEof.bind ?_ fun b => ?_
  · unfold nameBounds
    dsimp only
    split_ifs <;> rintro e ⟨⟩ <;> rfl
  · dsimp only
    split_ifs
    · rintro e ⟨⟩
      rfl
    · refine Image.NotEof.bind ?_ fun _ => ?_
      · unfold checkDirentName
        split_ifs <;> rintro e ⟨⟩ <;> rfl
      · rintro e ⟨⟩

theorem listEntries_notEof {entryN k i : ℕ} {e : GoError}
    (h : (OpenDir.listEntries n buf entryN k i d ents).ended = .failed e) : e.is .eof = false := by
  induction k generalizing i d ents with
  | zero => cases h
  | succ k ih =>
    rw [OpenDir.listEntries] at h
    cases hl : listedName buf entryN i with
    | error e' =>
      rw [hl] at h
      cases h
      exact listedName_notEof e hl
    | ok nm =>
      rw [hl] at h
      dsimp only at h
      split_ifs at h
      · exact ih h
      · exact ih h

/-- A malformed block is never taken for the end of the directory. -/
theorem listBlock_notEof {e : GoError}
    (h : (OpenDir.listBlock n nid buf d ents).ended = .failed e) : e.is .eof = false := by
  unfold OpenDir.listBlock at h
  cases hb : checkDirBlock nid buf with
  | ok m =>
    rw [hb] at h
    exact listEntries_notEof h
  | error e' =>
    rw [hb] at h
    cases h
    unfold checkDirBlock at hb
    dsimp only at hb
    split_ifs at hb <;> cases hb <;> rfl

/-- The entries `ReadDir` allocates for a block of `entryN` dirents. -/
def slabSize (n : Option ℕ) (entryN consumed : ℕ) : ℕ :=
  let want := entryN - consumed
  n.elim want fun n => if n < want then n else want

theorem length_listEntries_le {entryN k i : ℕ} (hik : i + k = entryN)
    (hn : ∀ m, n = some m → ents.length < m) :
    let l := OpenDir.listEntries n buf entryN k i d ents
    l.ents.length ≤ ents.length + (entryN - max i d.consumed) ∧
      ∀ m, n = some m → l.ents.length ≤ m := by
  induction k generalizing i d ents with
  | zero => exact ⟨Nat.le_add_right _ _, fun m hm => (hn m hm).le⟩
  | succ k ih =>
    rw [OpenDir.listEntries]
    cases listedName buf entryN i with
    | error e => exact ⟨Nat.le_add_right _ _, fun m hm => (hn m hm).le⟩
    | ok nm =>
      dsimp only
      generalize he : (⟨nm, (direntAt buf i).nid,
        eroFSFtypeToFileMode (direntAt buf i).fileType⟩ : DirEntry) = e
      have hlen : (ents ++ [e]).length = ents.length + 1 := List.length_append
      by_cases hskip : i < d.consumed ∨ nm = dot ∨ nm = dotdot
      · rw [if_pos hskip]
        obtain ⟨h1, h2⟩ := @ih d ents (i + 1) (by omega) hn
        exact ⟨by omega, h2⟩
      rw [if_neg hskip]
      have hci : d.consumed ≤ i := not_lt.1 (not_or.1 hskip).1
      by_cases hfull : n = some (ents ++ [e]).length
      · rw [if_pos hfull]
        refine ⟨by dsimp only; omega, fun m hm => ?_⟩
        rw [hm] at hfull
        exact (Option.some.inj hfull).ge
      · rw [if_neg hfull]
        obtain ⟨h1, h2⟩ := @ih { d with consumed := i + 1 } (ents ++ [e]) (i + 1) (by omega)
          fun m hm => by
            have hne : m ≠ (ents ++ [e]).length := fun h => hfull (by rw [hm, h])
            have := hn m hm
            omega
        refine ⟨?_, h2⟩
        rw [max_self] at h1
        omega

/-- **The slab is large enough.**  A call takes no more entries of a block than it allocated. -/
theorem length_listBlock_le (hn : ∀ m, n = some m → ents.length < m) :
    (OpenDir.listBlock n nid buf d ents).ents.length ≤
      ents.length + slabSize n (count buf) d.consumed := by
  unfold OpenDir.listBlock
  cases hb : checkDirBlock nid buf with
  | error e => exact Nat.le_add_right _ _
  | ok m =>
    obtain rfl := (checkDirBlock_iff.1 hb).2
    obtain ⟨hlen, hpage⟩ := @length_listEntries_le buf n d ents (count buf) (count buf) 0
      (Nat.zero_add _) hn
    rw [Nat.zero_max] at hlen
    cases n with
    | none => exact hlen
    | some m =>
      have := hpage m rfl
      simp only [slabSize, Option.elim]
      split_ifs
      · omega
      · exact hlen

end Listing

end DirBlock

end Erofs
