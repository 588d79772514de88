import Erofs.Reader.DirBlock

/-!
# The reference decoder of a directory block

`direntsOfBlock` of `internal/erofsspec`, which follows the kernel's `erofs_readdir` and
`erofs_fill_dentries`.  It shares no code with `ReadDir` and checks the same offsets in another
order, against the block size and the bytes available.

The main result is `blocksAgree_iff`: the two decoders agree on a block exactly when no dirent that
`ReadDir` takes has a name longer than `NameMax`, a limit that only the reference has.
-/

namespace Erofs

open GoPath LittleEndian DirBlock

namespace Reference

/-- `NameMax`. -/
def nameMax : ℕ := 255

/-- `Dirent`: an entry with its name and the type as stored. -/
structure RefDirent where
  nid : ℕ
  name : Bytes
  fileType : ℕ
  deriving DecidableEq

/-- `strnlen`. -/
def strnlen (b : Bytes) : ℕ := (b.takeWhile (· != nulByte)).length

/-- `namelen` of dirent `i` of `count`, a difference of offsets that may be negative. -/
def nameLen (block : Bytes) (count i : ℕ) : Except GoError Int :=
  let nameoff := (direntAt block i).nameOff
  if i + 1 < count then .ok (((direntAt block (i + 1)).nameOff : Int) - nameoff)
  else if block.length ≤ nameoff then
    .error (errorf "%w: last name offset %d past %d" [.int nameoff, .int block.length] .corrupt)
  else .ok (strnlen (block.drop nameoff))

/-- Dirent `i` of `count`. -/
def refDirent (block : Bytes) (count i : ℕ) : Except GoError RefDirent := do
  let de := direntAt block i
  let namelen ← nameLen block count i
  if namelen < 1 ∨ nameMax < namelen ∨ block.length < de.nameOff + namelen then
    throw (errorf "%w: dirent %d name offset %d length %d in %d"
      [.int i, .int de.nameOff, .int namelen, .int block.length] .corrupt)
  let name := (block.drop de.nameOff).take namelen.toNat
  if slash ∈ name ∨ nulByte ∈ name then
    throw (errorf "%w: dirent %d name %q" [.int i, .bytes name] .corrupt)
  return ⟨de.nid, name, de.fileType⟩

/-- The dirents from `i` on, `k` of them left. -/
def refDirents (block : Bytes) (count : ℕ) : ℕ → ℕ → Except GoError (List RefDirent)
  | 0, _ => .ok []
  | k + 1, i => do
    let de ← refDirent block count i
    let rest ← refDirents block count k (i + 1)
    return de :: rest

/-- `direntsOfBlock`. -/
def direntsOfBlock (block : Bytes) (bs : ℕ) : Except GoError (List RefDirent) :=
  let maxsize := block.length
  let nameoff0 := (direntAt block 0).nameOff
  if maxsize < Disk.sizeDirent then
    .error (errorf "%w: directory block of %d bytes" [.int maxsize] .corrupt)
  else if nameoff0 = 0 ∨ bs ≤ nameoff0 ∨ nameoff0 % Disk.sizeDirent ≠ 0 then
    .error (errorf "%w: first name offset %d" [.int nameoff0] .corrupt)
  else if maxsize < nameoff0 then
    .error (errorf "%w: first name offset %d past the %d used bytes"
      [.int nameoff0, .int maxsize] .corrupt)
  else
    let count := nameoff0 / Disk.sizeDirent
    refDirents block count count 0

/-- What `ReadDir` is to list of the reference's dirents: the types mapped, `"."` and `".."`
skipped. -/
def listed (ds : List RefDirent) : List DirEntry :=
  (ds.filter fun d => d.name ≠ dot ∧ d.name ≠ dotdot).map fun d =>
    ⟨d.name, d.nid, eroFSFtypeToFileMode d.fileType⟩

/-! ## What the reference accepts -/

variable {buf : Bytes} {bs i k : ℕ}

/-- The dirent `i` as the reference gives it. -/
def refEntry (buf : Bytes) (i : ℕ) : RefDirent :=
  ⟨(direntAt buf i).nid, name buf i, (direntAt buf i).fileType⟩

theorem nameLen_iff {len : Int} :
    nameLen buf (count buf) i = .ok len ↔
      (i + 1 < count buf ∨ off buf i < buf.length) ∧ len = (nameEnd buf i : Int) - off buf i := by
  have hlo : (direntAt buf i).nameOff = off buf i := rfl
  have hhi : (direntAt buf (i + 1)).nameOff = off buf (i + 1) := rfl
  simp only [nameLen, hlo, hhi]
  by_cases hi : i + 1 < count buf
  · rw [if_pos hi, nameEnd_next hi, Except.ok.injEq]
    exact ⟨fun h => ⟨.inl hi, h.symm⟩, fun h => h.2.symm⟩
  · have hlen : strnlen (buf.drop (off buf i)) = nameEnd buf i - off buf i := by
      rw [nameEnd_last hi, Nat.add_sub_cancel_left]
      rfl
    have hle : off buf i ≤ nameEnd buf i := by
      rw [nameEnd_last hi]
      exact Nat.le_add_right _ _
    rw [if_neg hi]
    split_ifs with hin
    · exact iff_of_false nofun fun h => by omega
    · rw [Except.ok.injEq, hlen]
      exact ⟨fun h => ⟨.inr (by omega), by omega⟩, fun h => by omega⟩

/-- The reference takes a dirent whose name ends after it begins, inside the block, within
`NameMax` bytes. -/
theorem refDirent_iff {d : RefDirent} :
    refDirent buf (count buf) i = .ok d ↔
      (off buf i < nameEnd buf i ∧ nameEnd buf i ≤ buf.length ∧ slash ∉ name buf i ∧
        nulByte ∉ name buf i) ∧ nameEnd buf i - off buf i ≤ nameMax ∧ d = refEntry buf i := by
  have hlo : (direntAt buf i).nameOff = off buf i := rfl
  have hname : (buf.drop (off buf i)).take ((nameEnd buf i : Int) - off buf i).toNat =
      name buf i := by
    rw [name, slice, Int.toNat_sub]
  constructor
  · intro h
    obtain ⟨len, hlen, h⟩ := except_bind_ok h
    obtain ⟨-, rfl⟩ := nameLen_iff.1 hlen
    simp only [hlo, hname] at h
    by_cases h1 : (nameEnd buf i : Int) - off buf i < 1 ∨
        nameMax < (nameEnd buf i : Int) - off buf i ∨
        (buf.length : Int) < off buf i + ((nameEnd buf i : Int) - off buf i)
    · rw [if_pos h1] at h
      cases h
    by_cases h2 : slash ∈ name buf i ∨ nulByte ∈ name buf i
    · rw [if_neg h1, if_pos h2] at h
      cases h
    rw [if_neg h1, if_neg h2] at h
    cases h
    rw [not_or] at h2
    exact ⟨⟨by omega, by omega, h2⟩, by omega, rfl⟩
  · rintro ⟨⟨hlt, hin, hs, hz⟩, hmax, rfl⟩
    have hlen := (@nameLen_iff buf i _).2 ⟨.inr (by omega), rfl⟩
    simp only [refDirent, hlen, hlo, bind, Except.bind, hname]
    rw [if_neg (by omega)]
    simp only [pure, Except.pure]
    rw [if_neg (by simp [hs, hz])]
    rfl

theorem refDirents_iff {ds : List RefDirent} :
    refDirents buf (count buf) k i = .ok ds ↔
      (∀ j, i ≤ j → j < i + k → refDirent buf (count buf) j = .ok (refEntry buf j)) ∧
        ds = (List.range' i k).map (refEntry buf) := by
  induction k generalizing i ds with
  | zero =>
    rw [refDirents, Except.ok.injEq]
    exact ⟨fun h => ⟨fun j h1 h2 => by omega, h.symm⟩, fun h => h.2.symm⟩
  | succ k ih =>
    rw [refDirents, List.range'_succ, List.map_cons]
    constructor
    · intro h
      obtain ⟨d, hd, h⟩ := except_bind_ok h
      obtain ⟨rest, hrest, h⟩ := except_bind_ok h
      obtain rfl := (refDirent_iff.1 hd).2.2
      obtain ⟨hall, rfl⟩ := ih.1 hrest
      cases h
      refine ⟨fun j h1 h2 => ?_, rfl⟩
      rcases h1.eq_or_lt with rfl | h1
      · exact hd
      · exact hall j h1 (by omega)
    · rintro ⟨hall, rfl⟩
      have hrest := (@ih (i + 1) _).2 ⟨fun j h1 h2 => hall j (by omega) (by omega), rfl⟩
      simp only [hall i le_rfl (by omega), hrest, bind, Except.bind, pure, Except.pure]

/-- No name of the block is longer than the reference allows, up to the first malformed dirent. -/
def NamesFit (buf : Bytes) : Prop := ∀ i < good buf, (name buf i).length ≤ nameMax

/-- A well-formed dirent is one the reference takes, its length apart. -/
theorem refDirent_of_entry (h : Entry buf i) (hmax : (name buf i).length ≤ nameMax) :
    refDirent buf (count buf) i = .ok (refEntry buf i) := by
  rw [length_name h.inside] at hmax
  refine refDirent_iff.2 ⟨⟨?_, h.inside, h.valid.noSlash, h.valid.noNul⟩, hmax, rfl⟩
  have hne := List.length_pos_iff.2 h.valid.nonempty
  rw [length_name h.inside] at hne
  omega

theorem entry_of_refDirent (hreg : off buf 0 ≤ off buf i)
    (h : refDirent buf (count buf) i = .ok (refEntry buf i)) :
    Entry buf i ∧ (name buf i).length ≤ nameMax := by
  obtain ⟨⟨hlt, hin, hs, hz⟩, hmax, -⟩ := refDirent_iff.1 h
  have hlen := length_name hin
  refine ⟨⟨hreg, hlt.le, hin, ⟨?_, hs, hz⟩⟩, hlen ▸ hmax⟩
  exact List.length_pos_iff.1 (by omega)

/-- The names of a block the reference accepts come one after the other. -/
theorem off_le_of_refDirents
    (h : ∀ j < count buf, refDirent buf (count buf) j = .ok (refEntry buf j)) (hi : i < count buf) :
    off buf 0 ≤ off buf i := by
  induction i with
  | zero => exact le_rfl
  | succ i ih =>
    obtain ⟨⟨hlt, -⟩, -⟩ := refDirent_iff.1 (h i (by omega))
    rw [nameEnd_next hi] at hlt
    exact (ih (by omega)).trans hlt.le

/-- **The reference's blocks.**  `direntsOfBlock` accepts the well-formed blocks without a name
longer than `NameMax`. -/
theorem direntsOfBlock_iff {ds : List RefDirent} (hbs : buf.length ≤ bs) :
    direntsOfBlock buf bs = .ok ds ↔
      (DirBlock.Sound buf ∧ NamesFit buf) ∧
        ds = (List.range' 0 (count buf)).map (refEntry buf) := by
  have hoff : (direntAt buf 0).nameOff = off buf 0 := rfl
  have hcount : off buf 0 / 12 = count buf := rfl
  simp only [direntsOfBlock, hoff, Disk.sizeDirent, hcount]
  split_ifs with h1 h2 h3
  · refine iff_of_false (by rintro ⟨⟩) fun h => ?_
    obtain ⟨hpos, hal, hin⟩ := h.1.1.head
    omega
  · refine iff_of_false (by rintro ⟨⟩) fun h => ?_
    obtain ⟨hpos, hal, hin⟩ := h.1.1.head
    omega
  · refine iff_of_false (by rintro ⟨⟩) fun h => ?_
    obtain ⟨hpos, hal, hin⟩ := h.1.1.head
    omega
  · rw [refDirents_iff]
    refine and_congr_left fun _ => ?_
    simp only [Nat.zero_le, Nat.zero_add, forall_const]
    constructor
    · intro h
      have hpos : 0 < count buf := by omega
      have hentry : ∀ i < count buf, Entry buf i ∧ (name buf i).length ≤ nameMax := fun i hi =>
        entry_of_refDirent (off_le_of_refDirents h hi) (h i hi)
      have hin : off buf 0 < buf.length := by
        obtain ⟨⟨hlt, hin, -⟩, -⟩ := refDirent_iff.1 (h 0 hpos)
        omega
      have hs : DirBlock.Sound buf := ⟨⟨hpos, by omega, hin⟩, fun i hi => (hentry i hi).1⟩
      exact ⟨hs, fun i hi => (hentry i (lt_of_lt_of_le hi good_le)).2⟩
    · rintro ⟨hs, hfit⟩ j hj
      exact refDirent_of_entry (hs.entry j hj) (hfit j ((sound_iff.1 hs).2.symm ▸ hj))

/-! ## Agreement with `ReadDir` -/

theorem listed_append (a b : List RefDirent) : listed (a ++ b) = listed a ++ listed b := by
  simp [listed]

theorem listed_refEntry : listed [refEntry buf i] = if Hidden buf i then [] else [entry buf i] := by
  by_cases h : Hidden buf i
  · rw [if_pos h]
    rcases h with h | h <;> simp [listed, refEntry, h]
  · obtain ⟨h1, h2⟩ := not_or.1 h
    rw [if_neg h]
    simp [listed, refEntry, h1, h2, entry]

theorem listed_map_range (m : ℕ) :
    listed ((List.range' 0 m).map (refEntry buf)) = below buf m := by
  induction m with
  | zero => rfl
  | succ m ih =>
    rw [List.range'_concat, List.map_append, listed_append, ih, below, ← listed_refEntry]
    simp

/-- `ReadDir` and the reference agree on a block: they accept the same blocks with the same
entries, and no name is listed that is too long for the reference. -/
structure BlocksAgree (nid bs : ℕ) (buf : Bytes) (d : OpenDir) : Prop where
  accept : ∀ ds, direntsOfBlock buf bs = .ok ds →
    (OpenDir.listBlock none nid buf d []).ended = .whole ∧
      (OpenDir.listBlock none nid buf d []).ents = listed ds
  refuse : ∀ e, direntsOfBlock buf bs = .error e →
    ∃ e', (OpenDir.listBlock none nid buf d []).ended = .failed e'
  length : ∀ ent ∈ (OpenDir.listBlock none nid buf d []).ents, ent.name.length ≤ nameMax

/-- The names listed are short enough exactly when all are: `"."` and `".."` are. -/
theorem namesFit_iff : (∀ ent ∈ decoded buf, ent.name.length ≤ nameMax) ↔ NamesFit buf := by
  constructor
  · intro h i hi
    by_cases hh : Hidden buf i
    · rcases hh with hh | hh <;> rw [hh] <;> decide
    · exact h _ (mem_below.2 ⟨i, hi, hh, rfl⟩)
  · intro h ent hent
    obtain ⟨i, hi, -, rfl⟩ := mem_below.1 hent
    exact h i hi

/-- **Directory blocks.**  On a block of at most `bs` bytes `ReadDir` and the reference agree
exactly when no well-formed dirent before the first malformed one has a name of more than 255
bytes. -/
theorem blocksAgree_iff (nid : ℕ) {d : OpenDir} (hd : d.consumed = 0) (hbs : buf.length ≤ bs) :
    BlocksAgree nid bs buf d ↔ NamesFit buf := by
  obtain ⟨hents, hended⟩ := @listBlock_none buf nid d [] hd
  rw [List.nil_append] at hents
  constructor
  · intro h
    rw [← namesFit_iff, ← hents]
    exact h.length
  · intro hfit
    refine ⟨fun ds hds => ?_, fun e he => ?_, by rw [hents, namesFit_iff]; exact hfit⟩
    · obtain ⟨⟨hs, -⟩, rfl⟩ := (direntsOfBlock_iff hbs).1 hds
      rcases hended with ⟨-, hw⟩ | ⟨hns, -⟩
      · refine ⟨hw, ?_⟩
        rw [hents, listed_map_range, decoded, (sound_iff.1 hs).2]
      · exact absurd hs hns
    · rcases hended with ⟨hs, -⟩ | ⟨-, hf⟩
      · rw [(direntsOfBlock_iff hbs).2 ⟨⟨hs, hfit⟩, rfl⟩] at he
        cases he
      · exact hf

/-- A block of one dirent whose name is `n` times the byte `a`. -/
def longNameBlock (n : ℕ) : Bytes := [1, 0, 0, 0, 0, 0, 0, 0, 12, 0, 1, 0] ++ List.replicate n 97

/-- An open directory at its start. -/
def atStart : OpenDir := ⟨⟨[], 0, FileMode.dir, 0, none, none⟩, 0, 0⟩

/-- A name of 256 bytes is listed by `ReadDir` and refused by the reference. -/
theorem longName_disagrees :
    (longNameBlock 256).length ≤ 512 ∧ ¬ BlocksAgree 0 512 (longNameBlock 256) atStart := by
  refine ⟨by decide +kernel, fun h => ?_⟩
  have hlen := h.length
  revert hlen
  decide +kernel

/-- A name of 255 bytes is taken by both. -/
theorem longestName_agrees :
    atStart.consumed = 0 ∧ (longNameBlock 255).length ≤ 512 ∧
      BlocksAgree 0 512 (longNameBlock 255) atStart := by
  have hlen : (longNameBlock 255).length ≤ 512 := by decide +kernel
  refine ⟨rfl, hlen, (blocksAgree_iff 0 rfl hlen).2 ?_⟩
  have hfit : ∀ i < good (longNameBlock 255), (name (longNameBlock 255) i).length ≤ nameMax := by
    decide +kernel
  exact hfit

end Reference

end Erofs
