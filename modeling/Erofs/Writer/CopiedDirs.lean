import Erofs.Reader.Lookup
import Erofs.Writer.ImageCopy

/-!
# The copy's directory decoder

`parseDirBlock` decodes the bytes of a directory for `copyFromImage`, block by block, where
`ReadDir` rotates through the dirents of the blocks it loads.  Both follow the grammar of
`DirBlock`.

The main results:

* `copiedName_iff`, `copiedBlock_iff` — what the copy takes of a block;
* `decoders_agree` — on any bytes, `parseDirBlock` and `ReadDir(-1)` refuse alike or give the same
  entries, the copy's limit on the length of a path aside.
-/

namespace Erofs

open GoPath LittleEndian Oracle DirBlock

/-! ## One block -/

section Block

variable {parent : Path} {buf : Bytes} {i k : ℕ}

/-- What `parseDirBlock` queues for dirent `i`. -/
def queued (parent : Path) (buf : Bytes) (i : ℕ) : ImgQEntry :=
  ⟨(direntAt buf i).nid, parent ++ [name buf i], (direntAt buf i).fileType⟩

/-- What it queues for the dirents from `i` on, `k` of them. -/
def queuedFrom (parent : Path) (buf : Bytes) (i k : ℕ) : List ImgQEntry :=
  (List.range' i k).flatMap fun j => if Hidden buf j then [] else [queued parent buf j]

/-- The path of a child is one `checkPathLen` lets pass. -/
def PathFits (parent : Path) (name : Bytes) : Prop :=
  Writer.checkPathLen (parent ++ [name]) = .ok ()

/-- A queued entry as `ReadDir` would return it. -/
def ImgQEntry.listed (e : ImgQEntry) : DirEntry :=
  ⟨base e.path, e.nid, eroFSFtypeToFileMode e.ftype⟩

theorem listed_queued : (queued parent buf i).listed = entry buf i := by
  simp [ImgQEntry.listed, queued, entry, base]

theorem listed_queuedFrom (m : ℕ) :
    (queuedFrom parent buf 0 m).map ImgQEntry.listed = below buf m := by
  rw [below_eq, queuedFrom, List.map_flatMap]
  congr 1
  funext j
  split_ifs
  · rfl
  · rw [List.map_singleton, listed_queued]

/-- The copy takes the well-formed dirents. -/
theorem copiedName_iff (hi : i < count buf) {nm : Bytes} :
    copiedName parent buf (count buf) i = .ok nm ↔ Entry buf i ∧ nm = name buf i := by
  have h0 : (direntAt buf 0).nameOff = off buf 0 := rfl
  have hlo : (direntAt buf i).nameOff = off buf i := rfl
  have hend : (if i < count buf - 1 then (direntAt buf (i + 1)).nameOff else buf.length) =
      sliceEnd buf i := by
    unfold sliceEnd
    split_ifs <;> first | rfl | omega
  have hname : (if i = count buf - 1 then untilNul (slice buf (off buf i) (sliceEnd buf i))
      else slice buf (off buf i) (sliceEnd buf i)) = name buf i := by
    split_ifs with hlast
    · exact untilNul_slice_last (by omega)
    · exact slice_next (by omega)
  have hbounds := @sliceEnd_bounds_iff buf i
  simp only [copiedName, h0, hlo, hend, hname]
  by_cases hb : off buf i < off buf 0 ∨ sliceEnd buf i < off buf i ∨ buf.length < sliceEnd buf i
  · rw [if_pos hb]
    refine iff_of_false nofun fun h => ?_
    obtain ⟨hreg, hord, hin, -⟩ := h.1
    have := hbounds.2 ⟨hord, hin⟩
    omega
  · rw [if_neg hb]
    obtain ⟨hord, hin⟩ := hbounds.1 ⟨by omega, by omega⟩
    cases hc : checkDirentName (name buf i) with
    | error e =>
      refine iff_of_false nofun fun h => ?_
      rw [(@checkDirentName_ok_iff _ ()).2 h.1.valid] at hc
      cases hc
    | ok u =>
      rw [Except.ok.injEq]
      exact ⟨fun h => ⟨⟨by omega, hord, hin, checkDirentName_ok_iff.1 hc⟩, h.symm⟩,
        fun h => h.2.symm⟩

/-- The copy's walk at a well-formed dirent. -/
theorem copiedDirents_entry (hi : i < count buf) (he : Entry buf i) :
    copiedDirents parent buf (count buf) (k + 1) i =
      if Hidden buf i then copiedDirents parent buf (count buf) k (i + 1)
      else (Writer.checkPathLen (parent ++ [name buf i])).bind fun _ =>
        (copiedDirents parent buf (count buf) k (i + 1)).map (queued parent buf i :: ·) := by
  rw [copiedDirents, (copiedName_iff hi).2 ⟨he, rfl⟩]
  by_cases hh : Hidden buf i
  · rw [if_pos hh]
    exact if_pos hh
  · rw [if_neg hh]
    refine (if_neg hh).trans ?_
    cases Writer.checkPathLen (parent ++ [name buf i]) with
    | error e => rfl
    | ok u => cases copiedDirents parent buf (count buf) k (i + 1) <;> rfl

theorem copiedDirents_iff (hik : i + k ≤ count buf) {q : List ImgQEntry} :
    copiedDirents parent buf (count buf) k i = .ok q ↔
      (∀ j, i ≤ j → j < i + k → Entry buf j ∧ (¬ Hidden buf j → PathFits parent (name buf j))) ∧
        q = queuedFrom parent buf i k := by
  induction k generalizing i q with
  | zero =>
    rw [copiedDirents, Except.ok.injEq]
    exact ⟨fun h => ⟨fun j h1 h2 => by omega, h.symm⟩, fun h => h.2.symm⟩
  | succ k ih =>
    have hi : i < count buf := by omega
    have hqueue : queuedFrom parent buf i (k + 1) =
        (if Hidden buf i then [] else [queued parent buf i]) ++
          queuedFrom parent buf (i + 1) k := by
      rw [queuedFrom, List.range'_succ, List.flatMap_cons]
      rfl
    have hsplit : (∀ j, i ≤ j → j < i + (k + 1) →
        Entry buf j ∧ (¬ Hidden buf j → PathFits parent (name buf j))) ↔
        (Entry buf i ∧ (¬ Hidden buf i → PathFits parent (name buf i))) ∧
          ∀ j, i + 1 ≤ j → j < i + 1 + k →
            Entry buf j ∧ (¬ Hidden buf j → PathFits parent (name buf j)) := by
      constructor
      · exact fun h => ⟨h i le_rfl (by omega), fun j h1 h2 => h j (by omega) (by omega)⟩
      · rintro ⟨h0, h⟩ j h1 h2
        obtain rfl | hne := Nat.eq_or_lt_of_le h1
        · exact h0
        · exact h j hne (by omega)
    rw [hsplit, hqueue]
    by_cases he : Entry buf i
    swap
    · refine iff_of_false (fun h => ?_) fun h => he h.1.1.1
      obtain ⟨nm, hnm, -⟩ := except_bind_ok h
      exact he ((copiedName_iff hi).1 hnm).1
    rw [copiedDirents_entry hi he]
    by_cases hh : Hidden buf i
    · rw [if_pos hh, if_pos hh, ih (by omega)]
      simp [he, hh]
    · rw [if_neg hh, if_neg hh]
      cases hp : Writer.checkPathLen (parent ++ [name buf i]) with
      | error e =>
        refine iff_of_false nofun fun h => ?_
        cases hp.symm.trans (h.1.1.2 hh)
      | ok u =>
        have hfits : PathFits parent (name buf i) := hp
        constructor
        · intro h
          cases hrest : copiedDirents parent buf (count buf) k (i + 1) with
          | error e =>
            rw [hrest] at h
            cases h
          | ok rest =>
            rw [hrest] at h
            obtain ⟨hall, rfl⟩ := (ih (by omega)).1 hrest
            cases h
            exact ⟨⟨⟨he, fun _ => hfits⟩, hall⟩, rfl⟩
        · rintro ⟨⟨-, hall⟩, rfl⟩
          rw [(ih (by omega)).2 ⟨hall, rfl⟩]
          rfl

/-- **The copy's blocks.**  `parseDirBlock` accepts the well-formed blocks whose children's paths
fit. -/
theorem copiedBlock_iff {q : List ImgQEntry} :
    copiedBlock parent buf = .ok q ↔
      (DirBlock.Sound buf ∧ ∀ ent ∈ decoded buf, PathFits parent ent.name) ∧
        q = queuedFrom parent buf 0 (count buf) := by
  have hoff : (direntAt buf 0).nameOff = off buf 0 := rfl
  have hcount : off buf 0 / 12 = count buf := rfl
  simp only [copiedBlock, hoff, Disk.sizeDirent, hcount]
  split_ifs with h1 h2
  · refine iff_of_false (by rintro ⟨⟩) fun h => ?_
    obtain ⟨hpos, hal, hin⟩ := h.1.1.head
    omega
  · refine iff_of_false (by rintro ⟨⟩) fun h => ?_
    obtain ⟨hpos, hal, hin⟩ := h.1.1.head
    omega
  · rw [copiedDirents_iff (by omega)]
    refine and_congr_left fun _ => ?_
    simp only [Nat.zero_le, Nat.zero_add, forall_const]
    constructor
    · intro h
      have hpos : 0 < count buf := by omega
      have hin : off buf 0 < buf.length := by
        have he := (h 0 hpos).1
        have hne := List.length_pos_iff.2 he.valid.nonempty
        rw [length_name he.inside] at hne
        have := he.inside
        omega
      have hs : DirBlock.Sound buf := ⟨⟨hpos, by omega, hin⟩, fun i hi => (h i hi).1⟩
      refine ⟨hs, fun ent hent => ?_⟩
      obtain ⟨i, hi, hh, rfl⟩ := mem_below.1 hent
      exact (h i (lt_of_lt_of_le hi good_le)).2 hh
    · rintro ⟨hs, hfit⟩ j hj
      refine ⟨hs.entry j hj, fun hh => hfit _ (mem_below.2 ⟨j, ?_, hh, rfl⟩)⟩
      exact (sound_iff.1 hs).2.symm ▸ hj

end Block

/-! ## A directory's content -/

namespace Image

/-- The blocks of the directory `fi` are those of `content`. -/
structure HasContent (img : Image) (o : Req → Answer) (fi : Inode) (content : Bytes) : Prop where
  size : content.length = fi.size
  /-- A slice of bytes never comes within a block of `2^63`, where the reader's positions wrap. -/
  fits : content.length + img.blockSize ≤ 2 ^ 63
  block : ∀ b < img.dirBlocks fi, img.dirBlock o fi b =
    .ok ((content.drop (b * img.blockSize)).take img.blockSize)

variable {img : Image} {o : Req → Answer} {fi : Inode} {content : Bytes} {parent : Path}
  {fuel b k : ℕ}

theorem drop_ne_nil_iff (hc : img.HasContent o fi content) :
    content.drop (b * img.blockSize) ≠ [] ↔ b < img.dirBlocks fi := by
  rw [lt_dirBlocks_iff, ← hc.size, ne_eq, List.drop_eq_nil_iff, not_le]

/-- `parseDirBlock` at the start of a block. -/
theorem parseDirBlock_step (hc : img.HasContent o fi content) (hb : b < img.dirBlocks fi)
    (hfuel : content.length ≤ b * img.blockSize + fuel) :
    ∃ fuel', content.length ≤ (b + 1) * img.blockSize + fuel' ∧
      parseDirBlock parent img.blockSize fuel (content.drop (b * img.blockSize)) =
        (copiedBlock parent ((content.drop (b * img.blockSize)).take img.blockSize)).bind
          fun ents => (parseDirBlock parent img.blockSize fuel'
            (content.drop ((b + 1) * img.blockSize))).map (ents ++ ·) := by
  have hlt := lt_dirBlocks_iff.1 hb
  have hpos := img.blockSize_pos
  rw [← hc.size] at hlt
  obtain ⟨f, rfl⟩ : ∃ f, fuel = f + 1 := ⟨fuel - 1, by omega⟩
  refine ⟨f, by rw [Nat.add_mul]; omega, ?_⟩
  rw [parseDirBlock, if_neg ((drop_ne_nil_iff hc).2 hb), List.drop_drop, Nat.add_mul, Nat.one_mul]
  cases copiedBlock parent ((content.drop (b * img.blockSize)).take img.blockSize) with
  | error e => rfl
  | ok ents =>
    show (parseDirBlock _ _ _ _).bind _ = (parseDirBlock _ _ _ _).map _
    cases parseDirBlock parent img.blockSize f
      (content.drop (b * img.blockSize + img.blockSize)) <;> rfl

theorem parseDirBlock_end (hc : img.HasContent o fi content) (hb : img.dirBlocks fi ≤ b) :
    parseDirBlock parent img.blockSize fuel (content.drop (b * img.blockSize)) = .ok [] := by
  have hnil : content.drop (b * img.blockSize) = [] :=
    not_not.1 fun h => absurd ((drop_ne_nil_iff hc).1 h) (not_lt.2 hb)
  rw [hnil]
  cases fuel <;> rfl

/-- What the copy accepts consists of well-formed blocks, and it queues what the reader lists. -/
theorem parseDirBlock_sound (hc : img.HasContent o fi content) (hbk : b + k = img.dirBlocks fi)
    (hfuel : content.length ≤ b * img.blockSize + fuel) {q : List ImgQEntry}
    (h : parseDirBlock parent img.blockSize fuel (content.drop (b * img.blockSize)) = .ok q) :
    (∀ j, b ≤ j → j < img.dirBlocks fi → img.SoundAt o fi j) ∧
      q.map ImgQEntry.listed = img.entriesFrom o fi k b := by
  induction k generalizing b fuel q with
  | zero =>
    rw [parseDirBlock_end hc (by omega)] at h
    cases h
    exact ⟨fun j h1 h2 => by omega, rfl⟩
  | succ k ih =>
    have hb : b < img.dirBlocks fi := by omega
    obtain ⟨fuel', hfuel', hstep⟩ := @parseDirBlock_step img o fi content parent fuel b hc hb hfuel
    rw [hstep] at h
    cases hblock : copiedBlock parent ((content.drop (b * img.blockSize)).take img.blockSize) with
    | error e =>
      rw [hblock] at h
      cases h
    | ok ents =>
      obtain ⟨⟨hs, -⟩, rfl⟩ := copiedBlock_iff.1 hblock
      rw [hblock] at h
      cases hrest : parseDirBlock parent img.blockSize fuel'
          (content.drop ((b + 1) * img.blockSize)) with
      | error e =>
        rw [Except.bind, hrest] at h
        cases h
      | ok rest =>
        rw [Except.bind, hrest] at h
        cases h
        obtain ⟨hall, hlist⟩ := ih (by omega) hfuel' hrest
        refine ⟨fun j h1 h2 => ?_, ?_⟩
        · rcases h1.eq_or_lt with rfl | h1
          · exact ⟨_, hc.block b hb, hs⟩
          · exact hall j h1 h2
        · rw [entriesFrom_ok (hc.block b hb), if_pos hs, List.map_append, listed_queuedFrom, hlist,
            decoded, (sound_iff.1 hs).2]

/-- The copy accepts well-formed blocks whose children's paths fit. -/
theorem parseDirBlock_complete (hc : img.HasContent o fi content) (hbk : b + k = img.dirBlocks fi)
    (hfuel : content.length ≤ b * img.blockSize + fuel)
    (hs : ∀ j, b ≤ j → j < img.dirBlocks fi → img.SoundAt o fi j)
    (hfit : ∀ ent ∈ img.entriesFrom o fi k b, PathFits parent ent.name) :
    ∃ q, parseDirBlock parent img.blockSize fuel (content.drop (b * img.blockSize)) = .ok q := by
  induction k generalizing b fuel with
  | zero => exact ⟨[], parseDirBlock_end hc (by omega)⟩
  | succ k ih =>
    have hb : b < img.dirBlocks fi := by omega
    obtain ⟨fuel', hfuel', hstep⟩ := @parseDirBlock_step img o fi content parent fuel b hc hb hfuel
    obtain ⟨buf, hload, hsound⟩ := hs b le_rfl hb
    cases (hc.block b hb).symm.trans hload
    rw [entriesFrom_ok hload, if_pos hsound] at hfit
    obtain ⟨rest, hrest⟩ := ih (by omega) hfuel' (fun j h1 h2 => hs j (by omega) h2)
      fun ent hent => hfit ent (List.mem_append_right _ hent)
    rw [hstep, copiedBlock_iff.2 ⟨⟨hsound, fun ent hent =>
      hfit ent (List.mem_append_left _ hent)⟩, rfl⟩, Except.bind, hrest]
    exact ⟨_, rfl⟩

/-- **The directory decoders agree.**  Whatever bytes a directory holds, where `ReadDir(-1)` returns
an error `parseDirBlock` does, what `parseDirBlock` accepts `ReadDir(-1)` lists as the same sequence
of names, nids and types, and it accepts all that `ReadDir(-1)` lists but a child whose path is too
long. -/
theorem decoders_agree {nm : Bytes} {nid : ℕ} {ftype : FileMode}
    (hino : (img.readInfo nm nid ftype).run o = .ok fi) (hc : img.HasContent o fi content)
    (parent : Path) :
    let r := (OpenDir.readDir img none ⟨⟨nm, nid, ftype, 0, none, none⟩, 0, 0⟩).run o
    let copied := parseDirBlock parent img.blockSize content.length content
    (r.2.2.isSome → ∃ e, copied = .error e) ∧
      (∀ q, copied = .ok q → r.2.2 = none ∧ r.2.1 = q.map ImgQEntry.listed) ∧
      (r.2.2 = none → (∀ ent ∈ r.2.1, PathFits parent ent.name) → ∃ q, copied = .ok q) := by
  have hk : img.Known o fi ⟨⟨nm, nid, ftype, 0, none, none⟩, 0, 0⟩ := by
    refine ⟨⟨nm, nid, ftype, 0, some fi, none⟩, ?_, rfl⟩
    simp only [OpenFile.readInfo, Prog.exec_bind, hino, Prog.run_done]
  obtain ⟨hents, hclean⟩ :=
    readDir_all (hc.size ▸ hc.fits) (fun b hb => ⟨_, hc.block b hb⟩) hk rfl rfl
  intro r copied
  have hstart : copied = parseDirBlock parent img.blockSize content.length
      (content.drop (0 * img.blockSize)) := by
    rw [Nat.zero_mul, List.drop_zero]
  have hfuel : content.length ≤ 0 * img.blockSize + content.length := Nat.le_add_left _ _
  have hsound : ∀ q, copied = .ok q → r.2.2 = none ∧ r.2.1 = q.map ImgQEntry.listed := by
    intro q hq
    obtain ⟨hall, hlist⟩ := parseDirBlock_sound hc (Nat.zero_add _) hfuel (hstart ▸ hq)
    exact ⟨hclean.2 fun b hb => hall b (Nat.zero_le b) hb, hents.trans hlist.symm⟩
  refine ⟨fun herr => ?_, hsound, fun hnone hfit => ?_⟩
  · cases hq : copied with
    | error e => exact ⟨e, rfl⟩
    | ok q =>
      rw [(hsound q hq).1] at herr
      cases herr
  · have hfit' : ∀ ent ∈ img.dirEntries o fi, PathFits parent ent.name := fun ent hent =>
      hfit ent (by rw [show r.2.1 = _ from hents]; exact hent)
    rw [hstart]
    exact parseDirBlock_complete hc (Nat.zero_add _) hfuel (fun b _ hb => hclean.1 hnone b hb) hfit'

/-- The dirents of the image with one file. -/
def oneFileDirents : Bytes :=
  zeros 8 ++ [36, 0, 2, 0] ++ zeros 8 ++ [37, 0, 2, 0] ++ [4] ++ zeros 7 ++ [39, 0, 1, 0] ++
    [46, 46, 46, 97]

/-- The root of the image with one file is decoded alike, to the entry `a`. -/
theorem oneFile_decoders :
    (oneFileFS.readInfo [] 0 FileMode.dir).run (oneFileReader [0, 0]) = .ok oneFileRoot ∧
      oneFileFS.HasContent (oneFileReader [0, 0]) oneFileRoot oneFileDirents ∧
      parseDirBlock [] 512 40 oneFileDirents = .ok [⟨4, [[97]], 1⟩] ∧
      ((OpenDir.readDir oneFileFS none ⟨⟨[], 0, FileMode.dir, 0, none, none⟩, 0, 0⟩).run
        (oneFileReader [0, 0])).2 = ([⟨[97], 4, 0⟩], none) := by
  have hblocks : oneFileFS.dirBlocks oneFileRoot = 1 := by decide
  have hc : oneFileFS.HasContent (oneFileReader [0, 0]) oneFileRoot oneFileDirents := by
    refine ⟨by decide, by decide, fun b hb => ?_⟩
    obtain rfl : b = 0 := by omega
    rw [oneFile_dirBlock]
    decide
  have hq : parseDirBlock [] 512 40 oneFileDirents = .ok [⟨4, [[97]], 1⟩] := by decide +kernel
  obtain ⟨-, hsame, -⟩ := decoders_agree oneFile_root hc []
  obtain ⟨herr, hents⟩ := hsame _ hq
  exact ⟨oneFile_root, hc, hq, Prod.ext (hents.trans (by decide)) herr⟩

end Image

end Erofs
