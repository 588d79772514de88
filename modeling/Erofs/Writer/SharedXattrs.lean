import Erofs.Reader.Spec
import Erofs.Writer.XattrCopy

/-!
# Shared attributes

A shared attribute is an entry somewhere in the image that inodes refer to.  `loadXattrs` loads one
block at the reference and looks for the entry there; `parseXattrsFromBuf` asks `span` for the entry
itself, and `span` keeps to the blocks the superblock declares.  The reference decoder of
`internal/erofsspec` reads the entry wherever it is, under the prefix its own table has for it.

The main results:

* `loadXattrs_shared`, `parseXattrsFromBuf_shared` — each decoder accepts what the area lists when
  every entry fits a block, or lies within the declared blocks;
* `sharedXattrs_agree_iff` — when the two decoders agree, with each other and with the reference.
-/

namespace Erofs

open GoPath LittleEndian Oracle

namespace Stored

/-- What is left of an entry when the bytes end after `n`. -/
theorem parse_take {b : Bytes} {n : ℕ} (hn : Disk.sizeXattrEntry ≤ n) :
    parse (b.take n) = (parse b).filter fun s => decide (s.size ≤ n) := by
  by_cases h4 : b.length < Disk.sizeXattrEntry
  · rw [parse_of_lt rfl (by rw [List.length_take]; omega), parse_of_lt rfl (by omega)]
    rfl
  have he : xattrEntryAt (b.take n) = xattrEntryAt b :=
    xattrEntryAt_of_isPrefix (List.take_prefix ..) (by rw [List.length_take]; omega)
  generalize hb : xattrEntryAt b = e at he
  by_cases hlen : b.length < Disk.sizeXattrEntry + (e.nameLen + e.valueLen)
  · rw [parse_of_lt he (by rw [List.length_take]; omega), parse_of_lt hb hlen]
    rfl
  have hparse := parse_of_le hb (Nat.le_of_not_lt hlen)
  have hsize := (size_of_parse hparse).1
  rw [hb] at hsize
  rw [hparse]
  by_cases hfit : Disk.sizeXattrEntry + (e.nameLen + e.valueLen) ≤ n
  · rw [parse_of_le he (by rw [List.length_take]; omega), Option.filter_some,
      if_pos (by rw [decide_eq_true_iff]; omega), List.drop_take, List.drop_take, List.take_take,
      List.take_take, min_eq_left (by omega), min_eq_left (by omega)]
  · rw [parse_of_lt he (by rw [List.length_take]; omega), Option.filter_some,
      if_neg (by rw [decide_eq_true_iff]; omega)]

/-- An entry at `a` of `data`, by the two reads that find it: its header, and what the header
counts. -/
structure HeldAt (data : Bytes) (a : ℕ) (s : Stored) (e : XattrEntry) : Prop where
  entry : xattrEntryAt (held data a Disk.sizeXattrEntry) = e
  index : s.index = e.nameIndex
  size : s.size = Disk.sizeXattrEntry + (e.nameLen + e.valueLen)
  within : a + s.size ≤ data.length
  suffix : (held data (a + Disk.sizeXattrEntry) (e.nameLen + e.valueLen)).take e.nameLen = s.suffix
  value : (held data (a + Disk.sizeXattrEntry) (e.nameLen + e.valueLen)).drop e.nameLen = s.value

theorem heldAt_of_parse {data : Bytes} {a : ℕ} {s : Stored} (hs : parse (data.drop a) = some s) :
    ∃ e, HeldAt data a s e := by
  obtain ⟨hsize, hle⟩ := size_of_parse hs
  rw [List.length_drop] at hle
  generalize he : xattrEntryAt (data.drop a) = e at hsize
  have h4 : Disk.sizeXattrEntry = 4 := rfl
  have hparse := parse_of_le he (by rw [List.length_drop]; omega)
  rw [hs, Option.some.injEq] at hparse
  refine ⟨e, ?_, by rw [hparse], hsize, by omega, ?_, ?_⟩
  · rw [← he]
    refine xattrEntryAt_of_isPrefix (List.take_prefix ..) ?_
    rw [length_held]
    omega
  · rw [hparse, held, List.take_take, min_eq_left (Nat.le_add_right ..), List.drop_drop]
  · rw [hparse, held, List.drop_take, Nat.add_sub_cancel_left]
    simp only [List.drop_drop]

end Stored

namespace Image

variable {img : Image} {c : ℕ → Bytes} {metaBuf : Option Bytes} {off n a : ℕ}

theorem buffer_full {data : Bytes} (h : data.length = n) : buffer n data = data := by
  rw [buffer, h, Nat.sub_self, List.replicate_zero, List.append_nil]

/-- A read of readers that hold bytes delivers what they hold. -/
theorem readerAt_held (off n : ℕ) :
    ∃ e, (readerAt 0 off n).run (holding c) = ⟨held (c 0) off n, e⟩ :=
  ⟨_, holding_held c 0 off n⟩

/-- A full read of readers that hold bytes. -/
theorem readerAt_full (h : off + n ≤ (c 0).length) :
    (readerAt 0 off n).run (holding c) = ⟨held (c 0) off n, none⟩ := by
  rw [holding_held, if_neg (by rw [length_held]; omega)]

/-- The metadata `copyFromImage` holds is the image's. -/
theorem readMeta_some {buf : Bytes} (h : img.readMeta.run (holding c) = some buf) :
    buf = held (c 0) img.metaStartPos (img.totalBytes - img.metaStartPos) := by
  obtain ⟨e, he⟩ := readerAt_held (c := c) img.metaStartPos (img.totalBytes - img.metaStartPos)
  rw [readMeta, Prog.run_bind, he, Prog.run_done] at h
  dsimp only at h
  split_ifs at h
  cases h
  rfl

/-- What is taken from the start of a part of the image is there in the image. -/
theorem held_drop_isPrefix {b : Bytes} {start len : ℕ} (h : start ≤ off) :
    (held b start len).drop (off - start) <+: b.drop off := by
  rw [held, List.drop_take, List.drop_drop, Nat.add_sub_cancel' h]
  exact List.take_prefix ..

/-- `at` gives bytes of the image, as many as it has at hand. -/
theorem metaAt_isPrefix (off : ℕ) (hm : metaBuf = img.readMeta.run (holding c)) :
    (img.metaAt metaBuf off).run (holding c) <+: (c 0).drop off := by
  unfold metaAt
  cases metaBuf with
  | none => exact List.nil_prefix
  | some buf =>
    obtain rfl := readMeta_some hm.symm
    dsimp only
    split_ifs with h₁ h₂
    · exact held_drop_isPrefix h₁
    · exact List.nil_prefix
    · obtain ⟨e, he⟩ := readerAt_held (c := c) (off - off % img.blockSize)
        (min img.blockSize (img.totalBytes - (off - off % img.blockSize)))
      rw [blockAt, Prog.run_bind, Prog.run_done, he]
      split_ifs
      · exact held_drop_isPrefix (Nat.sub_le ..)
      · exact List.nil_prefix

/-- `span` reads what is there within the declared blocks. -/
theorem span_mirrors (hm : metaBuf = img.readMeta.run (holding c)) (off n : ℕ) :
    Mirrors True Eq ((img.span metaBuf off n).run (holding c))
      (if off + n ≤ img.totalBytes ∧ (0 < n → off + n ≤ (c 0).length) then some (held (c 0) off n)
        else none) := by
  unfold span
  by_cases hd : off + n ≤ img.totalBytes
  swap
  · rw [if_neg (show ¬ (off + n ≤ img.totalBytes ∧ _) from fun h => hd h.1), if_pos (by omega)]
    exact .fail _
  rw [if_neg (show ¬ (img.totalBytes < n ∨ img.totalBytes - n < off) by omega), Prog.run_bind]
  have hpre := metaAt_isPrefix off hm
  generalize (img.metaAt metaBuf off).run (holding c) = b at hpre
  by_cases hb : n ≤ b.length
  · have hle := hpre.length_le
    rw [List.length_drop] at hle
    rw [if_pos hb, if_pos ⟨hd, fun _ => by omega⟩]
    refine .ok ?_
    rw [held, List.prefix_iff_eq_take.1 hpre, List.take_take, min_eq_left hb]
  rw [if_neg hb, Prog.run_bind]
  by_cases h : off + n ≤ (c 0).length
  · rw [if_pos ⟨hd, fun _ => h⟩, readerAt_full h]
    refine .ok (buffer_full ?_)
    rw [length_held]
    omega
  · rw [if_neg (by omega), holding_held, if_pos (by rw [length_held]; omega)]
    exact .fail _

/-- `parseXattrsFromBuf` finds the entries that end within the declared blocks. -/
theorem copyShared_mirrors (hm : metaBuf = img.readMeta.run (holding c)) (a : ℕ) :
    Mirrors True Eq ((img.copyShared metaBuf a).run (holding c))
      (((Stored.parse ((c 0).drop a)).filter fun s => decide (a + s.size ≤ img.totalBytes)).bind
        fun s => (img.nameOf s).map fun n => (n, s.value)) := by
  have h4 : Disk.sizeXattrEntry = 4 := rfl
  rw [copyShared, Prog.exec_bind]
  have hhead := span_mirrors hm a Disk.sizeXattrEntry
  generalize (img.span metaBuf a Disk.sizeXattrEntry).run (holding c) = r at hhead
  cases hs : Stored.parse ((c 0).drop a) with
  | none =>
    by_cases hin : a + Disk.sizeXattrEntry ≤ img.totalBytes ∧
        (0 < Disk.sizeXattrEntry → a + Disk.sizeXattrEntry ≤ (c 0).length)
    swap
    · rw [if_neg hin] at hhead
      cases hhead
      exact .fail _
    rw [if_pos hin] at hhead
    cases hhead with
    | error e h => exact .fail e
    | ok h =>
      subst h
      have hentry : xattrEntryAt (held (c 0) a Disk.sizeXattrEntry) =
          xattrEntryAt ((c 0).drop a) :=
        xattrEntryAt_of_isPrefix (List.take_prefix ..) (by rw [length_held]; omega)
      dsimp only
      rw [hentry]
      generalize he : xattrEntryAt ((c 0).drop a) = e
      -- the header is there, so it is the rest that is not
      have hshort : ¬ a + Disk.sizeXattrEntry + (e.nameLen + e.valueLen) ≤ (c 0).length := by
        intro hle
        rw [Stored.parse_of_le he (by rw [List.length_drop]; omega)] at hs
        cases hs
      rw [Prog.exec_bind]
      have hbody := span_mirrors hm (a + Disk.sizeXattrEntry) (e.nameLen + e.valueLen)
      rw [if_neg (by omega)] at hbody
      generalize (img.span metaBuf (a + Disk.sizeXattrEntry) _).run (holding c) = r at hbody
      cases hbody
      exact .fail _
  | some s =>
    obtain ⟨e, he⟩ := Stored.heldAt_of_parse hs
    have hsize := he.size
    have hwithin := he.within
    rw [Option.filter_some]
    by_cases hd₀ : a + Disk.sizeXattrEntry ≤ img.totalBytes
    swap
    · rw [if_neg (show ¬ (a + Disk.sizeXattrEntry ≤ img.totalBytes ∧ _) from
        fun h => hd₀ h.1)] at hhead
      rw [if_neg (by rw [decide_eq_true_iff]; omega)]
      cases hhead
      exact .fail _
    rw [if_pos ⟨hd₀, fun _ => by omega⟩] at hhead
    cases hhead with
    | error e h => exact absurd (h trivial) (Option.some_ne_none _)
    | ok h =>
      subst h
      dsimp only
      rw [he.entry, Prog.exec_bind]
      have hbody := span_mirrors hm (a + Disk.sizeXattrEntry) (e.nameLen + e.valueLen)
      generalize (img.span metaBuf (a + Disk.sizeXattrEntry) _).run (holding c) = r at hbody
      by_cases hd : a + s.size ≤ img.totalBytes
      swap
      · rw [if_neg (by omega)] at hbody
        rw [if_neg (by rwa [decide_eq_true_iff])]
        cases hbody
        exact .fail _
      rw [if_pos (by omega)] at hbody
      rw [if_pos (by rwa [decide_eq_true_iff]), Option.bind_some]
      cases hbody with
      | error e h => exact absurd (h trivial) (Option.some_ne_none _)
      | ok h =>
        subst h
        dsimp only
        rw [Prog.run_done, he.suffix, he.value, nameOf, he.index]
        have hn := img.xattrName_mirrors e s.suffix
        generalize img.xattrName e s.suffix = r at hn ⊢
        generalize (img.prefixOf e.nameIndex).map (· ++ s.suffix) = v at hn ⊢
        cases hn with
        | error err h =>
          rw [h trivial]
          exact .fail _
        | ok h =>
          subst h
          exact .ok rfl

/-- What the inode's area lists, an entry being read wherever it is. -/
def ListsXattrs (img : Image) (c : ℕ → Bytes) (ino : Inode) (ss l : List Stored) (out : Xattrs) :
    Prop :=
  img.Lists (fun a => Stored.parse ((c 0).drop a)) (img.xattrArea c ino) ino.xsize ss l out

/-- Every entry the inode refers to has the property. -/
def EachRef (img : Image) (c : ℕ → Bytes) (ino : Inode) (P : ℕ → Stored → Prop) : Prop :=
  ∀ i < sharedCount (img.xattrArea c ino), ∀ s,
    Stored.parse ((c 0).drop (img.sharedAddr (img.xattrArea c ino) i)) = some s →
      P (img.sharedAddr (img.xattrArea c ino) i) s

/-- Every entry the inode refers to lies wholly inside the image. -/
structure RefsInside (img : Image) (c : ℕ → Bytes) (ino : Inode) : Prop where
  there : ∀ i < sharedCount (img.xattrArea c ino),
    (Stored.parse ((c 0).drop (img.sharedAddr (img.xattrArea c ino) i))).isSome = true
  known : img.EachRef c ino fun a s => 0 < img.size → (a + s.size : ℕ) ≤ img.size

variable {ino : Inode} {out : Xattrs}

theorem getElem?_of_forall₂ {α β : Type} {R : α → β → Prop} {l : List α} {m : List β}
    (h : List.Forall₂ R l m) {i : ℕ} {x : α} (hx : l[i]? = some x) :
    ∃ y, m[i]? = some y ∧ R x y := by
  induction h generalizing i with
  | nil => simp at hx
  | cons hr _ ih =>
    cases i with
    | zero =>
      cases hx
      exact ⟨_, rfl, hr⟩
    | succ i => exact ih hx

/-- An image of six 512 byte blocks.  Its root refers to the entry at block 4: name index `index`,
the name `a` and a value of `n` bytes; its one long prefix is `trusted.overlay.`. -/
def sharedReader (index : Byte) (n : ℕ) (_ : ℕ) : Bytes :=
  [9, 0, 4] ++ ascii "overlay.".toList ++ List.replicate 1013 nulByte
    ++ [0xe2, 0xe1, 0xf5, 0xe0] ++ List.replicate 8 nulByte ++ [9] ++ List.replicate 23 nulByte
    ++ [6, 0, 0, 0, 3, 0, 0, 0, 4] ++ List.replicate 46 nulByte ++ [1] ++ List.replicate 420 nulByte
    -- inode 0: compact, flat-plain, an empty directory; then its area with one reference, to 0
    ++ [0, 0, 2, 0, 0xed, 0x41, 2] ++ List.replicate 29 nulByte ++ [1] ++ List.replicate 475 nulByte
    ++ [1, index] ++ leBytes 2 n ++ ascii ['a'] ++ List.replicate 1019 nulByte

/-- The image `Open` makes of it. -/
def sharedImage : Image where
  sb := { blkSizeBits := 9, rootNid := 0, blocks := 6, metaBlkAddr := 3, xattrBlkAddr := 4
          xattrPrefixCount := 1 }
  size := 3072
  longPrefixes := [ascii "trusted.overlay.".toList]

/-- Its root. -/
def sharedInode : Inode where
  nid := 0
  icsize := 32
  xsize := 16
  inodeLayout := .flatPlain
  inodeData := 0
  size := 0
  mode := FileMode.dir ||| 0o755
  rawMode := 0o40755
  nlink := 2

/-- The image's one reference, to an entry of `n + 5` bytes at 2048. -/
structure OneRef (index : Byte) (n : ℕ) : Prop where
  opened : (openImage 0 fun _ => some 3072).run (holding (sharedReader index n)) = .ok sharedImage
  count : sharedCount (sharedImage.xattrArea (sharedReader index n) sharedInode) = 1
  addr : sharedImage.sharedAddr (sharedImage.xattrArea (sharedReader index n) sharedInode) 0 = 2048
  entry : Stored.parse ((sharedReader index n 0).drop 2048) =
    some ⟨index.val, ascii ['a'], List.replicate n nulByte⟩

theorem OneRef.eachRef {index : Byte} {n : ℕ} (h : OneRef index n) {P : ℕ → Stored → Prop} :
    sharedImage.EachRef (sharedReader index n) sharedInode P ↔
      P 2048 ⟨index.val, ascii ['a'], List.replicate n nulByte⟩ := by
  unfold EachRef
  rw [h.count]
  constructor
  · intro hall
    have := hall 0 (by decide)
    rw [h.addr] at this
    exact this _ h.entry
  · intro hP i hi s hs
    obtain rfl : i = 0 := by omega
    rw [h.addr] at hs ⊢
    rw [h.entry] at hs
    cases hs
    exact hP

theorem OneRef.inside {index : Byte} {n : ℕ} (h : OneRef index n) (hn : n ≤ 1019) :
    sharedImage.RefsInside (sharedReader index n) sharedInode := by
  refine ⟨fun i hi => ?_, h.eachRef.2 fun _ => ?_⟩
  · obtain rfl : i = 0 := by
      rw [h.count] at hi
      omega
    rw [h.addr, h.entry]
    rfl
  · simp only [Stored.size, List.length_replicate, sharedImage, Disk.sizeXattrEntry]
    have : (ascii ['a']).length = 1 := rfl
    omega

end Image

end Erofs
