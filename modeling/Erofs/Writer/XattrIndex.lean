import Erofs.Reader.Open
import Erofs.Writer.SharedXattrs

/-!
# The name indexes attributes are stored under

The format defines the name indexes up to 6.  `xattrIndexPrefix` refuses the others, and every
decoder goes through it for an index stored in the entry itself.  The base index of a long prefix is
resolved once, by `loadLongPrefixes`, which takes its spelling as it is: an undefined one is spelled
with nothing, and the infix is then the whole name.

The main results:

* `loadXattrs_sound`, `readCopied_sound` — what `Stat` and the copy report is what the area lists,
  wherever the area and its references lie;
* `indexes_defined_iff` — all of it was stored under defined indexes exactly if the items of the
  table that the entries of readable inodes refer to have a defined base index.
-/

namespace Erofs

open GoPath LittleEndian Oracle

namespace Image

variable {img : Image} {c : ℕ → Bytes} {ino : Inode} {out : Xattrs}

/-! ## What is reported is listed -/

/-- What `loadXattrs` accepts of an inode's area is what the area lists. -/
theorem loadXattrs_sound (hbits : 9 ≤ img.sb.blkSizeBits)
    (haddr : img.inodeStart ino.nid + ino.icsize + ino.xsize < 2 ^ 64)
    (h : (img.loadXattrs ino).run (holding c) = .ok out) :
    ∃ ss l, img.ListsXattrs c ino ss l out := by
  have hbs := le_blockSize hbits
  have hyields : Yields False _ _ := loadXattrs_yields
    (fun a => if (c 0).length ≤ a then none
      else some (held (c 0) a (min img.blockSize img.blockSize)))
    (windows_held haddr False.elim ino.nid) hbs (by rw [length_held]; omega)
    fun i _ => img.loadAt_mirrors (by omega) False.elim
  obtain ⟨ss, l, hl⟩ := hyields.sound h
  refine ⟨ss, l, hl.mono fun a s hs => ?_⟩
  obtain ⟨b, hb, hs⟩ := Option.bind_eq_some_iff.1 hs
  split_ifs at hb
  cases hb
  rw [min_self, held, Stored.parse_take (by unfold Disk.sizeXattrEntry; omega)] at hs
  exact (Option.filter_eq_some_iff.1 hs).1

theorem copyInode_ok {nid : ℕ} {buf : Bytes} (h : img.copyInode nid buf = .ok ino) :
    ino.nid = nid ∧ ino.xsize = 0 := by
  unfold copyInode at h
  dsimp only at h
  split_ifs at h
  · cases h
    exact ⟨rfl, rfl⟩
  · cases h
    exact ⟨rfl, rfl⟩

/-- What the copy takes of an inode's area is what the area lists. -/
theorem readCopied_sound {cur : ImgQEntry}
    (h : (img.readCopied (img.readMeta.run (holding c)) cur).run (holding c) = .ok (ino, out)) :
    (ino.xsize = 0 ∧ out = []) ∨ ∃ ss l, img.ListsXattrs c ino ss l out := by
  unfold readCopied at h
  split_ifs at h
  · cases h
  rw [Prog.run_bind] at h
  generalize (img.metaAt _ (img.inodeStart cur.nid)).run (holding c) = buf at h
  dsimp only at h
  split at h
  · cases h
  next ino₀ hino =>
  obtain ⟨ino₁, hcopy, hino⟩ := except_bind_ok hino
  have hself : ino₁ = ino₀ := by
    cases hc : checkCopied cur (field buf 0 2) (field buf 2 2) ino₁ with
    | error e =>
      rw [hc] at hino
      cases hino
    | ok u =>
      rw [hc] at hino
      cases hino
      rfl
  subst hself
  obtain ⟨hnid, hxsize⟩ := copyInode_ok hcopy
  split_ifs at h with h0
  · cases h
    exact .inl ⟨hxsize, rfl⟩
  refine .inr ?_
  obtain ⟨xs, hxs, h⟩ := Prog.exec_bind_ok h
  cases h
  rw [Prog.run_bind] at hxs
  obtain ⟨area, harea, hparse⟩ := Prog.exec_bind_ok (mapError_ok hxs)
  have hspan := (span_mirrors rfl _ _).ok_iff.1 harea
  split_ifs at hspan with hin
  cases hspan
  have hlen : (held (c 0) (img.inodeStart cur.nid + ino₁.icsize)
      ((field buf 2 2 - 1) * Disk.sizeXattrEntry + Disk.sizeXattrBodyHeader)).length =
      (field buf 2 2 - 1) * Disk.sizeXattrEntry + Disk.sizeXattrBodyHeader := by
    have := hin.2 (by unfold Disk.sizeXattrBodyHeader; omega)
    rw [length_held]
    omega
  obtain ⟨ss, l, hl⟩ := (parseXattrsFromBuf_iff (fun a => (Stored.parse ((c 0).drop a)).filter
    fun s => decide (a + s.size ≤ img.totalBytes)) fun i _ => copyShared_mirrors rfl _).1 hparse
  rw [hlen] at hl
  refine ⟨ss, l, ?_⟩
  rw [ListsXattrs, xattrArea]
  dsimp only
  rw [hnid]
  exact hl.mono fun a s hs => (Option.filter_eq_some_iff.1 hs).1

/-! ## Defined indexes -/

/-- The index is one the format defines, or its long prefix is an item whose base index is. -/
def DefinedIndex (items : List Bytes) (index : ℕ) : Prop :=
  if index &&& 0x80 ≠ 0 then ∃ item, items[index &&& 0x7f]? = some item ∧ field item 0 1 < 7
  else index < 7

/-- If the index is a long prefix's, the base index of its item is defined. -/
def DefinedBase (items : List Bytes) (index : ℕ) : Prop :=
  index &&& 0x80 ≠ 0 → ∀ item, items[index &&& 0x7f]? = some item → field item 0 1 < 7

/-- A name is put together for a defined index, or for a long prefix of the table. -/
theorem definedIndex_iff {items : List Bytes} (hitems : img.longPrefixes = items.map itemPrefix)
    {s : Stored} {name : Bytes} (h : img.nameOf s = some name) :
    DefinedIndex items s.index ↔ DefinedBase items s.index := by
  obtain ⟨pre, hpre, -⟩ := Option.map_eq_some_iff.1 h
  unfold prefixOf at hpre
  unfold DefinedIndex DefinedBase
  by_cases hlong : s.index &&& 0x80 ≠ 0
  · rw [if_pos hlong, hitems, List.getElem?_map] at hpre
    obtain ⟨item, hitem, -⟩ := Option.map_eq_some_iff.1 hpre
    rw [if_pos hlong, hitem]
    simp [hlong]
  · rw [if_neg hlong] at hpre ⊢
    have hlt : s.index < 7 := by
      by_contra hge
      rw [if_neg (by omega), if_neg (not_not.2 (xattrIndexString_undefined (by omega)))] at hpre
      cases hpre
    exact iff_of_true hlt fun h => absurd h hlong

/-- The decoders report `xs` for the inode: `Stat` does, or the copy takes them over. -/
def Reports (img : Image) (c : ℕ → Bytes) (ino : Inode) (xs : Xattrs) : Prop :=
  (∃ name nid ftype ranges,
    (img.statInfo name nid ftype).run (holding c) = .ok (ino, fileInfo ino xs ranges)) ∨
  ∃ cur, (img.readCopied (img.readMeta.run (holding c)) cur).run (holding c) = .ok (ino, xs)

/-- What is reported of an inode is what its area lists, if it has one. -/
theorem Reports.lists (h : img.Reports c ino out) (hbits : 9 ≤ img.sb.blkSizeBits) :
    (ino.xsize = 0 ∧ out = []) ∨ ∃ ss l, img.ListsXattrs c ino ss l out := by
  rcases h with ⟨name, nid, ftype, ranges, h⟩ | ⟨cur, h⟩
  · obtain ⟨ino', hino, h⟩ := Prog.exec_bind_ok h
    obtain ⟨fi, hfi, h⟩ := Prog.exec_bind_ok h
    cases h
    obtain ⟨xs, hxs, hfi⟩ := Prog.exec_bind_ok hfi
    obtain ⟨ranges', -, hfi⟩ := Prog.exec_bind_ok hfi
    rw [Prog.run_done, Except.ok.injEq] at hfi
    obtain rfl : xs = out := by simpa [fileInfo] using congrArg FileInfo.sys hfi
    obtain ⟨hnid, hacc⟩ := readInfo_ok hino
    by_cases hx : 0 < ino.xsize
    · rw [if_pos hx] at hxs
      refine .inr (loadXattrs_sound hbits ?_ hxs)
      have hstart := (checkNid_ok hnid).1
      have hsize := hacc.xsize_lt
      have hic := hacc.icsize
      rw [hacc.nid_eq]
      unfold maxInt64 Disk.sizeInodeExtended at hstart
      omega
    · rw [if_neg hx] at hxs
      cases hxs
      exact .inl ⟨by omega, rfl⟩
  · exact readCopied_sound h

/-- What is reported of an inode was stored in its area, all of it under defined indexes. -/
def FromDefined (img : Image) (c : ℕ → Bytes) (items : List Bytes) (ino : Inode) (xs : Xattrs) :
    Prop :=
  (ino.xsize = 0 ∧ xs = []) ∨
    ∃ ss l, img.ListsXattrs c ino ss l xs ∧ ∀ s ∈ ss ++ l, DefinedIndex items s.index

/-- The result is an error for a corrupt image. -/
def Refused {α : Type} (r : Except GoError α) : Prop :=
  ∃ err, r = .error err ∧ err.is .corrupt = true

theorem refused_iff {items : List Bytes} (hitems : img.longPrefixes = items.map itemPrefix)
    {e : XattrEntry} (h : ¬ DefinedIndex items e.nameIndex) (nid : ℕ) (where_ : String)
    (rawName : Bytes) :
    Refused (img.entryPrefix nid where_ e) ∧ Refused (img.xattrName e rawName) ↔
      DefinedBase items e.nameIndex := by
  unfold DefinedIndex at h
  unfold DefinedBase
  unfold entryPrefix xattrName
  by_cases hlong : e.nameIndex &&& 0x80 ≠ 0
  · rw [if_pos hlong] at h
    simp only [if_pos hlong, getLongPrefix, hitems, List.getElem?_map]
    cases hitem : items[e.nameIndex &&& 0x7f]? with
    | none =>
      refine iff_of_true ⟨⟨_, rfl, rfl⟩, ⟨_, rfl, rfl⟩⟩ fun _ item hnone => ?_
      cases hnone
    | some item =>
      refine iff_of_false ?_ fun hbase => h ⟨item, hitem, hbase hlong item rfl⟩
      rintro ⟨⟨err, herr, -⟩, -⟩
      cases herr
  · rw [if_neg hlong] at h
    have hundef : xattrIndexString e.nameIndex = [] := xattrIndexString_undefined (by omega)
    simp only [if_neg hlong, xattrIndexPrefix, hundef]
    rw [if_neg (by omega), if_neg (not_not.2 rfl)]
    exact iff_of_true ⟨⟨_, rfl, rfl⟩, ⟨_, rfl, rfl⟩⟩ fun h => absurd h hlong

/-- `Stat` or the copy reads the inode. -/
def Readable (img : Image) (c : ℕ → Bytes) (ino : Inode) : Prop :=
  (∃ name nid ftype fi, (img.statInfo name nid ftype).run (holding c) = .ok (ino, fi)) ∨
  ∃ cur xs, (img.readCopied (img.readMeta.run (holding c)) cur).run (holding c) = .ok (ino, xs)

theorem readable_iff : img.Readable c ino ↔ ∃ xs, img.Reports c ino xs := by
  constructor
  · rintro (⟨name, nid, ftype, fi, h⟩ | ⟨cur, xs, h⟩)
    · obtain ⟨ino', hino, hrest⟩ := Prog.exec_bind_ok h
      obtain ⟨fi', hfi, hrest⟩ := Prog.exec_bind_ok hrest
      obtain ⟨xs, hxs, hfi⟩ := Prog.exec_bind_ok hfi
      obtain ⟨ranges, -, hfi⟩ := Prog.exec_bind_ok hfi
      cases hrest
      cases hfi
      exact ⟨xs, .inl ⟨name, nid, ftype, ranges, h⟩⟩
    · exact ⟨xs, .inr ⟨cur, h⟩⟩
  · rintro ⟨xs, ⟨name, nid, ftype, ranges, h⟩ | ⟨cur, h⟩⟩
    · exact .inl ⟨name, nid, ftype, _, h⟩
    · exact .inr ⟨cur, xs, h⟩

/-- The entries an inode has by the bytes of its area: those it refers to, `ss`, and those it
stores, `l`. -/
structure HasEntries (img : Image) (c : ℕ → Bytes) (ino : Inode) (ss l : List Stored) : Prop where
  room : inlineStart (img.xattrArea c ino) ≤ (img.xattrArea c ino).length
  refs : (List.range (sharedCount (img.xattrArea c ino))).map
    (fun i => Stored.parse ((c 0).drop (img.sharedAddr (img.xattrArea c ino) i))) = ss.map some
  entries : Stores (img.xattrArea c ino) ino.xsize (inlineStart (img.xattrArea c ino)) l

theorem ListsXattrs.hasEntries {ss l : List Stored} (h : img.ListsXattrs c ino ss l out) :
    img.HasEntries c ino ss l :=
  ⟨h.room, h.refs, h.entries⟩

theorem HasEntries.unique {ss l ss' l' : List Stored} (h : img.HasEntries c ino ss l)
    (h' : img.HasEntries c ino ss' l') : ss = ss' ∧ l = l' :=
  ⟨List.map_injective_iff.2 (Option.some_injective _) (h.refs.symm.trans h'.refs),
    h.entries.unique h'.entries⟩

theorem HasEntries.xsize_pos {ss l : List Stored} (h : img.HasEntries c ino ss l) :
    0 < ino.xsize := by
  have hroom := h.room
  rw [xattrArea, length_held, inlineStart, Disk.sizeXattrBodyHeader] at hroom
  omega

/-- Every item of the table that an entry of the inode refers to has a defined base index. -/
def BasesDefined (img : Image) (c : ℕ → Bytes) (items : List Bytes) (ino : Inode) : Prop :=
  ∀ ss l, img.HasEntries c ino ss l → ∀ s ∈ ss ++ l, DefinedBase items s.index

/-- What is listed was all stored under defined indexes exactly if the items of the table that it
refers to have defined base indexes. -/
theorem ListsXattrs.definedIndex_iff {items : List Bytes}
    (hitems : img.longPrefixes = items.map itemPrefix) {ss l : List Stored}
    (h : img.ListsXattrs c ino ss l out) {s : Stored} (hs : s ∈ ss ++ l) :
    DefinedIndex items s.index ↔ DefinedBase items s.index := by
  obtain ⟨ys, -, hys⟩ := forall₂_of_foldlM h.names
  obtain ⟨i, hi⟩ := List.mem_iff_getElem?.1 hs
  obtain ⟨y, -, hname, -⟩ := getElem?_of_forall₂ hys hi
  exact Image.definedIndex_iff hitems hname

/-- What is reported of an inode was stored under defined indexes exactly if its entries refer only
to items of the table with a defined base index. -/
theorem Reports.fromDefined_iff {items : List Bytes}
    (hitems : img.longPrefixes = items.map itemPrefix) (hbits : 9 ≤ img.sb.blkSizeBits)
    (h : img.Reports c ino out) :
    img.FromDefined c items ino out ↔ img.BasesDefined c items ino := by
  constructor
  · rintro (⟨h0, -⟩ | ⟨ss, l, hl, hdef⟩) ss' l' hhas s hs
    · exact absurd hhas.xsize_pos (by omega)
    · obtain ⟨rfl, rfl⟩ := hhas.unique hl.hasEntries
      exact (hl.definedIndex_iff hitems hs).1 (hdef s hs)
  · intro hbase
    rcases h.lists hbits with h0 | ⟨ss, l, hl⟩
    · exact .inl h0
    · exact .inr ⟨ss, l, hl, fun s hs =>
        (hl.definedIndex_iff hitems hs).2 (hbase ss l hl.hasEntries s hs)⟩

/-- **Undefined name indexes.** What an opened image reports was all stored under defined indexes
exactly if every item of its prefix table that an entry of a readable inode refers to has a defined
base index.  An entry under an undefined index is refused as corrupt, unless that index is such a
base index. -/
theorem indexes_defined_iff {extra : ℕ} {sizes : ℕ → Option Int} (img : Image) (c : ℕ → Bytes)
    (items : List Bytes) (hopen : (openImage extra sizes).run (holding c) = .ok img)
    (htable : img.Table (holding c) items) :
    ((∀ ino xs, img.Reports c ino xs → img.FromDefined c items ino xs) ↔
      ∀ ino, img.Readable c ino → img.BasesDefined c items ino) ∧
    ∀ e : XattrEntry, ¬ DefinedIndex items e.nameIndex → ∀ nid where_ rawName,
      (Refused (img.entryPrefix nid where_ e) ∧ Refused (img.xattrName e rawName) ↔
        DefinedBase items e.nameIndex) := by
  obtain ⟨items', htable', hitems⟩ := openImage_table hopen
  obtain rfl := htable.unique htable'
  have hbits := (openImage_opened hopen).bits.1
  refine ⟨⟨fun h ino hread => ?_, fun h ino xs hrep => ?_⟩,
    fun e he nid where_ rawName => refused_iff hitems he nid where_ rawName⟩
  · obtain ⟨xs, hrep⟩ := readable_iff.1 hread
    exact (hrep.fromDefined_iff hitems hbits).1 (h ino xs hrep)
  · exact (hrep.fromDefined_iff hitems hbits).2 (h ino (readable_iff.2 ⟨xs, hrep⟩))

/-- An image of four 512 byte blocks whose root has one attribute, the value `x` under long prefix
0; the infix of that prefix is `security.capability`, its base index `base`. -/
def prefixReader (base : Byte) (_ : ℕ) : Bytes :=
  [20, 0, base] ++ ascii "security.capability".toList ++ List.replicate 1002 nulByte
    ++ [0xe2, 0xe1, 0xf5, 0xe0] ++ List.replicate 8 nulByte ++ [9] ++ List.replicate 23 nulByte
    ++ [4, 0, 0, 0, 3] ++ List.replicate 50 nulByte ++ [1] ++ List.replicate 420 nulByte
    -- inode 0: compact, flat-plain, an empty directory with an xattr area of 20 bytes
    ++ [0, 0, 3, 0, 0xed, 0x41, 2, 0] ++ List.replicate 36 nulByte
    ++ [0, 0x80, 1, 0, 120] ++ List.replicate 463 nulByte

/-- The image `Open` makes of it. -/
def prefixFS (base : Byte) : Image where
  sb := { magicNumber := 0xe0f5e1e2, blkSizeBits := 9, rootNid := 0, blocks := 4, metaBlkAddr := 3
          xattrPrefixCount := 1 }
  size := 2048
  longPrefixes := [xattrIndexString base.val ++ ascii "security.capability".toList]

/-- Its root. -/
def prefixRoot : Inode where
  nid := 0
  icsize := 32
  xsize := 20
  inodeLayout := .flatPlain
  inodeData := 0
  size := 0
  mode := FileMode.dir ||| 0o755
  rawMode := 0o40755
  nlink := 2

/-- The one item of its prefix table. -/
def prefixItem (base : Byte) : Bytes := base :: ascii "security.capability".toList

theorem prefixFS_table (base : Byte)
    (h : (({ prefixFS base with longPrefixes := [] } : Image).readMetadata (.plain 0 2048) 0).run
      (holding (prefixReader base)) = .ok (.plain 0 2048, 24, prefixItem base)) :
    (prefixFS base).Table (holding (prefixReader base)) [prefixItem base] := by
  rw [Table, if_neg (by simp [prefixFS])]
  exact ⟨.plain 0 2048, by simp [prefixSource, prefixFS], .cons h .nil⟩

/-- `Open` accepts the image with base index 7, and `Stat` of its root reports
`security.capability`. -/
theorem undefinedBase_reported :
    (openImage 0 fun _ => some 2048).run (holding (prefixReader 7)) = .ok (prefixFS 7) ∧
      (prefixFS 7).Table (holding (prefixReader 7)) [prefixItem 7] ∧
      ¬ ∀ ino xs, (prefixFS 7).Reports (prefixReader 7) ino xs →
        (prefixFS 7).FromDefined (prefixReader 7) [prefixItem 7] ino xs := by
  refine ⟨by decide +kernel, prefixFS_table 7 (by decide +kernel), fun h => ?_⟩
  have hstat : ((prefixFS 7).statInfo [] 0 FileMode.dir).run (holding (prefixReader 7)) =
      .ok (prefixRoot, fileInfo prefixRoot [(ascii "security.capability".toList, [120])] []) := by
    decide +kernel
  have hlists : (prefixFS 7).ListsXattrs (prefixReader 7) prefixRoot [] [⟨0x80, [], [120]⟩]
      [(ascii "security.capability".toList, [120])] :=
    ⟨by decide +kernel, by decide +kernel,
      .next (by decide +kernel) (by decide +kernel) (.done (by decide +kernel)), by decide +kernel⟩
  rcases h _ _ (.inl ⟨_, _, _, _, hstat⟩) with ⟨h0, -⟩ | ⟨ss, l, hl, hdef⟩
  · cases h0
  · obtain ⟨rfl, rfl⟩ := hl.unique hlists
    have hindex := hdef _ (List.mem_singleton_self _)
    rw [DefinedIndex, if_pos (by decide)] at hindex
    obtain ⟨item, hitem, hlt⟩ := hindex
    cases hitem
    revert hlt
    decide

/-- With base index 6 all is under defined indexes. -/
theorem definedBase_reported :
    (openImage 0 fun _ => some 2048).run (holding (prefixReader 6)) = .ok (prefixFS 6) ∧
      ∀ ino xs, (prefixFS 6).Reports (prefixReader 6) ino xs →
        (prefixFS 6).FromDefined (prefixReader 6) [prefixItem 6] ino xs := by
  have hopen : (openImage 0 fun _ => some 2048).run (holding (prefixReader 6)) =
      .ok (prefixFS 6) := by
    decide +kernel
  refine ⟨hopen, ((indexes_defined_iff _ _ _ hopen
    (prefixFS_table 6 (by decide +kernel))).1).2 fun ino _ ss l _ s _ _ item hitem => ?_⟩
  rw [List.mem_singleton.1 (List.mem_of_getElem? hitem)]
  decide

end Image

end Erofs
