import Erofs.Writer.XattrCopy

/-!
# Writing attributes

`xattrEntrySize`, `calcXattrSize` and `xattrICount` (`format.go`) size an inode's xattr area, and
`writeXattrs` (`writer.go`) fills it.  The round trip has two halves that meet at `Stores`: what is
written stores the attributes one by one, and both decoders accept what an area stores.

The main results:

* `stores_entries` — the area that is written stores the entry's attributes;
* `xattrs_read_back` — the area has the size that is predicted, the reader derives that size from
  the count, and both decoders give the attributes back.
-/

namespace Erofs

open GoPath LittleEndian Oracle

/-! ## Sizes -/

/-- `maxXattrICount`. -/
def maxXattrICount : ℕ := 65535

/-- `xattrEntrySize`, with `(sz + 3) & ^3` as a division. -/
def xattrEntrySize (name value : Bytes) : ℕ :=
  let sz := Disk.sizeXattrEntry + (xattrSplit name).2.length + value.length
  if sz % 4 ≠ 0 then (sz + 3) / 4 * 4 else sz

/-- `calcXattrSize`. -/
def calcXattrSize (xattrs : Xattrs) : ℕ :=
  if xattrs = [] then 0
  else Disk.sizeXattrBodyHeader + (xattrs.map fun x => xattrEntrySize x.1 x.2).sum

/-- `xattrICount`. -/
def xattrICount (xattrSize : ℕ) : ℕ :=
  if xattrSize = 0 then 0
  else (xattrSize - Disk.sizeXattrBodyHeader) / Disk.sizeXattrEntry + 1

/-- `xattrCount`. -/
def xattrCount (xattrSize : ℕ) : ℕ := xattrICount xattrSize % 2 ^ 16

/-! ## Bytes -/

/-- `sortedXattrKeys`. -/
def sortedXattrKeys (xattrs : Xattrs) : List Bytes := (xattrs.map (·.1)).insertionSort (· ≤ ·)

/-- One turn of the loop of `writeXattrs`. -/
def xattrEntryBytes (name value : Bytes) : Bytes :=
  let nameIndex := (xattrSplit name).1
  let suffix := (xattrSplit name).2
  let entryLen := Disk.sizeXattrEntry + suffix.length + value.length
  leBytes 1 suffix.length ++ leBytes 1 nameIndex ++ leBytes 2 value.length ++ suffix ++ value
    ++ List.replicate (if entryLen % 4 ≠ 0 then 4 - entryLen % 4 else 0) nulByte

/-- `writeXattrs`: the header, whose name filter is unused and which counts no shared attribute, and
the entries. -/
def writeXattrs (xattrs : Xattrs) : Bytes :=
  leBytes 4 (2 ^ 32 - 1) ++ List.replicate 8 nulByte
    ++ (sortedXattrKeys xattrs).flatMap fun name =>
      xattrEntryBytes name ((xattrs.lookup name).getD [])

/-- What is written between an inode and its data: nothing where the area has no size. -/
def xattrBytes (xattrs : Xattrs) : Bytes :=
  if 0 < calcXattrSize xattrs then writeXattrs xattrs else []

/-! ## One entry -/

/-- An attribute as it is stored. -/
def storedOf (x : Bytes × Bytes) : Stored := ⟨(xattrSplit x.1).1, (xattrSplit x.1).2, x.2⟩

theorem xattrEntrySize_eq (name value : Bytes) :
    xattrEntrySize name value = align4 (storedOf (name, value)).size := by
  unfold xattrEntrySize align4 Stored.size storedOf
  dsimp only
  generalize Disk.sizeXattrEntry + (xattrSplit name).2.length + value.length = sz
  split_ifs <;> omega

theorem length_xattrEntryBytes (name value : Bytes) :
    (xattrEntryBytes name value).length = xattrEntrySize name value := by
  rw [xattrEntrySize_eq]
  unfold xattrEntryBytes align4 Stored.size storedOf Disk.sizeXattrEntry
  simp only [List.length_append, length_leBytes, List.length_replicate]
  split_ifs <;> omega

theorem xattrEntrySize_pos (name value : Bytes) : 4 ≤ xattrEntrySize name value := by
  rw [xattrEntrySize_eq]
  refine le_trans ?_ (le_align4 _)
  unfold Stored.size Disk.sizeXattrEntry
  omega

theorem xattrEntrySize_mod (name value : Bytes) : xattrEntrySize name value % 4 = 0 := by
  rw [xattrEntrySize_eq, align4]
  omega

/-- Positions that are multiples of four stay so, with what is written in between. -/
theorem align4_add {pos n : ℕ} (h : pos % 4 = 0) : align4 (pos + n) = pos + align4 n := by
  unfold align4
  omega

theorem xattrSplit_index (name : Bytes) : (xattrSplit name).1 ≤ 6 := by
  unfold xattrSplit
  cases h : xattrPrefixes.findIdx? fun p => p.isPrefixOf name with
  | none => exact Nat.zero_le _
  | some i =>
    have := (List.findIdx?_eq_some_iff_findIdx_eq.1 h).1
    exact this

/-- What `validateXattr` accepts fits the fields of an entry. -/
theorem validateXattr_ok {name value : Bytes} (h : validateXattr name value = .ok ()) :
    (xattrSplit name).2.length < 256 ∧ value.length < 256 ^ 2 := by
  unfold validateXattr at h
  dsimp only at h
  split_ifs at h with h₁ h₂ h₃
  unfold maxXattrNameLen at h₂
  unfold maxXattrValueLen at h₃
  omega

/-- An entry is read back where its bytes begin. -/
theorem parse_xattrEntryBytes {name value : Bytes} (h : validateXattr name value = .ok ())
    (rest : Bytes) :
    Stored.parse (xattrEntryBytes name value ++ rest) = some (storedOf (name, value)) := by
  obtain ⟨hs, hv⟩ := validateXattr_ok h
  have hi : (xattrSplit name).1 < 256 := lt_of_le_of_lt (xattrSplit_index name) (by decide)
  rw [storedOf]
  generalize hb : xattrEntryBytes name value ++ rest = b
  rcases hsplit : xattrSplit name with ⟨idx, suffix⟩
  rw [hsplit] at hs hi
  dsimp only at hs hi
  obtain ⟨pad, hpad⟩ : ∃ pad, b = leBytes 1 suffix.length ++ (leBytes 1 idx ++
      (leBytes 2 value.length ++ (suffix ++ (value ++ pad)))) := by
    rw [← hb, xattrEntryBytes, hsplit]
    simp only [List.append_assoc, List.append_cancel_left_eq]
    exact ⟨_, rfl⟩
  have h1 : b.drop 1 = leBytes 1 idx ++ (leBytes 2 value.length ++ (suffix ++ (value ++ pad))) := by
    rw [hpad]
    rfl
  have h2 : b.drop 2 = leBytes 2 value.length ++ (suffix ++ (value ++ pad)) := by
    rw [hpad]
    rfl
  have h4 : b.drop Disk.sizeXattrEntry = suffix ++ (value ++ pad) := by
    rw [hpad]
    rfl
  have he : xattrEntryAt b = ⟨suffix.length, idx, value.length⟩ := by
    rw [xattrEntryAt, field_leBytes (w := 1) (by simpa using hs) (show b.drop 0 = _ from hpad),
      field_leBytes (w := 1) (by simpa using hi) h1, field_leBytes hv h2]
  have hlen : b.length = 4 + (suffix.length + (value.length + pad.length)) := by
    rw [hpad]
    simp only [List.length_append, length_leBytes]
    omega
  rw [Stored.parse_of_le he (by dsimp only [Disk.sizeXattrEntry]; omega), h4, List.take_left,
    List.drop_left, List.take_left]

/-! ## The area -/

/-- What is written from `pos` on stores the attributes in that order. -/
theorem stores_entries {area : Bytes} {l : Xattrs} {pos : ℕ} (h4 : pos % 4 = 0)
    (hpos : pos ≤ area.length) (harea : area.drop pos = l.flatMap fun x => xattrEntryBytes x.1 x.2)
    (hvalid : ∀ x ∈ l, validateXattr x.1 x.2 = .ok ()) :
    Stores area area.length pos (l.map storedOf) := by
  induction l generalizing pos with
  | nil =>
    have hlen := congrArg List.length harea
    rw [List.length_drop] at hlen
    exact .done (by simpa [Nat.sub_eq_zero_iff_le] using hlen)
  | cons x l ih =>
    rw [List.flatMap_cons] at harea
    have hlen := congrArg List.length harea
    rw [List.length_drop, List.length_append, length_xattrEntryBytes] at hlen
    have hsize := xattrEntrySize_pos x.1 x.2
    have hmod := xattrEntrySize_mod x.1 x.2
    have hnext : align4 (pos + (storedOf x).size) = pos + xattrEntrySize x.1 x.2 := by
      rw [align4_add h4, xattrEntrySize_eq]
    refine .next (by omega) ?_ ?_
    · rw [harea]
      exact parse_xattrEntryBytes (hvalid x List.mem_cons_self) _
    · rw [hnext]
      refine ih (by omega) (by omega) ?_ fun y hy => hvalid y (List.mem_cons_of_mem _ hy)
      rw [← List.drop_drop, harea, ← length_xattrEntryBytes, List.drop_left]

/-- A key of a map finds its value. -/
theorem lookup_of_mem {α β : Type} [BEq α] [LawfulBEq α] {l : List (α × β)}
    (hn : (l.map (·.1)).Nodup) {x : α × β} (hx : x ∈ l) : l.lookup x.1 = some x.2 := by
  obtain ⟨l₁, l₂, rfl⟩ := List.append_of_mem hx
  refine List.lookup_eq_some_iff.2 ⟨l₁, l₂, rfl, fun p hp => ?_⟩
  rw [List.map_append, List.map_cons] at hn
  have hne := (List.nodup_append.1 hn).2.2 p.1 (List.mem_map_of_mem hp) x.1 List.mem_cons_self
  simpa using hne.symm

/-- The keys of a map with their values are its attributes, in the order of the keys. -/
theorem sortedXattrKeys_perm {xattrs : Xattrs} (hn : (xattrs.map (·.1)).Nodup) :
    ((sortedXattrKeys xattrs).map fun name => (name, (xattrs.lookup name).getD [])).Perm
      xattrs := by
  have hkeys := (List.perm_insertionSort (· ≤ ·) (xattrs.map (·.1))).map
    fun name => (name, (xattrs.lookup name).getD [])
  have hself : (xattrs.map (·.1)).map (fun name => (name, (xattrs.lookup name).getD [])) =
      xattrs := by
    rw [List.map_map]
    conv_rhs => rw [← List.map_id xattrs]
    refine List.map_congr_left fun x hx => ?_
    simp [lookup_of_mem hn hx]
  rwa [hself] at hkeys

variable {img : Image}

theorem prefixOf_defined {idx : ℕ} (h1 : 1 ≤ idx) (h6 : idx ≤ 6) :
    img.prefixOf idx = some (xattrIndexString idx) := by
  unfold Image.prefixOf
  rw [if_neg (by interval_cases idx <;> decide), if_neg (by omega),
    if_pos (by interval_cases idx <;> decide)]

/-- A name is put together again from the prefix it was split at. -/
theorem nameOf_storedOf (x : Bytes × Bytes) : img.nameOf (storedOf x) = some x.1 := by
  unfold Image.nameOf storedOf xattrSplit
  cases h : xattrPrefixes.findIdx? fun p => p.isPrefixOf x.1 with
  | none => simp [Image.prefixOf]
  | some i =>
    obtain ⟨hi, hp, -⟩ := List.findIdx?_eq_some_iff_getElem.1 h
    have hi6 : i < 6 := hi
    have hstring : xattrIndexString (i + 1) = xattrPrefixes[i] := by
      exact List.getD_eq_getElem _ _ hi
    dsimp only
    rw [prefixOf_defined (by omega) (by omega), Option.map_some, hstring]
    exact congrArg some (List.prefix_iff_eq_append.1 (List.isPrefixOf_iff_prefix.1 hp))

/-- Attributes with different names are all taken. -/
theorem foldlM_add {l : Xattrs} (xs : Xattrs) (hn : ((xs ++ l).map (·.1)).Nodup) :
    (l.map storedOf).foldlM img.add xs = some (xs ++ l) := by
  induction l generalizing xs with
  | nil => simp
  | cons x l ih =>
    have hnew : (xs.lookup x.1).isSome = false := by
      rw [Option.isSome_eq_false_iff, Option.isNone_iff_eq_none, List.lookup_eq_none_iff]
      intro p hp
      rw [List.map_append, List.map_cons] at hn
      have hne := (List.nodup_append.1 hn).2.2 p.1 (List.mem_map_of_mem hp) x.1 List.mem_cons_self
      simpa using hne.symm
    have hadd : img.add xs (storedOf x) = some (xs ++ [x]) := by
      rw [Image.add, nameOf_storedOf, Option.bind_some, addName, hnew]
      rfl
    rw [List.map_cons, List.foldlM_cons, hadd]
    have hrest := ih (xs ++ [x]) (by simpa using hn)
    simpa using hrest

/-- The attributes in the order they are written. -/
def sortedXattrs (xattrs : Xattrs) : Xattrs :=
  (sortedXattrKeys xattrs).map fun name => (name, (xattrs.lookup name).getD [])

theorem writeXattrs_eq (xattrs : Xattrs) :
    writeXattrs xattrs = leBytes 4 (2 ^ 32 - 1) ++ List.replicate 8 nulByte
      ++ (sortedXattrs xattrs).flatMap fun x => xattrEntryBytes x.1 x.2 := by
  rw [writeXattrs, sortedXattrs, List.flatMap_map]

theorem length_writeXattrs {xattrs : Xattrs} (hn : (xattrs.map (·.1)).Nodup) :
    (writeXattrs xattrs).length =
      Disk.sizeXattrBodyHeader + (xattrs.map fun x => xattrEntrySize x.1 x.2).sum := by
  have hsum := ((sortedXattrKeys_perm hn).map fun x => xattrEntrySize x.1 x.2).sum_eq
  rw [writeXattrs_eq, List.length_append, List.length_flatMap, sortedXattrs, ← hsum]
  simp only [length_xattrEntryBytes]
  rfl

/-- The area of a map that is not empty is its header and at least one unit of four bytes. -/
theorem calcXattrSize_of_ne {xattrs : Xattrs} (h : xattrs ≠ []) :
    ∃ k, calcXattrSize xattrs = Disk.sizeXattrBodyHeader + 4 * (k + 1) := by
  obtain ⟨x, xs, rfl⟩ := List.exists_cons_of_ne_nil h
  have hdvd : 4 ∣ (xs.map fun x => xattrEntrySize x.1 x.2).sum := by
    refine List.dvd_sum fun n hn => ?_
    obtain ⟨y, -, rfl⟩ := List.mem_map.1 hn
    exact Nat.dvd_of_mod_eq_zero (xattrEntrySize_mod ..)
  have hpos := xattrEntrySize_pos x.1 x.2
  have hmod := xattrEntrySize_mod x.1 x.2
  rw [calcXattrSize, if_neg h, List.map_cons, List.sum_cons]
  obtain ⟨m, hm⟩ := hdvd
  exact ⟨xattrEntrySize x.1 x.2 / 4 - 1 + m, by omega⟩

/-- The count a size is stored as gives the size back. -/
theorem xattrSize_xattrCount {xattrs : Xattrs}
    (hcount : xattrICount (calcXattrSize xattrs) ≤ maxXattrICount) (nid : ℕ) :
    xattrSize nid (xattrCount (calcXattrSize xattrs)) = .ok (calcXattrSize xattrs) := by
  by_cases h : xattrs = []
  · subst h
    rfl
  obtain ⟨k, hk⟩ := calcXattrSize_of_ne h
  have hicount : xattrICount (calcXattrSize xattrs) = k + 2 := by
    rw [hk, xattrICount, Disk.sizeXattrBodyHeader, Disk.sizeXattrEntry, if_neg (by omega)]
    omega
  rw [hicount, maxXattrICount] at hcount
  rw [xattrCount, hicount, Nat.mod_eq_of_lt (by omega), hk, xattrSize, if_neg (by omega),
    xattrBodySize, if_neg (by omega), Disk.sizeXattrEntry]
  congr 1
  omega

theorem length_xattrBytes {xattrs : Xattrs} (hn : (xattrs.map (·.1)).Nodup) :
    (xattrBytes xattrs).length = calcXattrSize xattrs := by
  by_cases h : xattrs = []
  · subst h
    rfl
  obtain ⟨k, hk⟩ := calcXattrSize_of_ne h
  rw [xattrBytes, if_pos (by omega), length_writeXattrs hn, calcXattrSize, if_neg h]

/-- What is written stores the attributes, and they decode to the map. -/
theorem decodes_xattrBytes {xattrs : Xattrs} (h : xattrs ≠ []) (hn : (xattrs.map (·.1)).Nodup)
    (hvalid : ∀ x ∈ xattrs, validateXattr x.1 x.2 = .ok ()) (img : Image) :
    img.Decodes (xattrBytes xattrs) (xattrBytes xattrs).length Disk.sizeXattrBodyHeader []
      (sortedXattrs xattrs) := by
  have hperm := sortedXattrKeys_perm hn
  obtain ⟨k, hk⟩ := calcXattrSize_of_ne h
  have hlen := length_xattrBytes hn
  have hbytes : xattrBytes xattrs = writeXattrs xattrs := if_pos (by omega)
  refine ⟨(sortedXattrs xattrs).map storedOf, stores_entries rfl (by omega) ?_ ?_, ?_⟩
  · rw [hbytes, writeXattrs_eq]
    exact List.drop_left' rfl
  · intro x hx
    exact hvalid x (hperm.mem_iff.1 hx)
  · rw [foldlM_add [] (by rw [List.nil_append]; exact (hperm.map (·.1)).nodup_iff.2 hn)]
    rfl

theorem sharedCount_xattrBytes {xattrs : Xattrs} : Image.sharedCount (xattrBytes xattrs) = 0 := by
  unfold xattrBytes
  split_ifs <;> rfl

/-- **Attributes are read back.** For a map whose entries pass `validateXattr` and whose area passes
the limit of `i_xattr_icount`, what is written has the size `calcXattrSize` predicts, the reader
derives that size from the stored count, and wherever the area lies, behind an inode of either
format, `loadXattrs` and `parseXattrsFromBuf` both give the map back. -/
theorem xattrs_read_back (xattrs : Xattrs) (hn : (xattrs.map (·.1)).Nodup)
    (hvalid : ∀ x ∈ xattrs, validateXattr x.1 x.2 = .ok ())
    (hcount : xattrICount (calcXattrSize xattrs) ≤ maxXattrICount) :
    (xattrBytes xattrs).length = calcXattrSize xattrs ∧
    (∀ nid, xattrSize nid (xattrCount (calcXattrSize xattrs)) = .ok (calcXattrSize xattrs)) ∧
    (xattrs ≠ [] → ∀ (img : Image) (c : ℕ → Bytes) (ino : Inode) (metaBuf : Option Bytes)
      (o : Req → Answer), 9 ≤ img.sb.blkSizeBits → ino.xsize = calcXattrSize xattrs →
      img.Inside c (img.inodeStart ino.nid + ino.icsize) ino.xsize →
      img.xattrArea c ino = xattrBytes xattrs →
      ∃ xs, xs.Perm xattrs ∧ (img.loadXattrs ino).run (holding c) = .ok xs ∧
        (img.parseXattrsFromBuf metaBuf (xattrBytes xattrs)).run o = .ok xs) := by
  refine ⟨length_xattrBytes hn, xattrSize_xattrCount hcount, ?_⟩
  intro h img c ino metaBuf o hbits hsize hin harea
  obtain ⟨k, hk⟩ := calcXattrSize_of_ne h
  have hlen := length_xattrBytes hn
  have hdec := decodes_xattrBytes h hn hvalid img
  refine ⟨sortedXattrs xattrs, sortedXattrKeys_perm hn, ?_, ?_⟩
  · rw [Image.loadXattrs_unshared hbits hin (by rw [harea]; exact sharedCount_xattrBytes), harea,
      hsize, ← hlen]
    exact ⟨by omega, hdec⟩
  · rw [Image.parseXattrsFromBuf_unshared sharedCount_xattrBytes]
    exact ⟨by omega, hdec⟩

/-- A map with two attributes of different namespaces, one longer than a block. -/
def twoXattrs : Xattrs :=
  [(ascii ['u', 's', 'e', 'r', '.', 'a'], ascii ['b']),
    (ascii ['t', 'r', 'u', 's', 't', 'e', 'd', '.', 'b', 'i', 'g'], Image.bigValue)]

/-- The map is written over the end of a block, and both routes read it back. -/
theorem twoXattrs_read_back : (xattrBytes twoXattrs).length = 628 ∧
    ∃ xs, xs.Perm twoXattrs ∧
      (Image.xattrImage.loadXattrs Image.xattrInode).run
        (holding fun _ => List.replicate 32 nulByte ++ xattrBytes twoXattrs) = .ok xs ∧
      (Image.xattrImage.parseXattrsFromBuf none (xattrBytes twoXattrs)).run (holding fun _ => []) =
        .ok xs := by
  obtain ⟨hlen, -, hread⟩ := xattrs_read_back twoXattrs (by decide) (by decide +kernel)
    (by decide +kernel)
  obtain ⟨xs, hperm, hload, hparse⟩ := hread (by decide) Image.xattrImage
    (fun _ => List.replicate 32 nulByte ++ xattrBytes twoXattrs) Image.xattrInode none
    (holding fun _ => []) (by decide) (by decide +kernel)
    ⟨by decide +kernel, by decide, by decide +kernel⟩ (by decide +kernel)
  exact ⟨hlen.trans (by decide +kernel), xs, hperm, hload, hparse⟩

end Erofs
