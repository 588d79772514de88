import Erofs.Reader.Place
import Erofs.Reader.Stored
import Erofs.Writer.ImageCopy

/-!
# The attributes of a copied inode

`parseXattrsFromBuf` (`mkfs_image.go`) parses an xattr area it holds whole, where `loadXattrs` sees
it through windows.  Both accept what the area lists (`Image.Lists`), so that they differ at most in
what they find at a shared reference.

The main results:

* `parseXattrsFromBuf_iff` — the flat parser accepts what the area lists;
* `loadXattrs_flat` — without shared references the two accept the same attributes.
-/

namespace Erofs

open GoPath LittleEndian Oracle

theorem setCopied_mirrors (xs : Xattrs) (name value : Bytes) :
    Mirrors True Eq (setCopied xs name value) (addName xs name value) := by
  unfold setCopied addName
  split_ifs
  · exact .fail _
  · exact .ok rfl

namespace Image

variable {img : Image} {buf : Bytes} {pos : ℕ} {xs out : Xattrs} {metaBuf : Option Bytes}
  {o : Req → Answer} {look : ℕ → Option Stored}

/-! ## The flat parser -/

theorem xattrName_mirrors (img : Image) (e : XattrEntry) (rawName : Bytes) :
    Mirrors True Eq (img.xattrName e rawName)
      ((img.prefixOf e.nameIndex).map (· ++ rawName)) := by
  have hpre : Mirrors True Eq (if e.nameIndex &&& 0x80 ≠ 0
      then img.getLongPrefix (e.nameIndex &&& 0x7f) else xattrIndexPrefix e.nameIndex)
      (img.prefixOf e.nameIndex) := by
    unfold prefixOf
    by_cases hlong : e.nameIndex &&& 0x80 ≠ 0
    · rw [if_pos hlong, if_pos hlong]
      exact getLongPrefix_mirrors _
    · rw [if_neg hlong, if_neg hlong]
      exact xattrIndexPrefix_mirrors _
  unfold xattrName
  generalize (if e.nameIndex &&& 0x80 ≠ 0 then img.getLongPrefix (e.nameIndex &&& 0x7f)
    else xattrIndexPrefix e.nameIndex) = r at hpre ⊢
  generalize img.prefixOf e.nameIndex = v at hpre ⊢
  cases hpre with
  | error err h =>
    rw [h trivial]
    exact .fail _
  | ok h =>
    subst h
    exact .ok rfl

/-- The step of the flat parser. -/
theorem copyInlineXattrs_succ {fuel : ℕ} (h : pos < buf.length) :
    img.copyInlineXattrs buf (fuel + 1) pos xs = .ok out ↔
      ∃ v, img.takeStored buf pos xs = some v ∧
        img.copyInlineXattrs buf fuel v.1 v.2 = .ok out := by
  rw [copyInlineXattrs, if_neg (by omega), takeStored]
  generalize he : xattrEntryAt (buf.drop pos) = e
  by_cases h4 : buf.length < pos + Disk.sizeXattrEntry
  · rw [if_pos h4, Stored.parse_of_lt he (by rw [List.length_drop]; omega)]
    simp
  rw [if_neg h4]
  dsimp only
  by_cases hlen : buf.length < pos + Disk.sizeXattrEntry + (e.nameLen + e.valueLen)
  · rw [if_pos hlen, Stored.parse_of_lt he (by rw [List.length_drop]; omega)]
    simp
  rw [if_neg hlen, Stored.parse_of_le he (by rw [List.length_drop]; omega), Option.bind_some, add,
    nameOf, List.drop_drop, List.drop_drop]
  have hn : ((buf.drop (pos + Disk.sizeXattrEntry)).take e.nameLen).length = e.nameLen := by
    simp only [List.length_take, List.length_drop]
    omega
  have hv : ((buf.drop (pos + Disk.sizeXattrEntry + e.nameLen)).take e.valueLen).length =
      e.valueLen := by
    simp only [List.length_take, List.length_drop]
    omega
  generalize (buf.drop (pos + Disk.sizeXattrEntry)).take e.nameLen = suffix at hn ⊢
  generalize (buf.drop (pos + Disk.sizeXattrEntry + e.nameLen)).take e.valueLen = value at hv ⊢
  have hname := (img.xattrName_mirrors e suffix).mapError fun err =>
    err.wrap "inline xattr: %w" []
  generalize (img.xattrName e suffix).mapError _ = r at hname ⊢
  generalize (img.prefixOf e.nameIndex).map (· ++ suffix) = n at hname ⊢
  cases hname with
  | error err h => simp [bind, Except.bind, h trivial]
  | @ok name _ h =>
    subst h
    have hset := setCopied_mirrors xs name value
    simp only [bind, Except.bind, Option.bind_some]
    generalize setCopied xs name value = r at hset ⊢
    generalize addName xs name value = t at hset ⊢
    cases hset with
    | error err h => simp [h trivial]
    | @ok ys _ h =>
      subst h
      simp [Stored.size, hn, hv, align4, Nat.add_assoc]

theorem copyInlineXattrs_iff {fuel : ℕ} (hf : buf.length ≤ pos + fuel) :
    img.copyInlineXattrs buf fuel pos xs = .ok out ↔ img.Decodes buf buf.length pos xs out := by
  induction fuel generalizing pos xs with
  | zero => rw [decodes_stop (by omega), copyInlineXattrs, Except.ok.injEq]
  | succ fuel ih =>
    by_cases hend : buf.length ≤ pos
    · rw [copyInlineXattrs, if_pos hend, decodes_stop hend, Except.ok.injEq]
    rw [copyInlineXattrs_succ (by omega), decodes_step (by omega)]
    refine exists_congr fun v => and_congr_right fun hv => ih ?_
    have hpos := takeStored_pos hv
    unfold Disk.sizeXattrEntry at hpos
    omega

theorem copySharedXattrs_mirrors {k i : ℕ} (xs : Xattrs)
    (hlook : ∀ j < k, Mirrors True Eq ((img.copyShared metaBuf (img.sharedAddr buf (i + j))).run o)
      ((look (img.sharedAddr buf (i + j))).bind
        fun s => (img.nameOf s).map fun n => (n, s.value))) :
    Mirrors True (fun r ys => r.1 = Disk.sizeXattrBodyHeader + (i + k) * 4 ∧ r.2 = ys)
      ((img.copySharedXattrs metaBuf buf k (Disk.sizeXattrBodyHeader + i * 4) xs).run o)
      (img.takeShared look buf k i xs) := by
  induction k generalizing i xs with
  | zero => exact .ok ⟨rfl, rfl⟩
  | succ k ih =>
    rw [copySharedXattrs, takeShared]
    by_cases hlen : buf.length < Disk.sizeXattrBodyHeader + i * 4 + 4
    · rw [if_pos hlen, exactly_of_lt (by rw [List.length_drop]; omega)]
      exact .fail _
    rw [if_neg hlen, exactly_of_le (by rw [List.length_drop]; omega), Option.bind_some]
    have hadd : (look (img.sharedAddr buf i)).bind (img.add xs) =
        ((look (img.sharedAddr buf i)).bind fun s =>
          (img.nameOf s).map fun n => (n, s.value)).bind fun r => addName xs r.1 r.2 := by
      cases look (img.sharedAddr buf i) with
      | none => rfl
      | some s => cases hname : img.nameOf s <;> simp [add, hname]
    rw [hadd, Option.bind_assoc]
    refine Mirrors.tryBind (S := Eq) ?_ ?_
    · rw [Prog.run_bind]
      exact (hlook 0 (by omega)).mapError _
    rintro r - rfl
    have hset := setCopied_mirrors xs r.1 r.2
    generalize setCopied xs r.1 r.2 = t at hset ⊢
    generalize addName xs r.1 r.2 = v at hset ⊢
    cases hset with
    | error e h =>
      rw [h trivial]
      exact .fail e
    | @ok ys _ h =>
      subst h
      have hrest := ih ys (i := i + 1) fun j hj => by
        rw [Nat.add_right_comm, Nat.add_assoc]
        exact hlook (j + 1) (by omega)
      rwa [Nat.add_right_comm i, Nat.add_assoc i, Nat.succ_mul, ← Nat.add_assoc] at hrest

/-- **`parseXattrsFromBuf`.** It accepts what the area lists. -/
theorem parseXattrsFromBuf_iff (look : ℕ → Option Stored)
    (hlook : ∀ i < sharedCount buf,
      Mirrors True Eq ((img.copyShared metaBuf (img.sharedAddr buf i)).run o)
        ((look (img.sharedAddr buf i)).bind fun s => (img.nameOf s).map fun n => (n, s.value))) :
    (img.parseXattrsFromBuf metaBuf buf).run o = .ok out ↔
      ∃ ss l, img.Lists look buf buf.length ss l out := by
  have hstart : Disk.sizeXattrBodyHeader ≤ inlineStart buf := Nat.le_add_right ..
  rw [lists_iff, parseXattrsFromBuf]
  by_cases h12 : buf.length < Disk.sizeXattrBodyHeader
  · rw [if_pos h12]
    simp only [Prog.run_done, reduceCtorEq, false_iff, not_and]
    omega
  rw [if_neg h12, Prog.exec_bind]
  have hlook' : ∀ j < sharedCount buf,
      Mirrors True Eq ((img.copyShared metaBuf (img.sharedAddr buf (0 + j))).run o)
        ((look (img.sharedAddr buf (0 + j))).bind fun s =>
          (img.nameOf s).map fun n => (n, s.value)) := by
    intro j hj
    rw [Nat.zero_add]
    exact hlook j hj
  have hshared := copySharedXattrs_mirrors [] hlook'
  rw [Nat.zero_mul, Nat.add_zero, Nat.zero_add] at hshared
  generalize ht : img.takeShared look buf (sharedCount buf) 0 [] = v at hshared ⊢
  rw [← sharedCount]
  generalize (img.copySharedXattrs metaBuf buf _ _ _).run o = r at hshared ⊢
  cases hshared with
  | error e h => simp [h trivial]
  | @ok r ys h =>
    obtain ⟨hpos, rfl⟩ := h
    dsimp only
    have hroom := inlineStart_le (Nat.le_of_not_lt h12) (takeShared_iff.1 ht).1
    rw [Prog.run_done, hpos, copyInlineXattrs_iff (by omega), and_iff_right hroom]
    simp only [Option.some.injEq, exists_eq_left', inlineStart]

/-! ## An area in an image of bytes -/

variable {c : ℕ → Bytes} {nid addr xsize : ℕ} {full : Prop}

theorem hardError_eof (b : Bytes) (n : ℕ) :
    Answer.hardError ⟨b, if b.length < n then some eofError else none⟩ = none := by
  unfold Answer.hardError
  split_ifs <;> rfl

/-- A structure is loaded as far as the image has it. -/
theorem loadAt_mirrors (img : Image) {a n : ℕ} (hn : 0 < n)
    (ha : full → 0 < img.size → a < img.size) :
    Mirrors full Eq ((img.loadAt a n).run (holding c))
      (if (c 0).length ≤ a then none else some (held (c 0) a (min n img.blockSize))) := by
  have hbs : 0 < img.blockSize := Nat.two_pow_pos _
  have hmin : min (n : ℤ) img.blockSize = (min n img.blockSize : ℕ) := by omega
  unfold loadAt
  dsimp only
  rw [hmin, if_neg (by omega)]
  by_cases hin : (a : ℤ) < 0 ∨ 0 < img.size ∧ img.size ≤ a
  · rw [if_pos hin]
    refine .error _ fun hfull => ?_
    have := ha hfull
    omega
  rw [if_neg hin, Prog.run_bind, Prog.run_done, Int.toNat_natCast, holding_held, hardError_eof]
  dsimp only
  have hlen := length_held (c 0) a (min n img.blockSize)
  by_cases hend : (c 0).length ≤ a
  · have hnil : held (c 0) a (min n img.blockSize) = [] := by
      rw [← List.length_eq_zero_iff]
      omega
    rw [if_pos hend, if_neg (not_not.2 hnil)]
    split_ifs <;> exact .fail _
  · have hne : held (c 0) a (min n img.blockSize) ≠ [] := by
      rw [← List.length_pos_iff]
      omega
    rw [if_neg hend, if_pos hne]
    exact .ok rfl

/-- The `xsize` bytes at `addr` are inside the image, whose offsets are `int64`s. -/
structure Inside (img : Image) (c : ℕ → Bytes) (addr xsize : ℕ) : Prop where
  within : addr + xsize ≤ (c 0).length
  known : 0 < img.size → (addr + xsize : ℕ) ≤ img.size
  bounded : ((c 0).length : ℤ) ≤ maxInt64

theorem Inside.length_area (h : img.Inside c addr xsize) :
    (held (c 0) addr xsize).length = xsize := by
  have := h.within
  rw [length_held]
  omega

theorem Inside.int64_add (h : img.Inside c addr xsize) (hp : pos ≤ xsize) :
    int64 (addr + pos : ℕ) = (addr + pos : ℕ) := by
  have h₁ := h.within
  have h₂ := h.bounded
  exact int64_of (by omega) (by omega)

/-- An area is seen through windows, and wholly if it is inside the image. -/
theorem windows_held (haddr : addr + xsize < 2 ^ 64) (h : full → img.Inside c addr xsize)
    (nid : ℕ) :
    img.Windows full (holding c) nid addr xsize (held (c 0) addr xsize) := by
  intro pos
  have hlen := length_held (c 0) addr xsize
  rw [loadBody, Prog.run_bind]
  by_cases hend : xsize ≤ pos
  · have hle : min ((xsize : ℤ) - pos) img.blockSize ≤ 0 := by omega
    rw [if_pos (by omega), loadAt, if_pos hle]
    exact .fail _
  by_cases hpos : ((addr + pos : ℕ) : ℤ) ≤ maxInt64
  · have hload := img.loadAt_mirrors (c := c) (a := addr + pos) (n := xsize - pos) (by omega)
      fun hfull => by
        have := (h hfull).known
        omega
    have hwin : ((held (c 0) addr xsize).drop pos).take img.blockSize =
        held (c 0) (addr + pos) (min (xsize - pos) img.blockSize) := by
      rw [held, held, List.drop_take, List.drop_drop, List.take_take, min_comm]
    have hiff : (held (c 0) addr xsize).length ≤ pos ↔ (c 0).length ≤ addr + pos := by omega
    rw [int64_of (by omega) hpos, ← Nat.cast_sub (by omega), hwin]
    simp only [hiff]
    exact hload.mapError _
  · -- past the offsets an `int64` has, the address is negative
    have hneg : int64 (addr + pos : ℕ) < 0 := by
      unfold maxInt64 at hpos
      rw [int64_wraps (by omega) (by omega)]
      omega
    have hle : ¬ min ((xsize : ℤ) - pos) img.blockSize ≤ 0 := by
      have : 0 < img.blockSize := Nat.two_pow_pos _
      omega
    rw [loadAt, if_neg hle, if_pos (.inl hneg)]
    refine .error _ fun hfull => absurd (h hfull).bounded ?_
    have := (h hfull).within
    omega

theorem Inside.windows (h : img.Inside c addr xsize) (nid : ℕ) :
    img.Windows True (holding c) nid addr xsize (held (c 0) addr xsize) := by
  have hw := h.within
  have hb := h.bounded
  unfold maxInt64 at hb
  exact windows_held (by omega) (fun _ => h) nid

/-- A request for bytes of the area alone. -/
def InArea (addr xsize : ℕ) (q : Req) : Prop :=
  q.reader = 0 ∧ (addr : ℤ) ≤ q.off ∧ q.off + q.len ≤ (addr + xsize : ℕ)

theorem Inside.loadBody_asks (h : img.Inside c addr xsize) {o : Req → Answer} (pos : ℕ) :
    (img.loadBody nid addr xsize pos).Asks o (InArea addr xsize) := by
  refine Prog.asks_bind ?_ Prog.asks_done
  unfold loadAt
  dsimp only
  by_cases h0 : min ((xsize : ℤ) - pos) img.blockSize ≤ 0
  · rw [if_pos h0]
    exact Prog.asks_done
  rw [if_neg h0, h.int64_add (by omega)]
  by_cases h1 : ((addr + pos : ℕ) : ℤ) < 0 ∨ 0 < img.size ∧ img.size ≤ (addr + pos : ℕ)
  · rw [if_pos h1]
    exact Prog.asks_done
  rw [if_neg h1]
  have hlen : ((addr + pos : ℕ) : ℤ) + (min ((xsize : ℤ) - pos) img.blockSize).toNat ≤
      (addr + xsize : ℕ) := by omega
  exact Prog.asks_bind (readerAt_asks ⟨rfl, by simp, hlen⟩) Prog.asks_done

/-! ## Areas without shared references -/

/-- The xattr area of an inode. -/
def xattrArea (img : Image) (c : ℕ → Bytes) (ino : Inode) : Bytes :=
  held (c 0) (img.inodeStart ino.nid + ino.icsize) ino.xsize

theorem lists_unshared {stop : ℕ} (h : sharedCount buf = 0) :
    (∃ ss l, img.Lists look buf stop ss l out) ↔ Disk.sizeXattrBodyHeader ≤ buf.length ∧
      img.Decodes buf stop Disk.sizeXattrBodyHeader [] out := by
  rw [lists_iff, inlineStart, h, Nat.zero_mul, Nat.add_zero]
  simp [takeShared]

theorem le_blockSize (hbits : 9 ≤ img.sb.blkSizeBits) : 256 ≤ img.blockSize :=
  le_trans (by decide) (Nat.pow_le_pow_right (by decide) hbits)

theorem loadXattrs_unshared {ino : Inode} (hbits : 9 ≤ img.sb.blkSizeBits)
    (hin : img.Inside c (img.inodeStart ino.nid + ino.icsize) ino.xsize)
    (h : sharedCount (img.xattrArea c ino) = 0) :
    (img.loadXattrs ino).run (holding c) = .ok out ↔
      Disk.sizeXattrBodyHeader ≤ (img.xattrArea c ino).length ∧
      img.Decodes (img.xattrArea c ino) ino.xsize Disk.sizeXattrBodyHeader [] out := by
  have hnone : ∀ i, ¬ i < sharedCount (img.xattrArea c ino) := by omega
  rw [(loadXattrs_yields (fun _ => none) (hin.windows _) (le_blockSize hbits)
    (le_of_eq hin.length_area) fun i hi => absurd hi (hnone i)).iff]
  exact lists_unshared h

theorem parseXattrsFromBuf_unshared (h : sharedCount buf = 0) :
    (img.parseXattrsFromBuf metaBuf buf).run o = .ok out ↔
      Disk.sizeXattrBodyHeader ≤ buf.length ∧
      img.Decodes buf buf.length Disk.sizeXattrBodyHeader [] out := by
  have hnone : ∀ i, ¬ i < sharedCount buf := by omega
  rw [parseXattrsFromBuf_iff (fun _ => none) fun i hi => absurd hi (hnone i)]
  exact lists_unshared h

/-- The loops of `loadXattrs` end by themselves: fuel past the bytes left to them is never used. -/
def LoopsEnd (img : Image) (o : Req → Answer) (nid addr xsize : ℕ) : Prop :=
  (∀ fuel k cur xs, xsize ≤ cur.pos + fuel →
    (img.inlineXattrs nid addr xsize (fuel + k) cur xs).run o =
      (img.inlineXattrs nid addr xsize fuel cur xs).run o) ∧
  (∀ fuel k remaining cur buf, remaining ≤ fuel →
    (img.xattrValue nid addr xsize (fuel + k) remaining cur buf).run o =
      (img.xattrValue nid addr xsize fuel remaining cur buf).run o)

/-- **Windowed and flat parsing.** For an area inside the image without shared references,
`loadXattrs` and `parseXattrsFromBuf` accept the same areas with the same attributes; the loops of
`loadXattrs` end, and every window it loads lies inside the area. -/
theorem loadXattrs_flat (img : Image) (c : ℕ → Bytes) (ino : Inode) (metaBuf : Option Bytes)
    (o : Req → Answer) (hbits : 9 ≤ img.sb.blkSizeBits)
    (hin : img.Inside c (img.inodeStart ino.nid + ino.icsize) ino.xsize)
    (hshared : field (img.xattrArea c ino) 4 1 = 0) :
    (∀ xs, (img.loadXattrs ino).run (holding c) = .ok xs ↔
      (img.parseXattrsFromBuf metaBuf (img.xattrArea c ino)).run o = .ok xs) ∧
    img.LoopsEnd (holding c) ino.nid (img.inodeStart ino.nid + ino.icsize) ino.xsize ∧
    (img.loadXattrs ino).Asks (holding c)
      (InArea (img.inodeStart ino.nid + ino.icsize) ino.xsize) := by
  have hlen : (img.xattrArea c ino).length = ino.xsize := hin.length_area
  refine ⟨fun xs => ?_, ⟨?_, ?_⟩, ?_⟩
  · rw [loadXattrs_unshared hbits hin hshared, parseXattrsFromBuf_unshared hshared, hlen]
  · intro fuel k cur xs hf
    exact inlineXattrs_settles hf k
  · intro fuel k remaining cur buf hf
    exact xattrValue_settles hf k buf
  · refine Prog.asks_tryBind (hin.loadBody_asks 0) fun xb hxb => ?_
    have hload := (hin.windows ino.nid 0).ok_iff.1 hxb
    have hbs := le_blockSize hbits
    dsimp only
    by_cases h12 : xb.length < Disk.sizeXattrBodyHeader
    · rw [if_pos h12]
      exact Prog.asks_done
    have hzero : field xb 4 1 = 0 := by
      split_ifs at hload
      cases hload
      rw [List.drop_zero, field_take (by omega)]
      exact hshared
    rw [if_neg h12, hzero]
    split_ifs
    · exact Prog.asks_done
    · exact Prog.asks_tryBind Prog.asks_done fun _ _ => inlineXattrs_asks hin.loadBody_asks

/-- An image of two blocks with one inode, a compact one at its start. -/
def xattrImage : Image where
  sb := { blkSizeBits := 9, rootNid := 0, blocks := 2, metaBlkAddr := 0 }
  size := 660

/-- Its inode, with an xattr area that runs over the end of the first block. -/
def xattrInode : Inode where
  nid := 0
  icsize := 32
  xsize := 628
  inodeLayout := .flatPlain
  inodeData := 0
  size := 0
  mode := 0
  rawMode := Mode.reg

/-- The value of `trusted.big`. -/
def bigValue : Bytes := List.replicate 600 118

/-- Its bytes: the area stores `user.a` with the value `b`, and `trusted.big`. -/
def xattrReader (_ : ℕ) : Bytes :=
  List.replicate 44 nulByte ++ [1, 1, 1, 0] ++ ascii ['a', 'b'] ++ [0, 0] ++
    [3, 4, 88, 2] ++ ascii ['b', 'i', 'g'] ++ bigValue ++ [0]

/-- Both attributes are read, the second one from two windows. -/
theorem xattrInode_flat :
    (xattrImage.loadXattrs xattrInode).run (holding xattrReader) =
      .ok [(ascii ['u', 's', 'e', 'r', '.', 'a'], ascii ['b']),
        (ascii ['t', 'r', 'u', 's', 't', 'e', 'd', '.', 'b', 'i', 'g'], bigValue)] := by
  have hin : xattrImage.Inside xattrReader
      (xattrImage.inodeStart xattrInode.nid + xattrInode.icsize)
      xattrInode.xsize := ⟨by decide +kernel, by decide, by decide +kernel⟩
  have hflat := loadXattrs_flat xattrImage xattrReader xattrInode none (holding xattrReader)
    (by decide) hin (by decide +kernel)
  exact (hflat.1 _).2 (by decide +kernel)

end Image

end Erofs
