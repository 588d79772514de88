import Erofs.Reader.Direct
import Erofs.Reader.CleanEnd

/-!
# Data ranges

`Stat` publishes where a regular file's bytes are (`buildDataRanges`, `buildChunkDataRanges`), for
callers that read the devices themselves.  Are those the bytes `Read` returns?  The ranges place a
whole extent at its first address, `Read` places every block, and an inline tail that crosses its
block is published but not read.

The main results:

* `statRanges_publishes` — the ranges cover the file, and place each byte where the device table
  puts the first byte of its extent;
* `read_places_iff` — `Read` succeeds and returns the published bytes, whatever the devices hold,
  exactly when it has every byte where the ranges have it;
* `ranges_read_iff` — that is, exactly when no tail crosses its block, the chunk format is one
  `Read` takes, and the table answers `Read` as it answered `Stat`.
-/

namespace Erofs

open GoPath LittleEndian Oracle

namespace Image

/-! ## The place of a byte in the ranges -/

/-- The place of byte `j` of a range. -/
def rangeAt (r : DataRange) (j : Int) : Place :=
  if r.offset = holeOffset then .hole else .data r.device (r.offset + j)

/-- The place of byte `pos` of the file the ranges cover. -/
def rangePlace : List DataRange → ℕ → Option Place
  | [], _ => none
  | r :: rs, pos =>
    if (pos : Int) < r.size then some (rangeAt r pos) else rangePlace rs (pos - r.size.toNat)

/-- The number of bytes the ranges cover. -/
def totalSize (rs : List DataRange) : Int := (rs.map (·.size)).sum

theorem totalSize_append (xs ys : List DataRange) :
    totalSize (xs ++ ys) = totalSize xs + totalSize ys := by
  simp [totalSize]

theorem totalSize_nonneg {rs : List DataRange} (h : ∀ r ∈ rs, 0 ≤ r.size) : 0 ≤ totalSize rs := by
  refine List.sum_nonneg fun x hx => ?_
  obtain ⟨r, hr, rfl⟩ := List.mem_map.1 hx
  exact h r hr

theorem rangePlace_append {xs ys : List DataRange} (h : ∀ r ∈ xs, 0 ≤ r.size) (pos : ℕ) :
    rangePlace (xs ++ ys) pos =
      if (pos : Int) < totalSize xs then rangePlace xs pos
      else rangePlace ys (pos - (totalSize xs).toNat) := by
  induction xs generalizing pos with
  | nil => simp [totalSize]
  | cons r xs ih =>
    have hr := h r List.mem_cons_self
    have hxs : ∀ x ∈ xs, 0 ≤ x.size := fun x hx => h x (List.mem_cons_of_mem _ hx)
    have hnn := totalSize_nonneg hxs
    have htotal : totalSize (r :: xs) = r.size + totalSize xs := by simp [totalSize]
    rw [List.cons_append, rangePlace, rangePlace, ih hxs, htotal]
    by_cases hlt : (pos : Int) < r.size
    · rw [if_pos hlt, if_pos (by omega), if_pos hlt]
    · rw [if_neg hlt, if_neg hlt]
      by_cases hin : (pos : Int) < r.size + totalSize xs
      · rw [if_pos hin, if_pos (by omega)]
      · rw [if_neg hin, if_neg (by omega)]
        congr 1
        omega

/-- Ranges have places for no more bytes than they cover. -/
theorem rangePlace_lt {rs : List DataRange} {pos : ℕ} {p : Place} (h : ∀ r ∈ rs, 0 ≤ r.size)
    (hp : rangePlace rs pos = some p) : (pos : Int) < totalSize rs := by
  induction rs generalizing pos with
  | nil => cases hp
  | cons r rs ih =>
    have hr := h r List.mem_cons_self
    have hrs : ∀ x ∈ rs, 0 ≤ x.size := fun x hx => h x (List.mem_cons_of_mem _ hx)
    have hnn := totalSize_nonneg hrs
    have htotal : totalSize (r :: rs) = r.size + totalSize rs := by simp [totalSize]
    rw [htotal]
    by_cases hlt : (pos : Int) < r.size
    · omega
    · rw [rangePlace, if_neg hlt] at hp
      have := ih hrs hp
      omega

/-- The ranges cover the first `upto` bytes of a file, and the place of each byte is as `Q` says. -/
structure Covers (Q : ℕ → Place → Prop) (rs : List DataRange) (upto : ℕ) : Prop where
  sizes : ∀ r ∈ rs, 0 ≤ r.size
  total : totalSize rs = upto
  places : ∀ pos < upto, ∃ p, rangePlace rs pos = some p ∧ Q pos p

section Covers

variable {Q : ℕ → Place → Prop} {rs : List DataRange} {upto k dev : ℕ} {off : Int}

theorem covers_nil : Covers Q [] 0 := ⟨by simp, rfl, fun pos h => absurd h (by omega)⟩

/-- One more range. -/
theorem Covers.append {r : DataRange} (h : Covers Q rs upto) (hr : r.size = k)
    (hc : ∀ j < k, Q (upto + j) (rangeAt r j)) : Covers Q (rs ++ [r]) (upto + k) where
  sizes x hx := by
    obtain hx | hx := List.mem_append.1 hx
    · exact h.sizes x hx
    · obtain rfl := List.mem_singleton.1 hx
      omega
  total := by
    rw [totalSize_append, h.total]
    simp [totalSize, hr]
  places pos hpos := by
    rw [rangePlace_append h.sizes, h.total]
    by_cases hlt : pos < upto
    · rw [if_pos (by omega)]
      exact h.places pos hlt
    · rw [if_neg (by omega), rangePlace, if_pos (by rw [hr]; omega)]
      have hat := hc (pos - upto) (by omega)
      rw [Nat.add_sub_cancel' (by omega)] at hat
      exact ⟨_, rfl, hat⟩

/-- The last range made longer. -/
theorem Covers.extend {r : DataRange} (h : Covers Q (rs ++ [r]) upto)
    (hc : ∀ j < k, Q (upto + j) (rangeAt r (r.size + j))) :
    Covers Q (rs ++ [{ r with size := r.size + k }]) (upto + k) := by
  have hrs : ∀ x ∈ rs, 0 ≤ x.size := fun x hx => h.sizes x (List.mem_append_left _ hx)
  have hr : 0 ≤ r.size := h.sizes r (by simp)
  have hnn := totalSize_nonneg hrs
  have htotal : totalSize rs + r.size = upto := by
    have := h.total
    rwa [totalSize_append, show totalSize [r] = r.size by simp [totalSize]] at this
  refine ⟨?_, ?_, fun pos hpos => ?_⟩
  · intro x hx
    obtain hx | hx := List.mem_append.1 hx
    · exact hrs x hx
    · obtain rfl := List.mem_singleton.1 hx
      exact Int.add_nonneg hr (Int.natCast_nonneg k)
  · rw [totalSize_append, show totalSize [{ r with size := r.size + k }] = r.size + k by
      simp [totalSize]]
    omega
  · rw [rangePlace_append hrs]
    by_cases hlt : pos < upto
    · have hold := h.places pos hlt
      rw [rangePlace_append hrs] at hold
      by_cases hin : (pos : Int) < totalSize rs
      · rw [if_pos hin] at hold ⊢
        exact hold
      · rw [if_neg hin] at hold ⊢
        rw [rangePlace, if_pos (by omega)] at hold
        rw [rangePlace, if_pos (by dsimp only; omega)]
        exact hold
    · rw [if_neg (by omega), rangePlace, if_pos (by dsimp only; omega)]
      have hat := hc (pos - upto) (by omega)
      rw [Nat.add_sub_cancel' (by omega)] at hat
      have hidx : r.size + (pos - upto : ℕ) = ((pos - (totalSize rs).toNat : ℕ) : Int) := by omega
      rw [hidx] at hat
      exact ⟨_, rfl, hat⟩

/-- `k` more bytes of hole. -/
theorem Covers.pushHole (h : Covers Q rs.reverse upto) (hc : ∀ j < k, Q (upto + j) .hole) :
    Covers Q (pushHole k rs).reverse (upto + k) := by
  have hole : ∀ {r : DataRange} {first : ℕ → Int}, r.offset = holeOffset →
      ∀ j < k, Q (upto + j) (rangeAt r (first j)) := by
    intro r first hr j hj
    rw [rangeAt, if_pos hr]
    exact hc j hj
  cases rs with
  | nil => exact h.append rfl (hole rfl)
  | cons r rs =>
    rw [Image.pushHole]
    split_ifs with hr
    · rw [List.reverse_cons] at h ⊢
      exact h.extend (hole hr)
    · rw [List.reverse_cons]
      exact h.append rfl (hole rfl)

/-- `k` more bytes at `off` of device `dev`. -/
theorem Covers.pushData (h : Covers Q rs.reverse upto) (hoff : off ≠ holeOffset)
    (hc : ∀ j < k, Q (upto + j) (.data dev (off + j))) :
    Covers Q (pushData dev off k rs).reverse (upto + k) := by
  have data : ∀ j < k, Q (upto + j) (rangeAt ⟨dev, off, k⟩ j) := by
    intro j hj
    rw [rangeAt, if_neg hoff]
    exact hc j hj
  cases rs with
  | nil => exact h.append rfl data
  | cons r rs =>
    rw [Image.pushData]
    split_ifs with hr
    · obtain ⟨hr, rfl, rfl⟩ := hr
      rw [List.reverse_cons] at h ⊢
      refine h.extend fun j hj => ?_
      rw [rangeAt, if_neg hr, ← add_assoc]
      exact hc j hj
    · rw [List.reverse_cons]
      exact h.append rfl data

end Covers

/-! ## What `Stat` publishes -/

/-- The first byte of the extent that byte `pos` is in, which `Stat` asks the device table for: of
the file or what is not behind its inode, of what is behind it, of the chunk. -/
def extentStart (img : Image) (ino : Inode) (pos : ℕ) : ℕ :=
  match ino.inodeLayout with
  | .flatInline => if img.InTail ino pos then img.blockStart pos else 0
  | .chunkBased => pos / 2 ^ img.chunkBits ino * 2 ^ img.chunkBits ino
  | _ => 0

/-- Byte `pos` is published at `p`: where the table puts its extent, which has room for it and is
one run of addresses up to it. -/
structure PublishedAt (img : Image) (b : Bytes) (ino : Inode) (pos : ℕ) (p : Place) : Prop where
  place : p = img.spot b ino (img.extentStart ino pos) pos
  addr : img.fileAddr b ino pos =
    (img.fileAddr b ino (img.extentStart ino pos)).add (pos - img.extentStart ino pos)
  sound : p.Sound img 1
  top : ∀ pa, img.tableAddr b ino (img.extentStart ino pos) = some pa →
    pa + (pos - img.extentStart ino pos : ℕ) + 1 ≤ maxInt64
  accepts : img.Accepts b ino (img.extentStart ino pos) (pos - img.extentStart ino pos + 1)
  named : img.NamedRoom b ino (img.extentStart ino pos) (pos - img.extentStart ino pos + 1)

variable {img : Image} {b : Bytes} {ino : Inode} {rs : List DataRange} {upto k dev : ℕ} {off : Int}

theorem NamedRoom.mono {q m n : ℕ} (h : img.NamedRoom b ino q n) (hle : m ≤ n) :
    img.NamedRoom b ino q m :=
  fun dev pa hbyte hdev => (h dev pa hbyte hdev).mono (by omega)

theorem Sound.not_hole (h : img.Sound dev off k) : off ≠ holeOffset := by
  have := h.nonneg
  unfold holeOffset
  omega

/-- An extent whose first byte is found, with room for it, is published byte by byte. -/
theorem published_extent {deviceID : ℕ} {pa : Int}
    (hext : ∀ j < k, img.extentStart ino (upto + j) = upto)
    (haddr : ∀ j < k, img.fileAddr b ino (upto + j) = .byte deviceID (pa + j))
    (hspot : img.spot b ino upto upto = .data dev off) (hsound : img.Sound dev off k)
    (htop : ∀ pa, img.tableAddr b ino upto = some pa → pa + k ≤ maxInt64)
    (haccepts : img.Accepts b ino upto k) (hnamed : img.NamedRoom b ino upto k) :
    ∀ j < k, img.PublishedAt b ino (upto + j) (.data dev (off + j)) := by
  intro j hj
  have hfirst := haddr 0 (by omega)
  rw [Nat.add_zero, Nat.cast_zero, add_zero] at hfirst
  have hsub : upto + j - upto = j := Nat.add_sub_cancel_left upto j
  constructor
  · rw [hext j hj, ← spot_add, hspot]
    rfl
  · rw [hext j hj, hsub, haddr j hj, hfirst]
    rfl
  · exact hsound.sub (by omega)
  · rw [hext j hj, hsub]
    intro pa' hpa'
    have := htop pa' hpa'
    omega
  · rw [hext j hj, hsub]
    exact haccepts.mono (by omega)
  · rw [hext j hj, hsub]
    exact hnamed.mono (by omega)

/-- An extent that is a hole. -/
theorem published_hole (hext : ∀ j < k, img.extentStart ino (upto + j) = upto)
    (haddr : ∀ j < k, img.fileAddr b ino (upto + j) = .hole) :
    ∀ j < k, img.PublishedAt b ino (upto + j) .hole := by
  intro j hj
  have hfirst := haddr 0 (by omega)
  rw [Nat.add_zero] at hfirst
  have hnone : img.tableAddr b ino upto = none := by
    unfold tableAddr
    rw [hfirst]
  constructor
  · rw [hext j hj, spot, hnone, hfirst]
    rfl
  · rw [hext j hj, haddr j hj, hfirst]
    rfl
  · trivial
  · rw [hext j hj, hnone]
    rintro pa ⟨⟩
  · rw [hext j hj]
    intro pa hpa
    rw [hnone] at hpa
    cases hpa
  · rw [hext j hj]
    intro dev pa hbyte
    rw [hfirst] at hbyte
    cases hbyte

theorem namedRoom_primary {q n : ℕ} {pa : Int} (h : img.fileAddr b ino q = .byte 0 pa) :
    img.NamedRoom b ino q n := by
  intro dev pa' hbyte hdev
  rw [h] at hbyte
  exact absurd (Addr.byte.inj hbyte).1.symm hdev

theorem locateStart_ok {n : ℕ} {p : ℕ × Int} (h : img.locateStart ino n = .ok p) :
    img.locateRange (ino.startBlock * img.blockSize : ℕ) n = .ok p := by
  unfold locateStart blockAddr at h
  split_ifs at h
  exact h

/-- What is found for the blocks at the inode's start block is published. -/
theorem published_start {p : ℕ × Int} (hlay : ino.inodeLayout ≠ .chunkBased)
    (htail : ¬ img.InTail ino 0) (hext : ∀ j < k, img.extentStart ino j = 0)
    (haddr : ∀ j < k, img.fileAddr b ino j = .byte 0 ((ino.startBlock * img.blockSize : ℕ) + j))
    (h : img.locateStart ino k = .ok p) :
    ∀ j < k, img.PublishedAt b ino (0 + j) (.data p.1 (p.2 + j)) := by
  obtain rfl | hk := Nat.eq_zero_or_pos k
  · exact fun j hj => absurd hj (by omega)
  have hloc := locateStart_ok h
  have hfirst := haddr 0 hk
  rw [Nat.cast_zero, add_zero] at hfirst
  have htable := tableAddr_byte hfirst htail
  obtain ⟨haccepts, hspot⟩ := locateRange_accepts hlay htable hloc
  have hbytes : ∀ j < k, img.fileAddr b ino (0 + j) =
      .byte 0 ((ino.startBlock * img.blockSize : ℕ) + j) := fun j hj => by
    rw [Nat.zero_add, haddr j hj]
  refine published_extent (fun j hj => ?_) hbytes hspot (locateRange_sits hloc).2
    (fun pa hpa => ?_) haccepts (namedRoom_primary hfirst)
  · rw [Nat.zero_add, hext j hj]
  · rw [htable] at hpa
    cases hpa
    exact (locateRange_iff.1 hloc).2.1

/-- What is behind the inode is published. -/
theorem published_tail {addr : Int} (hext : ∀ j < k, img.extentStart ino (upto + j) = upto)
    (htail : img.InTail ino upto)
    (haddr : ∀ j < k, img.fileAddr b ino (upto + j) = .byte 0 (addr + j))
    (h : img.checkImageRange addr k = .ok ()) :
    ∀ j < k, img.PublishedAt b ino (upto + j) (.data 0 (addr + j)) := by
  obtain rfl | hk := Nat.eq_zero_or_pos k
  · exact fun j hj => absurd hj (by omega)
  have hfirst := haddr 0 hk
  rw [Nat.add_zero, Nat.cast_zero, add_zero] at hfirst
  have hnone : img.tableAddr b ino upto = none := by
    unfold tableAddr
    rw [hfirst]
    exact if_pos htail
  have hspot : img.spot b ino upto upto = .data 0 addr := by
    rw [spot, hnone, hfirst, Nat.sub_self]
    simp [Addr.add, Addr.place]
  refine published_extent hext haddr hspot (checkImageRange_sound h) (fun pa hpa => ?_)
    (fun pa hpa => ?_) (namedRoom_primary hfirst)
  · rw [hnone] at hpa
    cases hpa
  · rw [hnone] at hpa
    cases hpa

theorem flatPlainRange_publishes (hlay : ino.inodeLayout = .flatPlain)
    (h : img.flatPlainRange ino = .ok rs) : Covers (img.PublishedAt b ino) rs ino.size := by
  have hext : ∀ j, img.extentStart ino j = 0 := fun j => by rw [extentStart, hlay]
  have haddr : ∀ j, img.fileAddr b ino j = if ino.nullAddress then .hole
      else .byte 0 ((ino.startBlock * img.blockSize : ℕ) + j) := by
    intro j
    unfold fileAddr
    simp only [hlay]
  have hnil : Covers (img.PublishedAt b ino) [].reverse 0 := covers_nil
  unfold flatPlainRange at h
  by_cases hnull : ino.nullAddress = true
  · rw [if_pos hnull] at h
    cases h
    have hall := hnil.pushHole (k := ino.size) (published_hole (fun j _ => by rw [hext])
      fun j _ => by rw [haddr, if_pos hnull])
    simpa [Image.pushHole] using hall
  · rw [if_neg hnull] at h
    cases hl : img.locateStart ino ino.size with
    | error e =>
      rw [hl] at h
      cases h
    | ok q =>
      obtain ⟨dev, off⟩ := q
      rw [hl] at h
      cases h
      have hpub := published_start (b := b) (by rw [hlay]; decide) (not_inTail (by simp [hlay]))
        (fun j _ => hext j) (fun j _ => by rw [haddr, if_neg hnull]) hl
      have hall := hnil.pushData (locateRange_sits (locateStart_ok hl)).2.not_hole hpub
      simpa [Image.pushData] using hall

/-- The address of a byte of a flat-inline file. -/
theorem fileAddr_inline (hlay : ino.inodeLayout = .flatInline) (j : ℕ) :
    img.fileAddr b ino j = if ino.size ≤ img.blockStart j + img.blockSize
      then .byte 0 (img.trailingAddr ino + (j - img.blockStart j : ℕ))
      else .byte 0 ((ino.startBlock * img.blockSize : ℕ) + j) := by
  unfold fileAddr
  simp only [hlay]
  rfl

theorem extentStart_inline (hlay : ino.inodeLayout = .flatInline) (j : ℕ) :
    img.extentStart ino j =
      if ino.size ≤ img.blockStart j + img.blockSize then img.blockStart j else 0 := by
  unfold extentStart InTail
  simp only [hlay, true_and]

theorem flatInlineRanges_publishes (hlay : ino.inodeLayout = .flatInline) (hsize : 0 < ino.size)
    (h : img.flatInlineRanges ino = .ok rs) : Covers (img.PublishedAt b ino) rs ino.size := by
  have hbs := img.blockSize_pos
  have haddr := @fileAddr_inline img b ino hlay
  have hext := @extentStart_inline img ino hlay
  unfold flatInlineRanges at h
  dsimp only at h
  generalize img.trailingAddr ino = addr at *
  by_cases hone : ino.size ≤ img.blockSize
  · rw [if_pos hone] at h
    have hstart : ∀ j < ino.size, img.blockStart j = 0 := by
      intro j hj
      rw [blockStart, Nat.div_eq_of_lt (by omega), Nat.zero_mul]
    cases hc : img.checkImageRange addr ino.size with
    | error e =>
      rw [hc] at h
      cases h
    | ok u =>
      rw [hc] at h
      cases h
      have hin : img.InTail ino 0 := ⟨hlay, by rw [hstart 0 hsize]; omega⟩
      have hpub := published_tail (b := b)
        (fun j hj => by rw [Nat.zero_add, hext, hstart j hj, ite_self]) hin
        (fun j hj => by
          rw [Nat.zero_add, haddr, hstart j hj, if_pos (by omega), Nat.sub_zero]) hc
      have hsound := checkImageRange_sound hc
      have hall := covers_nil.append (r := ⟨0, addr, ino.size⟩) rfl fun j hj => by
        rw [rangeAt, if_neg hsound.not_hole]
        exact hpub j hj
      rwa [Nat.zero_add] at hall
  · rw [if_neg hone] at h
    obtain ⟨⟨dev, off⟩, hl, h⟩ := except_bind_ok h
    obtain ⟨u, hc, h⟩ := except_bind_ok h
    cases h
    -- the tail starts at the last multiple of the block size below the size
    have hlast := Nat.div_add_mod' (ino.size - 1) img.blockSize
    have hmod := Nat.mod_lt (ino.size - 1) hbs
    generalize (ino.size - 1) / img.blockSize = q at *
    have hhead : ∀ j < q * img.blockSize, ¬ ino.size ≤ img.blockStart j + img.blockSize := by
      intro j hj
      have hlt : (j / img.blockSize + 1) * img.blockSize ≤ q * img.blockSize :=
        Nat.mul_le_mul_right _ (Nat.div_lt_of_lt_mul (by rwa [Nat.mul_comm] at hj))
      rw [Nat.add_mul, Nat.one_mul, ← blockStart] at hlt
      omega
    have htail : ∀ j < ino.size - q * img.blockSize,
        img.blockStart (q * img.blockSize + j) = q * img.blockSize := by
      intro j hj
      rw [blockStart, Nat.mul_comm q, Nat.mul_add_div hbs, Nat.div_eq_of_lt (by omega),
        Nat.add_zero, Nat.mul_comm]
    have hqpos : 0 < q * img.blockSize := by omega
    have hfirst := published_start (b := b) (by rw [hlay]; decide)
      (fun ht => hhead 0 hqpos ht.2) (fun j hj => by rw [hext, if_neg (hhead j hj)])
      (fun j hj => by rw [haddr, if_neg (hhead j hj)]) hl
    have hin : img.InTail ino (q * img.blockSize) :=
      ⟨hlay, by have := htail 0 (by omega); rw [Nat.add_zero] at this; rw [this]; omega⟩
    have hsecond := published_tail (b := b)
      (fun j hj => by rw [hext, htail j hj, if_pos (by omega)]) hin
      (fun j hj => by rw [haddr, htail j hj, if_pos (by omega), Nat.add_sub_cancel_left]) hc
    have hhole := (locateRange_sits (locateStart_ok hl)).2.not_hole
    have hhole' := (checkImageRange_sound hc).not_hole
    have hone := covers_nil.append (r := ⟨dev, off, (q * img.blockSize : ℕ)⟩) rfl fun j hj => by
      rw [rangeAt, if_neg hhole]
      exact hfirst j hj
    rw [Nat.zero_add] at hone
    have hall := hone.append (r := ⟨0, addr, (ino.size - q * img.blockSize : ℕ)⟩) rfl
      fun j hj => by
        rw [rangeAt, if_neg hhole']
        exact hsecond j hj
    rwa [Nat.add_sub_cancel' (by omega)] at hall

/-- The address of byte `j` of chunk `i` of a chunk-based file. -/
theorem fileAddr_chunk (hlay : ino.inodeLayout = .chunkBased) {i j : ℕ}
    (hj : j < 2 ^ img.chunkBits ino) :
    img.fileAddr b ino (i * 2 ^ img.chunkBits ino + j) =
      (img.decodeEntry ino (held b (img.entryPos ino i).toNat (chunkUnit ino))).elim .hole
        fun e => .byte e.device ((e.block * img.blockSize : ℕ) + j) := by
  have hdiv : (i * 2 ^ img.chunkBits ino + j) / 2 ^ img.chunkBits ino = i := by
    rw [Nat.mul_comm, Nat.mul_add_div (Nat.two_pow_pos _), Nat.div_eq_of_lt hj, Nat.add_zero]
  rw [fileAddr_entry hlay, chunkEntry, hdiv, Nat.add_sub_cancel_left]

theorem extentStart_chunk (hlay : ino.inodeLayout = .chunkBased) {i j : ℕ}
    (hj : j < 2 ^ img.chunkBits ino) :
    img.extentStart ino (i * 2 ^ img.chunkBits ino + j) = i * 2 ^ img.chunkBits ino := by
  rw [extentStart, hlay]
  dsimp only
  rw [Nat.mul_comm i, Nat.mul_add_div (Nat.two_pow_pos _), Nat.div_eq_of_lt hj, Nat.add_zero,
    Nat.mul_comm]

/-- One chunk of the loop. -/
theorem pushChunk_publishes (hbits : img.sb.blkSizeBits ≤ 16)
    (hlay : ino.inodeLayout = .chunkBased) {nid i size : ℕ}
    {out : List DataRange} {e : Option ChunkEntry}
    (hpub : Covers (img.PublishedAt b ino) rs.reverse (i * 2 ^ img.chunkBits ino))
    (hpos : 0 < size) (hsize : size ≤ 2 ^ img.chunkBits ino)
    (he : e = img.decodeEntry ino (held b (img.entryPos ino i).toNat (chunkUnit ino)))
    (h : img.pushChunk nid size e rs = .ok out) :
    Covers (img.PublishedAt b ino) out.reverse (i * 2 ^ img.chunkBits ino + size) := by
  have hext : ∀ j < size, img.extentStart ino (i * 2 ^ img.chunkBits ino + j) =
      i * 2 ^ img.chunkBits ino := fun j hj => extentStart_chunk hlay (by omega)
  cases e with
  | none =>
    cases h
    refine hpub.pushHole (published_hole hext fun j hj => ?_)
    rw [fileAddr_chunk hlay (by omega), ← he, Option.elim_none]
  | some e =>
    unfold pushChunk at h
    obtain ⟨addr, haddr, h⟩ := except_bind_ok h
    obtain ⟨⟨dev, off⟩, hloc, h⟩ := except_bind_ok h
    obtain ⟨u, hbound, h⟩ := except_bind_ok h
    cases h
    have hbytes : ∀ j < size, img.fileAddr b ino (i * 2 ^ img.chunkBits ino + j) =
        .byte e.device (addr + j) := by
      intro j hj
      rw [fileAddr_chunk hlay (by omega), ← he, chunkAddr_ok haddr, Option.elim_some]
    have hfirst := hbytes 0 hpos
    rw [Nat.add_zero, Nat.cast_zero, add_zero] at hfirst
    have htop : addr + size ≤ maxInt64 := by
      have hblock := block_addr_lt hbits (decodeEntry_block_lt he.symm)
      have hchunk : 2 ^ img.chunkBits ino ≤ 2 ^ 47 := chunkSize_le hbits
      rw [chunkAddr_ok haddr, maxInt64]
      omega
    have hplace : (dev, off) = img.addrPlace e.device addr := locate_place hloc
    have hroom := (boundOnDevice_iff.1 (mapError_ok hbound)).2.2
    have hspot := spot_chunk hlay hfirst 0
    rw [Nat.add_zero, Nat.cast_zero, add_zero, ← hplace] at hspot
    have haccepts := (accepts_chunk (n := size) hlay hfirst).2 (by rw [← hplace]; exact hroom)
    have hsound := boundOnDevice_sound (locate_sits hloc).2 (mapError_ok hbound)
    refine hpub.pushData hsound.not_hole (published_extent hext hbytes hspot hsound
      (fun pa hpa => ?_) haccepts.2 haccepts.1)
    have hbyte := (tableAddr_some hpa).1
    rw [hfirst] at hbyte
    obtain ⟨-, rfl⟩ := Addr.byte.inj hbyte
    exact htop

theorem chunkRanges_publishes (hbits : img.sb.blkSizeBits ≤ 16)
    (hlay : ino.inodeLayout = .chunkBased) (hsize : 0 < ino.size)
    {i : ℕ} {es : List (Option ChunkEntry)} {out : List DataRange}
    (hcount : i + es.length = img.chunkCount ino)
    (hent : ∀ j e, es[j]? = some e →
      e = img.decodeEntry ino (held b (img.entryPos ino (i + j)).toNat (chunkUnit ino)))
    (hpub : Covers (img.PublishedAt b ino) rs.reverse
      (if es = [] then ino.size else i * 2 ^ img.chunkBits ino))
    (h : img.chunkRanges ino i es rs = .ok out) :
    Covers (img.PublishedAt b ino) out ino.size := by
  induction es generalizing i rs with
  | nil =>
    cases h
    exact hpub
  | cons e es ih =>
    have hlast := Nat.div_add_mod' (ino.size - 1) (2 ^ img.chunkBits ino)
    have hmod := Nat.mod_lt (ino.size - 1) (Nat.two_pow_pos (img.chunkBits ino))
    obtain ⟨rs', hpush, hrest⟩ := except_bind_ok h
    rw [if_neg (by simp)] at hpub
    have hcn : i + es.length = (ino.size - 1) / 2 ^ img.chunkBits ino := by
      rw [chunkCount, if_neg hsize.ne', List.length_cons] at hcount
      omega
    have hhere := hent 0 e rfl
    refine ih (by rw [List.length_cons] at hcount; omega) (fun j x hx => ?_) ?_ hrest
    · have := hent (j + 1) x hx
      rwa [show i + (j + 1) = i + 1 + j by omega] at this
    · by_cases hes : es = []
      · -- the last chunk ends with the file
        rw [if_pos hes]
        rw [hes, List.length_nil, Nat.add_zero] at hcn
        rw [if_pos hes, ← Nat.cast_sub (by rw [hcn]; omega)] at hpush
        rw [← hcn] at hlast
        have := pushChunk_publishes hbits hlay hpub (by omega) (by omega) hhere hpush
        rwa [Nat.add_sub_cancel' (by omega)] at this
      · rw [if_neg hes]
        rw [if_neg hes] at hpush
        rw [Nat.add_mul, Nat.one_mul]
        exact pushChunk_publishes hbits hlay hpub (Nat.two_pow_pos _) le_rfl hhere hpush

theorem buildChunkDataRanges_map {c : ℕ → Bytes}
    (h : (img.buildChunkDataRanges ino).run (holding c) = .ok rs) : img.MapRead c ino := by
  unfold buildChunkDataRanges at h
  dsimp only at h
  split_ifs at h with h48 hfits
  · cases h
  · cases h
  rw [Bool.not_eq_true', Bool.not_eq_false] at hfits
  rw [Prog.run_bind, Prog.run_done] at h
  refine ⟨hfits, ?_⟩
  cases herr : ((readerAt 0 (img.chunkMapStart ino) (img.chunkCount ino * chunkUnit ino)).run
      (holding c)).err with
  | none => rfl
  | some e =>
    rw [herr] at h
    cases h

theorem buildChunkDataRanges_publishes {c : ℕ → Bytes} (hbits : img.sb.blkSizeBits ≤ 16)
    (hlay : ino.inodeLayout = .chunkBased) (hsize : 0 < ino.size)
    (h : (img.buildChunkDataRanges ino).run (holding c) = .ok rs) :
    Covers (img.PublishedAt (c 0) ino) rs ino.size := by
  obtain ⟨hfits, herr⟩ := buildChunkDataRanges_map h
  unfold buildChunkDataRanges at h
  dsimp only at h
  rw [hfits] at h
  split_ifs at h with h48 hno
  · cases h
  · cases hno
  rw [Prog.run_bind, Prog.run_done, herr] at h
  refine chunkRanges_publishes hbits hlay hsize (by simp [chunkEntries]) (fun j e he => ?_) ?_ h
  · have hlt := (List.getElem?_eq_some_iff.1 he).1
    rw [(map_entry hfits herr (by simpa [chunkEntries] using hlt)).2] at he
    rw [Nat.zero_add]
    exact (Option.some.inj he).symm
  · rw [if_neg, Nat.zero_mul]
    · exact covers_nil
    · simp [chunkEntries, chunkCount, hsize.ne']

/-- The ranges of a file cover it and publish each byte where the table puts its extent. -/
theorem statRanges_publishes {c : ℕ → Bytes} (hbits : img.sb.blkSizeBits ≤ 16)
    (hreg : ino.mode.isRegular = true) (hsize : 0 < ino.size)
    (hlay : ino.inodeLayout = .flatPlain ∨ ino.inodeLayout = .flatInline ∨
      ino.inodeLayout = .chunkBased)
    (h : (img.statRanges ino).run (holding c) = .ok rs) :
    Covers (img.PublishedAt (c 0) ino) rs ino.size ∧
      (ino.inodeLayout = .chunkBased → img.MapRead c ino) := by
  unfold statRanges at h
  rw [if_neg (by simp [hreg]; omega)] at h
  obtain hl | hl | hl := hlay
  · rw [if_neg (by rw [hl]; decide), Prog.run_bind, buildDataRanges, hl] at h
    exact ⟨flatPlainRange_publishes hl (mapError_ok h), by simp [hl]⟩
  · rw [if_neg (by rw [hl]; decide), Prog.run_bind, buildDataRanges, hl] at h
    exact ⟨flatInlineRanges_publishes hl hsize (mapError_ok h), by simp [hl]⟩
  · rw [if_pos hl] at h
    exact ⟨buildChunkDataRanges_publishes hbits hl hsize h, fun _ => buildChunkDataRanges_map h⟩

/-! ## Reading the whole file -/

section Whole

variable {o : Req → Answer} {name : Bytes} {nid : ℕ} {ftype : FileMode}

/-- Two block starts are the same or a block apart. -/
theorem blockStart_gap {p q : ℕ} (hp : p % img.blockSize = 0) (hq : q % img.blockSize = 0)
    (hlt : p < q) : p + img.blockSize ≤ q := by
  have hdvd : img.blockSize ∣ q - p :=
    Nat.dvd_sub (Nat.dvd_of_mod_eq_zero hq) (Nat.dvd_of_mod_eq_zero hp)
  have := Nat.le_of_dvd (by omega) hdvd
  omega

/-- The block loop over the rest of a file from a block's start on succeeds exactly when every block
loads, and delivers the blocks one after another. -/
theorem readBlocks_whole {fuel p : ℕ} {acc : Bytes} (hfuel : ino.size ≤ p + fuel)
    (hp : p = ino.size ∨ p < ino.size ∧ p % img.blockSize = 0) (hacc : acc.length = p) :
    let r := (OpenFile.readBlocks img ino fuel (fileAt name nid ftype ino none p)
      (ino.size - p) acc).run o
    (r.err = none → r.data.length = ino.size ∧ (∀ i < p, r.data[i]? = acc[i]?) ∧
      ∀ q, p ≤ q → q < ino.size → q % img.blockSize = 0 →
        ∃ buf, (img.loadBlock ino q).run o = .ok buf ∧
          ∀ i < buf.length, r.data[q + i]? = buf[i]?) ∧
    ((∀ q, p ≤ q → q < ino.size → q % img.blockSize = 0 →
      ∃ buf, (img.loadBlock ino q).run o = .ok buf) → r.err = none) := by
  induction fuel generalizing p acc with
  | zero =>
    obtain rfl : p = ino.size := by omega
    exact ⟨fun _ => ⟨hacc, fun i _ => rfl, fun q hq hlt => absurd hlt (by omega)⟩, fun _ => rfl⟩
  | succ fuel ih =>
    rw [OpenFile.readBlocks, fileAt_offset]
    obtain rfl | ⟨hlt, hstart⟩ := hp
    · rw [if_pos (Nat.sub_self _)]
      exact ⟨fun _ => ⟨hacc, fun i _ => rfl, fun q hq hlt => absurd hlt (by omega)⟩, fun _ => rfl⟩
    rw [if_neg (by omega), if_neg (not_le.2 hlt), Prog.run_bind]
    cases hb : (img.loadBlock ino p).run o with
    | error e =>
      refine ⟨by rintro ⟨⟩, fun hall => ?_⟩
      obtain ⟨buf, hok⟩ := hall p le_rfl hlt hstart
      rw [hb] at hok
      cases hok
    | ok buf =>
      have hlen : buf.length = min img.blockSize (ino.size - p) := by
        rw [loadBlock_length hb, blockLen, hstart, Nat.sub_zero]
      have hbs := img.blockSize_pos
      have htake : buf.take (ino.size - p) = buf := List.take_of_length_le (by omega)
      have hnext : p + buf.length = ino.size ∨
          p + buf.length < ino.size ∧ (p + buf.length) % img.blockSize = 0 := by
        by_cases hend : p + buf.length = ino.size
        · exact .inl hend
        · refine .inr ⟨by omega, ?_⟩
          rw [show buf.length = img.blockSize by omega, Nat.add_mod_right, hstart]
      have hgap : ∀ q, p ≤ q → q < ino.size → q % img.blockSize = 0 →
          q = p ∨ p + buf.length ≤ q := by
        intro q hq hqs hqm
        obtain rfl | hlt' := Nat.eq_or_lt_of_le hq
        · exact .inl rfl
        · have := img.blockStart_gap hstart hqm hlt'
          exact .inr (by omega)
      obtain ⟨hsucc, hloads⟩ := @ih (p + buf.length) (acc ++ buf) (by omega) hnext (by simp [hacc])
      dsimp only at hsucc hloads ⊢
      rw [htake, fileAt_advance, Nat.sub_sub]
      refine ⟨fun herr => ?_, fun hall => hloads fun q hq => hall q (by omega)⟩
      obtain ⟨hsize, hprev, hrest⟩ := hsucc herr
      refine ⟨hsize, fun i hi => ?_, fun q hq hqs hqm => ?_⟩
      · rw [hprev i (by omega), List.getElem?_append_left (by omega)]
      · obtain rfl | hge := hgap q hq hqs hqm
        · refine ⟨buf, hb, fun i hi => ?_⟩
          rw [hprev (q + i) (by omega), List.getElem?_append_right (by omega), hacc,
            Nat.add_sub_cancel_left]
        · exact hrest q hge hqs hqm

end Whole

/-! ## Bytes -/

section Read

variable {c : ℕ → Bytes} {extra n : ℕ} {size₀ : Int} {buf : Bytes} {name : Bytes} {nid pos : ℕ}
  {ftype : FileMode} {s : Section}

theorem held_one {l : Bytes} {a : ℕ} {x : Byte} : [x] = held l a 1 ↔ l[a]? = some x := by
  rw [held, List.take_one, List.head?_drop]
  cases l[a]? <;> simp [eq_comm]

theorem held_getElem? {l : Bytes} {a i : ℕ} (hi : i < n) : (held l a n)[i]? = l[a + i]? := by
  rw [held, List.getElem?_take_of_lt hi, List.getElem?_drop]

/-- What a read gives, byte by byte. -/
theorem Gives.byte (h : img.Opened extra size₀) (hs : img.Sound dev off n)
    (hg : img.Gives c dev off n buf) {i : ℕ} (hi : i < n) :
    ∃ x, buf[i]? = some x ∧ img.Gives c dev (off + i) 1 [x] := by
  have hn : 0 < n := by omega
  obtain ⟨hroom, part, hpart⟩ := hg.sub h hs one_pos (by omega : i + 1 ≤ n)
  obtain ⟨-, hlen, rfl⟩ := (gives_iff h.windowsNat hn hs.nonneg).1 hg
  have hsub := hs.sub (by omega : i + 1 ≤ n)
  obtain ⟨x, rfl⟩ := List.length_eq_one_iff.1 hpart.2
  have hx := ((gives_iff h.windowsNat one_pos hsub.nonneg).1 hpart).2.2
  rw [home_add, held_one] at hx
  refine ⟨x, ?_, hpart⟩
  rw [held_getElem? hi, ← hx]
  congr 1
  have hnn : 0 ≤ (img.home dev off).2 := home_nonneg h.windowsNat hs.nonneg
  omega

/-- A read gives all its bytes when it gives the last one. -/
theorem gives_of_last (h : img.Opened extra size₀) (hn : 0 < n) (hs : img.Sound dev off n)
    (hg : img.Gives c dev (off + (n - 1 : ℕ)) 1 buf) : ∃ all, img.Gives c dev off n all := by
  have hsub := hs.sub (by omega : n - 1 + 1 ≤ n)
  have hnn : 0 ≤ (img.home dev off).2 := home_nonneg h.windowsNat hs.nonneg
  obtain ⟨hroom, hlen, -⟩ := (gives_iff h.windowsNat one_pos hsub.nonneg).1 hg
  rw [room_iff h one_pos hsub, home_add] at hroom
  rw [home_add] at hlen
  dsimp only at hroom hlen
  refine ⟨_, (gives_iff h.windowsNat hn hs.nonneg).2 ⟨?_, by omega, rfl⟩⟩
  rw [room_iff h hn hs]
  intro hx
  have := hroom hx
  omega

theorem Place.Gives.byte (h : img.Opened extra size₀) {p : Place} (hs : p.Sound img n)
    (hg : p.Gives img c n buf) {i : ℕ} (hi : i < n) :
    ∃ x, buf[i]? = some x ∧ (p.add i).Gives img c 1 [x] := by
  cases p with
  | hole =>
    obtain rfl : buf = List.replicate n nulByte := hg
    exact ⟨nulByte, by simp [hi], rfl⟩
  | data dev off => exact Image.Gives.byte h hs hg hi

theorem Place.gives_of_last (h : img.Opened extra size₀) {p : Place} (hn : 0 < n)
    (hs : p.Sound img n) (hg : (p.add (n - 1)).Gives img c 1 buf) :
    ∃ all, p.Gives img c n all := by
  cases p with
  | hole => exact ⟨_, rfl⟩
  | data dev off => exact Image.gives_of_last h hn hs hg

/-! ## `Read` -/

/-- The place where `Read` finds byte `pos`. -/
def readPlace (img : Image) (c : ℕ → Bytes) (ino : Inode) (pos : ℕ) : Option Place :=
  match (img.openDirect ino).run (holding c) with
  | some s => some (.data s.dev (s.base + pos))
  | none => (img.blockPlace (c 0) ino (img.blockStart pos)).map (Place.add (pos % img.blockSize))

/-- `Read` finds every byte at its address. -/
theorem readPlace_sits {p : Place} (hpos : pos < ino.size)
    (h : img.readPlace c ino pos = some p) :
    p.Sits img (img.fileAddr (c 0) ino pos) ∧ p.Sound img 1 := by
  unfold readPlace at h
  cases hd : (img.openDirect ino).run (holding c) with
  | some s =>
    rw [hd] at h
    cases h
    obtain ⟨deviceID, addr, hrun⟩ := openDirect_run hd
    rw [hrun.addrs pos hpos]
    exact ⟨hrun.sits.add pos, hrun.sound.sub (by omega)⟩
  | none =>
    rw [hd] at h
    obtain ⟨q, hq, rfl⟩ := Option.map_eq_some_iff.1 h
    obtain ⟨hsits, hsound⟩ := blockPlace_sits hq
    rw [fileAddr_block]
    exact ⟨hsits.add _, hsound.sub (by have := img.blockLen_start hpos; omega)⟩

/-! ### Readers that hold bytes -/

/-- A `ReadAt` whose errors are ends of file, where it delivers anything. -/
def OnlyEof (c : ℕ → Bytes) (r : Int → ℕ → ReadProg Answer) : Prop :=
  ∀ off n, ((r off n).run (holding c)).data ≠ [] →
    ∀ e, ((r off n).run (holding c)).err = some e → e.is .eof = true

theorem readerAt_onlyEof (reader : ℕ) : OnlyEof c (readerAt reader) := by
  intro off n hdata e he
  by_cases hneg : off < 0
  · simp [readerAt, holding, hneg] at hdata
  · obtain ⟨k, rfl⟩ := Int.eq_ofNat_of_zero_le (not_lt.1 hneg)
    rw [holding_held] at he
    dsimp only at he
    split_ifs at he
    cases he
    rfl

theorem sectionReadAt_onlyEof {r : Int → ℕ → ReadProg Answer} (hr : OnlyEof c r) (base len : Int) :
    OnlyEof c (sectionReadAt r base len) := by
  intro off n hdata e he
  unfold sectionReadAt at hdata he
  dsimp only at hdata he
  split_ifs at hdata he with hout hclip
  · exact absurd rfl hdata
  · rw [Prog.run_bind, Prog.run_done] at hdata he
    simp only [Option.some.injEq] at he
    cases herr : ((r (off + base) (sectionLimit base len - (off + base)).toNat).run
        (holding c)).err with
    | none =>
      rw [herr] at he
      cases he
      rfl
    | some e' =>
      rw [herr] at he
      cases he
      exact hr _ _ hdata _ herr
  · exact hr _ _ hdata e he

theorem readSection_onlyEof (s : Section) : OnlyEof c (img.readSection s) := by
  refine sectionReadAt_onlyEof (fun off n => ?_) _ _
  unfold deviceReader
  split_ifs
  · exact readerAt_onlyEof 0 off n
  · split
    · exact sectionReadAt_onlyEof (readerAt_onlyEof 0) _ _ off n
    · exact readerAt_onlyEof s.dev off n

/-- `Read` of the whole file through a section succeeds exactly when the section gives it all. -/
theorem readDirect_whole (hsize : 0 < ino.size) :
    let r := ((fileAt name nid ftype ino (some s) 0).readDirect img ino s ino.size).run (holding c)
    (r.err = none → img.SectionGives c s 0 ino.size r.data) ∧
      ((∃ data, img.SectionGives c s 0 ino.size data) → r.err = none) := by
  rw [OpenFile.readDirect, fileAt_offset, if_neg (by omega)]
  dsimp only
  rw [Nat.sub_zero, min_self, Prog.run_bind, Prog.run_done]
  dsimp only
  have honly := img.readSection_onlyEof (c := c) s (0 : ℕ) ino.size
  have hfills := img.readSection_fills (holding_lawful c) s (0 : ℕ) ino.size
  generalize hrun : (img.readSection s (0 : ℕ) ino.size).run (holding c) = a at *
  constructor
  · intro herr
    refine ⟨by rw [hrun], ?_⟩
    by_contra hne
    rw [if_neg hne] at herr
    exact hfills.2 (lt_of_le_of_ne hfills.1 hne) herr
  · rintro ⟨data, hdata, hlen⟩
    rw [hrun] at hdata
    subst hdata
    rw [if_pos hlen]
    cases he : a.err with
    | none => rfl
    | some e =>
      have hne : a.data ≠ [] := by
        intro hnil
        rw [hnil] at hlen
        simp at hlen
        omega
      simp [honly hne e he]

/-- What `read_whole` says of a `Read`: it succeeds exactly when there is a byte at every place. -/
def ReadsPlaces (img : Image) (c : ℕ → Bytes) (ino : Inode) (r : ReadResult) : Prop :=
  (r.err = none → r.data.length = ino.size ∧ ∀ pos < ino.size, ∃ p x,
    img.readPlace c ino pos = some p ∧ r.data[pos]? = some x ∧ p.Gives img c 1 [x]) ∧
  ((∀ pos < ino.size, ∃ p buf, img.readPlace c ino pos = some p ∧ p.Gives img c 1 buf) →
    r.err = none)

theorem readDirect_places (h : img.Opened extra size₀) (hsize : 0 < ino.size)
    (hd : (img.openDirect ino).run (holding c) = some s) :
    img.ReadsPlaces c ino
      (((fileAt name nid ftype ino (some s) 0).readDirect img ino s ino.size).run (holding c)) := by
  have hplace : ∀ pos, img.readPlace c ino pos = some (.data s.dev (s.base + pos)) := by
    intro pos
    rw [readPlace, hd]
  obtain ⟨deviceID, addr, hrun⟩ := openDirect_run hd
  have hsec : ∀ {data : Bytes}, img.SectionGives c s 0 ino.size data ↔
      img.Gives c s.dev s.base ino.size data := by
    intro data
    rw [sectionGives_iff (hrun.len ▸ hrun.sound) hsize (by rw [hrun.len, Nat.zero_add]),
      Nat.cast_zero, add_zero]
  obtain ⟨hok, hall⟩ := @readDirect_whole img ino c name nid ftype s hsize
  refine ⟨fun herr => ?_, fun hbytes => hall ?_⟩
  · have hgive := hsec.1 (hok herr)
    refine ⟨hgive.2, fun pos hpos => ?_⟩
    obtain ⟨x, hx, hg⟩ := hgive.byte h hrun.sound hpos
    exact ⟨_, x, hplace pos, hx, hg⟩
  · obtain ⟨p, buf, hp, hg⟩ := hbytes (ino.size - 1) (by omega)
    rw [hplace] at hp
    cases hp
    obtain ⟨data, hdata⟩ := gives_of_last h hsize hrun.sound hg
    exact ⟨data, hsec.2 hdata⟩

theorem readBlocks_places (h : img.Opened extra size₀) (hsize : 0 < ino.size)
    (hd : (img.openDirect ino).run (holding c) = none) :
    img.ReadsPlaces c ino ((OpenFile.readBlocks img ino ino.size
      (fileAt name nid ftype ino none 0) ino.size []).run (holding c)) := by
  have hplace : ∀ pos, img.readPlace c ino pos =
      (img.blockPlace (c 0) ino (img.blockStart pos)).map (Place.add (pos % img.blockSize)) := by
    intro pos
    rw [readPlace, hd]
  obtain ⟨hok, hall⟩ := @readBlocks_whole img ino (holding c) name nid ftype ino.size 0 []
    (by omega) (.inr ⟨hsize, Nat.zero_mod _⟩) rfl
  rw [Nat.sub_zero] at hok hall
  refine ⟨fun herr => ?_, fun hbytes => hall fun q _ hq hstart => ?_⟩
  · obtain ⟨hlen, -, hblocks⟩ := hok herr
    refine ⟨hlen, fun pos hpos => ?_⟩
    have hlt := img.blockLen_start hpos
    have hle := img.blockStart_le pos
    have hdm := img.blockStart_add pos
    obtain ⟨buf, hb, hdata⟩ := hblocks (img.blockStart pos) (Nat.zero_le _)
      (by omega) (Nat.mul_mod_left _ _)
    obtain ⟨p, hp, hg⟩ := (loadBlock_iff (by omega)).1 hb
    obtain ⟨x, hx, hgx⟩ := hg.byte h (blockPlace_sits hp).2 hlt
    refine ⟨p.add (pos % img.blockSize), x, ?_, ?_, hgx⟩
    · rw [hplace, hp, Option.map_some]
    · have hi := hdata (pos % img.blockSize) (by rw [loadBlock_length hb]; exact hlt)
      rw [hdm] at hi
      rw [hi, hx]
  · -- the last byte of the block's window shows that the window can be read
    have hpos := img.blockLen_pos hq
    have hend := img.blockLen_le hq
    have hbs : img.blockLen ino.size q ≤ img.blockSize := by
      unfold blockLen
      omega
    obtain ⟨p, buf, hp, hg⟩ := hbytes (q + (img.blockLen ino.size q - 1)) (by omega)
    have hdiv := img.blockStart_within hstart
        (by omega : img.blockLen ino.size q - 1 < img.blockSize)
    have hmod : (q + (img.blockLen ino.size q - 1)) % img.blockSize =
        img.blockLen ino.size q - 1 := by
      have hdm := img.blockStart_add (q + (img.blockLen ino.size q - 1))
      omega
    rw [hplace, hdiv, hmod] at hp
    obtain ⟨p₀, hp₀, rfl⟩ := Option.map_eq_some_iff.1 hp
    obtain ⟨all, hgive⟩ := p₀.gives_of_last h hpos (blockPlace_sits hp₀).2 hg
    exact ⟨all, (loadBlock_iff hq).2 ⟨p₀, hp₀, hgive⟩⟩

/-- `Read` of the whole file succeeds exactly when there is a byte at every place it looks at, and
delivers those bytes. -/
theorem read_whole (h : img.Opened extra size₀) (hsize : 0 < ino.size)
    (hino : (img.readInfo name nid ftype).run (holding c) = .ok ino) :
    img.ReadsPlaces c ino
      ((OpenFile.read img ⟨name, nid, ftype, 0, none, none⟩ ino.size).run (holding c)) := by
  cases hd : (img.openDirect ino).run (holding c) with
  | some s =>
    have hread : (OpenFile.read img ⟨name, nid, ftype, 0, none, none⟩ ino.size).run (holding c) =
        ((fileAt name nid ftype ino (some s) 0).readDirect img ino s ino.size).run (holding c) := by
      simp only [OpenFile.read, OpenFile.readInfo, OpenFile.readWith, OpenFile.directReader,
        fileAt, Prog.run_bind, Prog.exec_bind, hino, Prog.run_done, hd]
    rw [hread]
    exact readDirect_places h hsize hd
  | none =>
    have hread : (OpenFile.read img ⟨name, nid, ftype, 0, none, none⟩ ino.size).run (holding c) =
        (OpenFile.readBlocks img ino ino.size (fileAt name nid ftype ino none 0)
          ino.size []).run (holding c) := by
      simp only [OpenFile.read, OpenFile.readInfo, OpenFile.readWith, OpenFile.directReader,
        fileAt, Prog.run_bind, Prog.exec_bind, hino, Prog.run_done, hd]
    rw [hread]
    exact readBlocks_places h hsize hd

/-! ## What is published and what is read -/

theorem statInfo_ok {o : Req → Answer} {fi : FileInfo}
    (h : (img.statInfo name nid ftype).run o = .ok (ino, fi)) :
    (img.readInfo name nid ftype).run o = .ok ino ∧
      (img.statRanges ino).run o = .ok fi.dataRange := by
  obtain ⟨ino', hino, h⟩ := Prog.exec_bind_ok h
  obtain ⟨fi', hfi, h⟩ := Prog.exec_bind_ok h
  cases h
  obtain ⟨xattrs, -, h⟩ := Prog.exec_bind_ok hfi
  obtain ⟨ranges, hranges, h⟩ := Prog.exec_bind_ok h
  cases h
  exact ⟨hino, hranges⟩

section Image

variable {c' : ℕ → Bytes} (hc : c' 0 = c 0)

include hc

theorem readerAt_image (off : Int) (n : ℕ) :
    (readerAt 0 off n).run (holding c') = (readerAt 0 off n).run (holding c) := by
  simp [readerAt, holding, hc]

theorem readInfo_image : (img.readInfo name nid ftype).run (holding c') =
    (img.readInfo name nid ftype).run (holding c) := by
  unfold readInfo
  cases img.checkNid nid with
  | error e => rfl
  | ok u => simp only [Prog.run_bind, Prog.run_done, readerAt_image hc]

theorem openDirect_image :
    (img.openDirect ino).run (holding c') = (img.openDirect ino).run (holding c) := by
  unfold openDirect
  split_ifs
  · rfl
  · cases ino.inodeLayout with
    | chunkBased =>
      dsimp only
      unfold openChunks
      dsimp only
      split_ifs
      · rfl
      · simp only [Prog.run_bind, Prog.run_done, readerAt_image hc]
    | flatPlain => rfl
    | flatInline => rfl
    | compressedFull => rfl
    | compressedCompact => rfl
    | unknown n => rfl

theorem readPlace_image : img.readPlace c' ino pos = img.readPlace c ino pos := by
  rw [readPlace, readPlace, openDirect_image hc, hc]

end Image

/-- Every byte the ranges name is delivered by the device they name. -/
def Delivered (img : Image) (c : ℕ → Bytes) (rs : List DataRange) : Prop :=
  ∀ pos p, rangePlace rs pos = some p → ∃ x, p.Gives img c 1 [x]

theorem Place.Gives.unique {p : Place} {buf' : Bytes} (h : p.Gives img c n buf)
    (h' : p.Gives img c n buf') : buf = buf' := by
  cases p with
  | hole => exact Eq.trans h h'.symm
  | data dev off => exact Image.Gives.unique h h'

theorem Place.SameHome.gives (h : img.Opened extra size₀) {p q : Place} (hh : p.SameHome img q)
    (hp : p.Sound img 1) (hq : q.Sound img 1) :
    p.Gives img c 1 buf ↔ q.Gives img c 1 buf := by
  match p, q, hh with
  | .hole, .hole, _ => rfl
  | .data dev off, .data dev' off', hh => exact gives_of_home h one_pos hp hq hh

/-- Longer readers deliver what shorter ones do. -/
theorem Delivered.mono (h : img.Opened extra size₀) {c' : ℕ → Bytes} (hd : img.Delivered c rs)
    (hs : ∀ pos p, rangePlace rs pos = some p → p.Sound img 1)
    (hlen : ∀ r, (c r).length ≤ (c' r).length) : img.Delivered c' rs := by
  intro pos p hp
  obtain ⟨x, hx⟩ := hd pos p hp
  cases p with
  | hole => exact ⟨nulByte, rfl⟩
  | data dev off =>
    have hnn := (hs pos _ hp).nonneg
    obtain ⟨hroom, hin, -⟩ := (gives_iff h.windowsNat one_pos hnn).1 hx
    have hin' := hin.trans (hlen _)
    have hat := List.getElem?_eq_getElem (Nat.lt_of_succ_le hin')
    exact ⟨_, (gives_iff h.windowsNat one_pos hnn).2 ⟨hroom, hin', held_one.2 hat⟩⟩

/-- Two places of one address that always give the same byte are the same byte. -/
theorem sameHome_of_gives (h : img.Opened extra size₀) {p q : Place} {a : Addr}
    (hp : p.Sits img a) (hq : q.Sits img a) (hps : p.Sound img 1) (hqs : q.Sound img 1)
    (hgive : ∃ x, q.Gives img c 1 [x])
    (hsame : ∀ c' : ℕ → Bytes, c' 0 = c 0 → (∀ r, (c r).length ≤ (c' r).length) → ∀ x,
      q.Gives img c' 1 [x] → p.Gives img c' 1 [x]) : p.SameHome img q := by
  match p, q, a, hp, hq with
  | .hole, .hole, .hole, _, _ => trivial
  | .data dev off, .data dev' off', .byte deviceID pa, hp, hq =>
    by_cases hr : (img.home dev off).1 = (img.home dev' off').1
    · have := sits_reader h hq (k := 0) (by rwa [add_zero]) hr.symm
      rwa [add_zero] at this
    · obtain ⟨x, hx⟩ := hgive
      refine (gives_differ h one_pos hps hqs hr ⟨_, hx⟩ fun c' hc hlen buf hbuf => ?_).elim
      obtain ⟨y, rfl⟩ := List.length_eq_one_iff.1 hbuf.2
      exact hsame c' hc hlen y hbuf

/-- What is read is what is published, whatever the devices hold, just when `Read` finds every byte
where the ranges have it. -/
theorem read_places_iff {fi : FileInfo} (h : img.Opened extra size₀)
    (hstat : (img.statInfo name nid ftype).run (holding c) = .ok (ino, fi))
    (hreg : ino.mode.isRegular = true) (hdel : img.Delivered c fi.dataRange) :
    (∀ c' : ℕ → Bytes, c' 0 = c 0 → img.Delivered c' fi.dataRange →
      let r := (OpenFile.read img ⟨name, nid, ftype, 0, none, none⟩ ino.size).run (holding c')
      r.err = none ∧ r.data.length = ino.size ∧ ∀ pos < ino.size, ∃ x p,
        r.data[pos]? = some x ∧ rangePlace fi.dataRange pos = some p ∧ p.Gives img c' 1 [x]) ↔
      ∀ pos < ino.size, ∃ p q, img.readPlace c ino pos = some p ∧
        rangePlace fi.dataRange pos = some q ∧ p.SameHome img q := by
  obtain ⟨hino, hranges⟩ := statInfo_ok hstat
  have hino' : ∀ {c' : ℕ → Bytes}, c' 0 = c 0 →
      (img.readInfo name nid ftype).run (holding c') = .ok ino := fun hc => by
    rw [readInfo_image hc, hino]
  obtain hsize | hsize := Nat.eq_zero_or_pos ino.size
  · -- an empty file: there is nothing to read and nothing to publish
    refine ⟨fun _ pos hpos => absurd hpos (by omega), fun _ c' hc _ => ?_⟩
    have hdirect : (img.openDirect ino).run (holding c') = none := by
      rw [openDirect, if_pos hsize, Prog.run_done]
    simp [OpenFile.read, OpenFile.readInfo, OpenFile.readWith, OpenFile.directReader,
      Prog.run_bind, Prog.exec_bind, hino' hc, hdirect, hsize, OpenFile.readBlocks]
  obtain ⟨hpub, -⟩ := statRanges_publishes h.bits.2 hreg hsize (readInfo_ok hino).2.layout hranges
  have hqs : ∀ pos q, rangePlace fi.dataRange pos = some q → q.Sound img 1 := by
    intro pos q hq
    have hlt := rangePlace_lt hpub.sizes hq
    rw [hpub.total] at hlt
    obtain ⟨q', hq', hat⟩ := hpub.places pos (by omega)
    rw [hq] at hq'
    cases hq'
    exact hat.sound
  constructor
  · intro hread pos hpos
    obtain ⟨herr, -, hbytes⟩ := hread c rfl hdel
    obtain ⟨p, x, hp, -, -⟩ := ((read_whole h hsize hino).1 herr).2 pos hpos
    obtain ⟨q, hq, hat⟩ := hpub.places pos hpos
    obtain ⟨hpsits, hpsound⟩ := readPlace_sits hpos hp
    have hqsits : q.Sits img (img.fileAddr (c 0) ino pos) := hat.place ▸ spot_sits hat.addr
    refine ⟨p, q, hp, hq, sameHome_of_gives h hpsits hqsits hpsound hat.sound (hdel pos q hq) ?_⟩
    intro c' hc hlen y hy
    obtain ⟨herr', -, hbytes'⟩ := hread c' hc (hdel.mono h hqs hlen)
    obtain ⟨p', x', hp', hx', hg'⟩ := ((read_whole h hsize (hino' hc)).1 herr').2 pos hpos
    obtain ⟨x'', q', hx'', hq', hgq⟩ := hbytes' pos hpos
    rw [readPlace_image hc, hp] at hp'
    rw [hq] at hq'
    cases hp'
    cases hq'
    rw [hx'] at hx''
    cases hx''
    cases hgq.unique hy
    exact hg'
  · intro hplaces c' hc hdel'
    have hgive : ∀ pos < ino.size, ∃ p buf, img.readPlace c' ino pos = some p ∧
        p.Gives img c' 1 buf := by
      intro pos hpos
      obtain ⟨p, q, hp, hq, hh⟩ := hplaces pos hpos
      obtain ⟨x, hx⟩ := hdel' pos q hq
      refine ⟨p, [x], by rw [readPlace_image hc, hp], ?_⟩
      exact (hh.gives h (readPlace_sits hpos hp).2 (hqs pos q hq)).2 hx
    obtain ⟨hok, hall⟩ := read_whole h hsize (hino' hc)
    have herr := hall hgive
    obtain ⟨hlen, hbytes⟩ := hok herr
    refine ⟨herr, hlen, fun pos hpos => ?_⟩
    obtain ⟨p, q, hp, hq, hh⟩ := hplaces pos hpos
    obtain ⟨p', x, hp', hx, hg⟩ := hbytes pos hpos
    rw [readPlace_image hc, hp] at hp'
    cases hp'
    exact ⟨x, q, hx, hq, (hh.gives h (readPlace_sits hpos hp).2 (hqs pos q hq)).1 hg⟩

/-! ### When the places agree -/

/-- `Read` goes through one section, looked up for the first byte: that of a flat-plain file with
data, and of a chunk-based one with an indexed map that is one run, for which there is room where
its first chunk is. -/
def OneRun (img : Image) (b : Bytes) (ino : Inode) : Prop :=
  match ino.inodeLayout with
  | .flatPlain => ino.nullAddress = false
  | .chunkBased => ino.chunkIndexed = true ∧ ∃ e, img.ChunkRun b ino e ∧
      img.HasRoom (img.addrPlace e.device (e.block * img.blockSize : ℕ)).1
        (img.addrPlace e.device (e.block * img.blockSize : ℕ)).2 ino.size
  | _ => False

/-- The bytes behind the inode, from byte `q` on, do not cross a block's end. -/
def TailFits (img : Image) (ino : Inode) (q : ℕ) : Prop :=
  img.InTail ino q →
    img.trailingAddr ino % img.blockSize + (ino.size - q : ℕ) ≤ (img.blockSize : Int)

/-- A file is read as it is published: a tail does not cross its block, a chunk map is of a format
that `Read` takes, and what `Read` asks the device table for gets the same answer as what `Stat`
asked it for, the first byte of the extent.  In flatdev mode the answers do not matter, but there
has to be room for the block. -/
structure ReadAsPublished (img : Image) (extra : ℕ) (b : Bytes) (ino : Inode) : Prop where
  tail : ∀ q < ino.size, q % img.blockSize = 0 → img.TailFits ino q
  format : ino.inodeLayout = .chunkBased → 0 < ino.size → ino.chunkUnsupported = false
  run : img.OneRun b ino → ∀ pos < ino.size,
    extra = 0 ∨ img.tableDevice b ino 0 = img.tableDevice b ino (img.extentStart ino pos)
  blocks : ¬ img.OneRun b ino → ∀ q < ino.size, q % img.blockSize = 0 →
    img.tableDevice b ino q = img.tableDevice b ino (img.extentStart ino q) ∨
      extra = 0 ∧ img.Accepts b ino q (img.blockLen ino.size q)

section Agree

variable {b : Bytes} {q : ℕ} {p : Place}

theorem inTail_block (pos : ℕ) : img.InTail ino (img.blockStart pos) ↔ img.InTail ino pos := by
  unfold InTail
  rw [blockStart_blockStart]

theorem extentStart_block (pos : ℕ) :
    img.extentStart ino (img.blockStart pos) = img.extentStart ino pos := by
  unfold extentStart
  simp only [inTail_block, blockStart_blockStart, blockStart_chunk]

theorem extentStart_le (pos : ℕ) : img.extentStart ino pos ≤ pos := by
  unfold extentStart
  split
  · split_ifs
    · exact img.blockStart_le pos
    · exact Nat.zero_le _
  · exact Nat.div_mul_le_self _ _
  · exact Nat.zero_le _

/-- An extent is behind the inode as a whole. -/
theorem inTail_extent (pos : ℕ) :
    img.InTail ino (img.extentStart ino pos) ↔ img.InTail ino pos := by
  by_cases hlay : ino.inodeLayout = .flatInline
  · rw [extentStart, hlay]
    dsimp only
    by_cases htail : img.InTail ino pos
    · rw [if_pos htail, inTail_block]
    · rw [if_neg htail]
      refine iff_of_false (fun hzero => htail ⟨hlay, ?_⟩) htail
      have := hzero.2
      rw [blockStart, Nat.zero_div, Nat.zero_mul] at this
      omega
  · exact iff_of_false (not_inTail hlay) (not_inTail hlay)

/-- The last byte of a block's window. -/
theorem last_byte (hq : q < ino.size) (hmod : q % img.blockSize = 0) :
    ∃ last, last < ino.size ∧ img.blockStart last = q ∧ last + 1 = q + img.blockLen ino.size q := by
  have hpos := img.blockLen_pos hq
  have hle := img.blockLen_le hq
  have hbs := img.blockLen_le_blockSize ino.size q
  exact ⟨q + (img.blockLen ino.size q - 1), by omega,
    img.blockStart_within hmod (by omega), by omega⟩

variable (hpub : ∀ pos < ino.size, ∃ p, img.PublishedAt b ino pos p)

include hpub

/-- There is room for a block where there is room for its extent, if the table says the same of
both. -/
theorem accepts_published (hq : q < ino.size) (hmod : q % img.blockSize = 0)
    (hdev : img.tableDevice b ino q = img.tableDevice b ino (img.extentStart ino q)) :
    img.Accepts b ino q (img.blockLen ino.size q) := by
  obtain ⟨last, hlast, hstart, hend⟩ := img.last_byte hq hmod
  obtain ⟨p, hp⟩ := hpub last hlast
  obtain ⟨p', hp'⟩ := hpub q hq
  have hext : img.extentStart ino last = img.extentStart ino q := by
    rw [← extentStart_block last, hstart]
  have hle := @extentStart_le img ino q
  have haccepts := hp.accepts
  rw [hext] at haccepts
  exact haccepts.of_tableDevice hdev hp'.addr (by omega)

/-- A device the chunk map names has room for the block. -/
theorem named_published (hq : q < ino.size) (hmod : q % img.blockSize = 0) :
    img.NamedRoom b ino q (img.blockLen ino.size q) := by
  obtain ⟨last, hlast, hstart, hend⟩ := img.last_byte hq hmod
  obtain ⟨p, hp⟩ := hpub last hlast
  obtain ⟨p', hp'⟩ := hpub q hq
  have hext : img.extentStart ino last = img.extentStart ino q := by
    rw [← extentStart_block last, hstart]
  have hle := @extentStart_le img ino q
  have hnamed := hp.named
  rw [hext] at hnamed
  intro dev pa hbyte hdev
  have haddr := hp'.addr
  rw [hbyte] at haddr
  cases hfirst : img.fileAddr b ino (img.extentStart ino q) with
  | hole =>
    rw [hfirst] at haddr
    cases haddr
  | byte dev₀ pa₀ =>
    rw [hfirst] at haddr
    obtain ⟨rfl, rfl⟩ := Addr.byte.inj haddr
    exact (hnamed _ _ hfirst hdev).mono (by omega)

/-- The end of a block's addresses. -/
theorem top_published (hq : q < ino.size) (hmod : q % img.blockSize = 0) {pa : Int}
    (htable : img.tableAddr b ino (img.extentStart ino q) = some pa) :
    pa + (q - img.extentStart ino q : ℕ) + img.blockLen ino.size q ≤ maxInt64 := by
  obtain ⟨last, hlast, hstart, hend⟩ := img.last_byte hq hmod
  obtain ⟨p, hp⟩ := hpub last hlast
  have hext : img.extentStart ino last = img.extentStart ino q := by
    rw [← extentStart_block last, hstart]
  have hle := @extentStart_le img ino q
  have htop := hp.top
  rw [hext] at htop
  have := htop pa htable
  omega

/-- A tail is read where it is published, if it does not cross its block. -/
theorem inlinePlace_tail_iff (hq : q < ino.size) (hmod : q % img.blockSize = 0)
    (htail : img.InTail ino q) :
    img.inlinePlace ino q = some p ↔ img.TailFits ino q ∧ p = img.spot b ino q q := by
  have hstart : img.blockStart q = q := by
    have := img.blockStart_add q
    omega
  have hend := htail.2
  rw [hstart] at hend
  have hlen : img.blockLen ino.size q = ino.size - q := by
    rw [blockLen, hmod, Nat.sub_zero, min_eq_right (by omega)]
  have haddr : img.fileAddr b ino q = .byte 0 (img.trailingAddr ino) := by
    rw [fileAddr_inline htail.1, hstart, if_pos hend, Nat.sub_self, Nat.cast_zero, add_zero]
  have hnone : img.tableAddr b ino q = none := by
    unfold tableAddr
    rw [haddr]
    exact if_pos htail
  have hspot : ∀ pos, img.spot b ino q pos = .data 0 (img.trailingAddr ino + (pos - q : ℕ)) := by
    intro pos
    unfold spot
    rw [hnone, haddr]
    rfl
  -- the first and the last byte of the tail are inside the image
  have hsound : ∀ pos, q ≤ pos → pos < ino.size →
      img.Sound 0 (img.trailingAddr ino + (pos - q : ℕ)) 1 := by
    intro pos hge hlt
    obtain ⟨p', hp'⟩ := hpub pos hlt
    have hpos : img.blockStart pos = q := by
      have := img.blockStart_within hmod (by omega : pos - q < img.blockSize)
      rwa [Nat.add_sub_cancel' hge] at this
    have hext : img.extentStart ino pos = q := by
      rw [extentStart_inline htail.1, hpos, if_pos hend]
    have hat := hp'.sound
    rw [hp'.place, hext, hspot] at hat
    exact hat
  have hcheck : img.checkImageRange (img.trailingAddr ino) (ino.size - q : ℕ) = .ok () := by
    have hfirst := hsound q le_rfl hq
    have hlast := hsound (ino.size - 1) (by omega) (by omega)
    rw [Nat.sub_self, Nat.cast_zero, add_zero] at hfirst
    generalize img.trailingAddr ino = addr at hfirst hlast ⊢
    refine checkImageRange_iff.2 ⟨hfirst.nonneg, ?_, fun hs => ?_⟩
    · have := hlast.end_le
      omega
    · have := hlast.inside rfl hs
      omega
  unfold inlinePlace TailFits
  dsimp only
  rw [← blockStart, hstart, if_pos hend, hlen, hspot, Nat.sub_self, Nat.cast_zero, add_zero, hcheck]
  by_cases hcross : (img.blockSize : Int) <
      img.trailingAddr ino % img.blockSize + (ino.size - q : ℕ)
  · rw [if_pos hcross]
    simp only [reduceCtorEq, htail, true_implies, not_le.2 hcross, false_and]
  · rw [if_neg hcross]
    simp only [Option.some.injEq, not_lt.1 hcross, implies_true, true_and, eq_comm]

/-- The block path has a published block where the table puts it, if its tail does not cross its end
and there is room for it. -/
theorem blockPlace_published_iff (hbits : img.sb.blkSizeBits ≤ 16)
    (hlay : ino.inodeLayout = .flatPlain ∨ ino.inodeLayout = .flatInline ∨
      ino.inodeLayout = .chunkBased ∧ ino.chunkUnsupported = false ∧
        ∀ i < img.chunkCount ino, ¬ (img.entryPos ino i < 0 ∨
          (b.length : Int) < img.entryPos ino i + chunkUnit ino))
    (hq : q < ino.size) (hmod : q % img.blockSize = 0) :
    img.blockPlace b ino q = some p ↔
      img.TailFits ino q ∧ img.Accepts b ino q (img.blockLen ino.size q) ∧
        p = img.spot b ino q q := by
  have hfits : ino.inodeLayout ≠ .flatInline → img.TailFits ino q := fun hne ht =>
    absurd ht (not_inTail hne)
  -- a block that is looked up at the inode's start block
  have hflat : ino.inodeLayout ≠ .chunkBased → img.extentStart ino q = 0 → ¬ img.InTail ino q →
      img.fileAddr b ino 0 = .byte 0 (ino.startBlock * img.blockSize : ℕ) →
      (img.flatPlace ino q = some p ↔ img.Accepts b ino q (img.blockLen ino.size q) ∧
        p = img.spot b ino q q) := by
    intro hne hext hnot hfirst
    have htail0 : ¬ img.InTail ino 0 := by rwa [← hext, inTail_extent]
    obtain ⟨p', hp'⟩ := hpub q hq
    have haddr := hp'.addr
    rw [hext, hfirst, Nat.sub_zero] at haddr
    have htop := img.top_published hpub hq hmod (by rw [hext]; exact tableAddr_byte hfirst htail0)
    rw [hext, Nat.sub_zero] at htop
    rw [flatPlace_iff hmod hne (tableAddr_byte haddr hnot)]
    simp only [htop, true_and]
  unfold blockPlace
  obtain hl | hl | ⟨hl, hformat, hentry⟩ := hlay
  · have hext : img.extentStart ino q = 0 := by rw [extentStart, hl]
    simp only [hl]
    simp only [hfits (by rw [hl]; decide), true_and]
    by_cases hnull : ino.nullAddress = true
    · have hhole : img.fileAddr b ino q = .hole := by
        unfold fileAddr
        simp only [hl, if_pos hnull]
      have hnone : img.tableAddr b ino q = none := by
        unfold tableAddr
        rw [hhole]
      have hspot : img.spot b ino q q = .hole := by
        rw [spot, hnone, hhole]
        rfl
      have haccepts : img.Accepts b ino q (img.blockLen ino.size q) := fun pa hpa => by
        rw [hnone] at hpa
        cases hpa
      rw [if_pos hnull, hspot]
      simp only [haccepts, true_and, Option.some.injEq, eq_comm]
    · rw [if_neg hnull]
      refine hflat (by rw [hl]; decide) hext (not_inTail (by rw [hl]; decide)) ?_
      unfold fileAddr
      simp only [hl, if_neg hnull, Nat.cast_zero, add_zero]
  · simp only [hl]
    by_cases htail : img.InTail ino q
    · have hnone : img.tableAddr b ino q = none := by
        unfold tableAddr
        split
        · exact if_pos htail
        · rfl
      have haccepts : img.Accepts b ino q (img.blockLen ino.size q) := fun pa hpa => by
        rw [hnone] at hpa
        cases hpa
      rw [img.inlinePlace_tail_iff hpub hq hmod htail]
      simp only [haccepts, true_and]
    · have hnot : ¬ ino.size ≤ img.blockStart q + img.blockSize := fun hle => htail ⟨hl, hle⟩
      have hext : img.extentStart ino q = 0 := by rw [extentStart_inline hl, if_neg hnot]
      have hplace : img.inlinePlace ino q = img.flatPlace ino q := if_neg hnot
      have hfit : img.TailFits ino q := fun ht => absurd ht htail
      rw [hplace]
      simp only [hfit, true_and]
      refine hflat (by rw [hl]; decide) hext htail ?_
      have hzero : ¬ ino.size ≤ img.blockStart 0 + img.blockSize := by
        have htail0 : ¬ img.InTail ino 0 := by rwa [← hext, inTail_extent]
        exact fun hle => htail0 ⟨hl, hle⟩
      rw [fileAddr_inline hl, if_neg hzero, Nat.cast_zero, add_zero]
  · simp only [hl]
    rw [chunkPlace_iff hbits hl hformat (hentry _ (img.chunk_lt hq)) hmod hq]
    simp only [hfits (by rw [hl]; decide), img.named_published hpub hq hmod, true_and]

/-- Two looks at one byte, for its block and for its extent. -/
theorem published_sameHome_iff (h : img.Opened extra size₀) (hpos : pos < ino.size) :
    (img.spot b ino (img.blockStart pos) pos).SameHome img
        (img.spot b ino (img.extentStart ino pos) pos) ↔
      extra = 0 ∨ img.tableDevice b ino (img.blockStart pos) =
        img.tableDevice b ino (img.extentStart ino pos) := by
  obtain ⟨p', hp'⟩ := hpub pos hpos
  refine spot_sameHome_iff h ?_ hp'.addr ?_
  · have hadd := img.blockStart_add pos
    rw [fileAddr_block pos, show pos - img.blockStart pos = pos % img.blockSize by omega]
  · rw [inTail_block, inTail_extent]

end Agree

/-- The section of `openDirect` is that of one run, or of what is behind the inode. -/
theorem oneRun_of_direct (hbits : img.sb.blkSizeBits ≤ 16)
    (hd : (img.openDirect ino).run (holding c) = some s) :
    (img.InTail ino 0 ∨ img.OneRun (c 0) ino) ∧
      (∀ q < ino.size, q % img.blockSize = 0 → img.TailFits ino q) ∧
      (ino.inodeLayout = .chunkBased → ino.chunkUnsupported = false) := by
  unfold openDirect at hd
  split_ifs at hd with hzero
  · cases hd
  have hsize := Nat.pos_of_ne_zero hzero
  have hfits : ino.inodeLayout ≠ .flatInline → ∀ q < ino.size, q % img.blockSize = 0 →
      img.TailFits ino q := fun hne q _ _ ht => absurd ht (not_inTail hne)
  unfold OneRun
  cases hlay : ino.inodeLayout with
  | flatPlain =>
    rw [hlay] at hd hfits
    refine ⟨.inr ?_, hfits (by decide), by simp⟩
    simp only [Prog.run_done, openPlain] at hd
    split_ifs at hd with hnull
    simpa using hnull
  | flatInline =>
    rw [hlay] at hd
    simp only [Prog.run_done, openInline] at hd
    split_ifs at hd with hbig
    push Not at hbig
    refine ⟨.inl ⟨hlay, hbig.1.trans (Nat.le_add_left _ _)⟩, fun q hq hmod _ => ?_, by simp⟩
    obtain rfl : q = 0 := by
      rw [Nat.mod_eq_of_lt (by omega)] at hmod
      exact hmod
    exact hbig.2
  | chunkBased =>
    rw [hlay] at hd hfits
    obtain ⟨hmap, hindexed, hformat⟩ := openChunks_map hd
    obtain ⟨e, hrun, hsec⟩ := (openChunks_iff hmap hindexed hformat hsize).1 hd
    have hend := hrun.end_lt hbits hlay hsize
    have hroom := ((runSection_iff hbits hsize (hrun.block_lt hsize)
      (by rw [maxInt64]; omega)).1 hsec).1
    exact ⟨.inr ⟨hindexed, e, hrun, hroom⟩, hfits (by decide), fun _ => hformat⟩
  | compressedFull => rw [hlay] at hd; cases hd
  | compressedCompact => rw [hlay] at hd; cases hd
  | unknown n => rw [hlay] at hd; cases hd

/-- A file of one run whose ranges are published has a section. -/
theorem direct_of_oneRun {rs : List DataRange} (hbits : img.sb.blkSizeBits ≤ 16)
    (hreg : ino.mode.isRegular = true) (hsize : 0 < ino.size)
    (hformat : ino.inodeLayout = .chunkBased → ino.chunkUnsupported = false)
    (hmap : ino.inodeLayout = .chunkBased → img.MapRead c ino)
    (hranges : (img.statRanges ino).run (holding c) = .ok rs) (hone : img.OneRun (c 0) ino) :
    (img.openDirect ino).run (holding c) ≠ none := by
  unfold OneRun at hone
  unfold openDirect
  rw [if_neg hsize.ne']
  cases hlay : ino.inodeLayout with
  | flatPlain =>
    simp only [hlay] at hone
    unfold statRanges at hranges
    rw [if_neg (by simp [hreg]; omega), if_neg (by rw [hlay]; decide), Prog.run_bind,
      buildDataRanges, hlay] at hranges
    have hplain := mapError_ok hranges
    simp only [Prog.run_done, flatPlainRange, hone, Bool.false_eq_true, if_false] at hplain
    simp only [Prog.run_done, openPlain, hone, Bool.false_eq_true, if_false]
    cases hl : img.locateStart ino ino.size with
    | error e =>
      rw [hl] at hplain
      cases hplain
    | ok q => simp
  | chunkBased =>
    simp only [hlay] at hone
    obtain ⟨hindexed, e, hrun, hroom⟩ := hone
    have hend := hrun.end_lt hbits hlay hsize
    have hsec := (runSection_iff hbits hsize (hrun.block_lt hsize)
      (by rw [maxInt64]; omega)).2 ⟨hroom, rfl⟩
    have hopen := (openChunks_iff (hmap hlay) hindexed (hformat hlay) hsize).2 ⟨e, hrun, hsec⟩
    simp [hopen]
  | flatInline => simp only [hlay] at hone
  | compressedFull => simp only [hlay] at hone
  | compressedCompact => simp only [hlay] at hone
  | unknown n => simp only [hlay] at hone

theorem tableDevice_tail {b : Bytes} (h : img.InTail ino pos) :
    img.tableDevice b ino pos = none := by
  unfold tableDevice tableAddr
  split
  · rw [if_pos h, Option.map_none]
  · rfl

/-- `Read` finds every byte where the ranges have it. -/
def PlacesAgree (img : Image) (c : ℕ → Bytes) (ino : Inode) (rs : List DataRange) : Prop :=
  ∀ pos < ino.size, ∃ p q, img.readPlace c ino pos = some p ∧ rangePlace rs pos = some q ∧
    p.SameHome img q

section PlacesAgree

variable {rs : List DataRange} (h : img.Opened extra size₀)
  (hpub : Covers (img.PublishedAt (c 0) ino) rs ino.size)

include h hpub

theorem placesAgree_direct_iff (hd : (img.openDirect ino).run (holding c) = some s) :
    img.PlacesAgree c ino rs ↔ img.ReadAsPublished extra (c 0) ino := by
  obtain ⟨deviceID, addr, hrun⟩ := openDirect_run hd
  have hlook := openDirect_lookedUp h.bits.2 hd
  obtain ⟨hone, htail, hformat⟩ := oneRun_of_direct h.bits.2 hd
  have hread : ∀ pos, img.readPlace c ino pos = some (img.spot (c 0) ino 0 pos) := by
    intro pos
    rw [readPlace, hd, ← hlook.spot]
  have hagree : ∀ pos < ino.size, (∃ p q, img.readPlace c ino pos = some p ∧
      rangePlace rs pos = some q ∧ p.SameHome img q) ↔ extra = 0 ∨
        img.tableDevice (c 0) ino 0 =
          img.tableDevice (c 0) ino (img.extentStart ino pos) := by
    intro pos hpos
    obtain ⟨q, hq, hat⟩ := hpub.places pos hpos
    have hext : img.extentStart ino pos < ino.size := lt_of_le_of_lt (extentStart_le pos) hpos
    rw [hread, hq, hat.place]
    simp only [Option.some.injEq, exists_and_left, exists_eq_left']
    exact spot_sameHome_iff h (hrun.add hpos) hat.addr (hlook.tail _ hext).symm
  have hiff : img.PlacesAgree c ino rs ↔ ∀ pos < ino.size, extra = 0 ∨
      img.tableDevice (c 0) ino 0 = img.tableDevice (c 0) ino (img.extentStart ino pos) :=
    forall₂_congr hagree
  rw [hiff]
  constructor
  · intro hall
    refine ⟨htail, fun hl _ => hformat hl, fun _ => hall, fun hnot q hq hmod => .inl ?_⟩
    -- only what is behind the inode has a section without being one run
    have hq' := (hlook.tail q hq).2 (hone.resolve_right hnot)
    rw [tableDevice_tail hq', tableDevice_tail ((inTail_extent q).2 hq')]
  · intro hpubl pos hpos
    obtain hzero | hone := hone
    · have hext := (inTail_extent pos).2 ((hlook.tail pos hpos).2 hzero)
      rw [tableDevice_tail hzero, tableDevice_tail hext]
      exact .inr rfl
    · exact hpubl.run hone pos hpos

theorem placesAgree_blocks_iff (hd : (img.openDirect ino).run (holding c) = none)
    (hlay : ino.inodeLayout = .flatPlain ∨ ino.inodeLayout = .flatInline ∨
      ino.inodeLayout = .chunkBased)
    (hmap : ino.inodeLayout = .chunkBased → img.MapRead c ino)
    (hformat : ino.inodeLayout = .chunkBased → ino.chunkUnsupported = false)
    (hnot : ¬ img.OneRun (c 0) ino) :
    img.PlacesAgree c ino rs ↔ img.ReadAsPublished extra (c 0) ino := by
  have hall : ∀ pos < ino.size, ∃ p, img.PublishedAt (c 0) ino pos p := fun pos hpos =>
    (hpub.places pos hpos).imp fun _ hp => hp.2
  have hlay' : ino.inodeLayout = .flatPlain ∨ ino.inodeLayout = .flatInline ∨
      ino.inodeLayout = .chunkBased ∧ ino.chunkUnsupported = false ∧
        ∀ i < img.chunkCount ino, ¬ (img.entryPos ino i < 0 ∨
          ((c 0).length : Int) < img.entryPos ino i + chunkUnit ino) :=
    hlay.imp id (Or.imp id fun hl =>
      ⟨hl, hformat hl, fun i hi => (map_entry (hmap hl).1 (hmap hl).2 hi).1⟩)
  have hagree : ∀ pos < ino.size, (∃ p q, img.readPlace c ino pos = some p ∧
      rangePlace rs pos = some q ∧ p.SameHome img q) ↔
        img.TailFits ino (img.blockStart pos) ∧
        img.Accepts (c 0) ino (img.blockStart pos) (img.blockLen ino.size (img.blockStart pos)) ∧
        (extra = 0 ∨ img.tableDevice (c 0) ino (img.blockStart pos) =
          img.tableDevice (c 0) ino (img.extentStart ino pos)) := by
    intro pos hpos
    obtain ⟨q, hq, hat⟩ := hpub.places pos hpos
    have hlt : img.blockStart pos < ino.size := lt_of_le_of_lt (img.blockStart_le pos) hpos
    have hspot : (img.spot (c 0) ino (img.blockStart pos) (img.blockStart pos)).add
        (pos % img.blockSize) = img.spot (c 0) ino (img.blockStart pos) pos := by
      rw [spot_add, blockStart_add]
    rw [← published_sameHome_iff hall h hpos, hq, hat.place, readPlace, hd]
    simp only [Option.map_eq_some_iff, Option.some.injEq, exists_and_left, exists_eq_left',
      blockPlace_published_iff hall h.bits.2 hlay' hlt (img.blockStart_mod pos)]
    constructor
    · rintro ⟨p, ⟨p', ⟨hfits, haccepts, rfl⟩, rfl⟩, hsame⟩
      exact ⟨hfits, haccepts, hspot ▸ hsame⟩
    · rintro ⟨hfits, haccepts, hsame⟩
      exact ⟨_, ⟨_, ⟨hfits, haccepts, rfl⟩, rfl⟩, hspot.symm ▸ hsame⟩
  have hstart : ∀ q, q % img.blockSize = 0 → img.blockStart q = q := fun q hq => by
    have := img.blockStart_add q
    omega
  constructor
  · intro hplaces
    refine ⟨fun q hq hmod => ?_, fun hl _ => hformat hl, fun hone => absurd hone hnot,
      fun _ q hq hmod => ?_⟩
    · have hat := ((hagree q hq).1 (hplaces q hq)).1
      rwa [hstart q hmod] at hat
    · obtain ⟨-, haccepts, hdev⟩ := (hagree q hq).1 (hplaces q hq)
      rw [hstart q hmod] at haccepts hdev
      exact hdev.symm.imp id fun hx => ⟨hx, haccepts⟩
  · intro hpubl pos hpos
    have hlt : img.blockStart pos < ino.size := lt_of_le_of_lt (img.blockStart_le pos) hpos
    have hmod := img.blockStart_mod pos
    refine (hagree pos hpos).2 ⟨hpubl.tail _ hlt hmod, ?_⟩
    have hext := @extentStart_block img ino pos
    obtain hdev | ⟨hx, haccepts⟩ := hpubl.blocks hnot _ hlt hmod
    · exact ⟨accepts_published hall hlt hmod hdev, .inr (hext ▸ hdev)⟩
    · exact ⟨haccepts, .inl hx⟩

end PlacesAgree

/-- **Published and read.**  For a regular file of an opened image whose `Stat` succeeds, with the
devices delivering every byte the ranges name: `Read` of the whole file succeeds and each byte is
the one at its place in the ranges, whatever the devices hold, exactly when `ReadAsPublished`. -/
theorem ranges_read_iff {fi : FileInfo} (h : img.Opened extra size₀)
    (hstat : (img.statInfo name nid ftype).run (holding c) = .ok (ino, fi))
    (hreg : ino.mode.isRegular = true) (hdel : img.Delivered c fi.dataRange) :
    (∀ c' : ℕ → Bytes, c' 0 = c 0 → img.Delivered c' fi.dataRange →
      let r := (OpenFile.read img ⟨name, nid, ftype, 0, none, none⟩ ino.size).run (holding c')
      r.err = none ∧ r.data.length = ino.size ∧ ∀ pos < ino.size, ∃ x p,
        r.data[pos]? = some x ∧ rangePlace fi.dataRange pos = some p ∧ p.Gives img c' 1 [x]) ↔
      img.ReadAsPublished extra (c 0) ino := by
  rw [read_places_iff h hstat hreg hdel]
  obtain ⟨hino, hranges⟩ := statInfo_ok hstat
  have hlay := (readInfo_ok hino).2.layout
  obtain hzero | hsize := Nat.eq_zero_or_pos ino.size
  · refine iff_of_true (fun pos hpos => absurd hpos (by omega)) ⟨?_, ?_, ?_, ?_⟩ <;>
      intros <;> omega
  obtain ⟨hpub, hmap⟩ := statRanges_publishes h.bits.2 hreg hsize hlay hranges
  cases hd : (img.openDirect ino).run (holding c) with
  | some s => exact placesAgree_direct_iff h hpub hd
  | none =>
    by_cases hformat : ino.inodeLayout = .chunkBased → ino.chunkUnsupported = false
    · refine placesAgree_blocks_iff h hpub hd hlay hmap hformat fun hone => ?_
      exact direct_of_oneRun h.bits.2 hreg hsize hformat hmap hranges hone hd
    · -- the block path refuses a map of another format
      refine iff_of_false (fun hplaces => ?_) fun hpubl => hformat fun hl => hpubl.format hl hsize
      obtain ⟨hl, hun⟩ := Classical.not_imp.1 hformat
      obtain ⟨p, q, hp, -⟩ := hplaces 0 hsize
      rw [readPlace, hd] at hp
      simp [blockPlace, hl, chunkPlace, hun] at hp

end Read

theorem rangePlace_singleton {n pos : ℕ} (hoff : off ≠ holeOffset) (hpos : pos < n) :
    rangePlace [⟨dev, off, n⟩] pos = some (.data dev (off + pos)) := by
  rw [rangePlace, if_pos (Nat.cast_lt.2 hpos), rangeAt, if_neg hoff]

/-- One range is delivered when one read of it gives all its bytes. -/
theorem delivered_singleton {c : ℕ → Bytes} {extra n : ℕ} {size₀ : Int} {buf : Bytes}
    (h : img.Opened extra size₀) (hs : img.Sound dev off n) (hg : img.Gives c dev off n buf) :
    img.Delivered c [⟨dev, off, n⟩] := by
  intro pos p hp
  have hlt := rangePlace_lt (by simp) hp
  simp only [totalSize, List.map_cons, List.map_nil, List.sum_cons, List.sum_nil, add_zero,
    Nat.cast_lt] at hlt
  rw [rangePlace_singleton hs.not_hole hlt] at hp
  cases hp
  obtain ⟨x, -, hx⟩ := hg.byte h hs hlt
  exact ⟨x, hx⟩

/-! ### A tail that crosses its block -/

/-- An image of five blocks whose root has one entry, the regular file `a` of 40 inline bytes. -/
def crossImage : Bytes :=
  zeros 1024
    -- the superblock: block size bits 9, five blocks, metadata at block 3
    ++ [0xe2, 0xe1, 0xf5, 0xe0] ++ zeros 8 ++ [9] ++ zeros 23 ++ [5, 0, 0, 0, 3] ++ zeros 471
    -- inode 0: compact, flat-inline, a directory of 40 bytes with "." and ".." and "a"
    ++ [4, 0, 0, 0, 0xed, 0x41, 2, 0, 40] ++ zeros 23
    ++ zeros 8 ++ [36, 0, 2, 0] ++ zeros 8 ++ [37, 0, 2, 0] ++ [14] ++ zeros 7 ++ [39, 0, 1, 0]
    ++ [46, 46, 46, 97] ++ zeros 376
    -- inode 14: compact, flat-inline, a regular file whose bytes are 480 bytes into block 3
    ++ [4, 0, 0, 0, 0xa4, 0x81, 1, 0, 40] ++ zeros 23 ++ List.replicate 40 65 ++ zeros 504

/-- What `Open` makes of it. -/
def crossFS : Image where
  sb := { blkSizeBits := 9, rootNid := 0, blocks := 5, metaBlkAddr := 3 }
  size := 2560

/-- The world that holds it. -/
def crossContents : ℕ → Bytes := fun _ => crossImage

/-- `Stat` publishes a range of 40 bytes, all of which the image delivers; `Read` refuses the
file. -/
theorem cross_refused :
    (openImage 0 fun _ => some 2560).run (holding crossContents) = .ok crossFS ∧
      (crossFS.open_ [97]).run (holding crossContents) =
        .ok (.file ⟨[97], 14, 0, 0, none, none⟩) ∧
      ((crossFS.statInfo [97] 14 0).run (holding crossContents)).map
        (fun r => (r.1.mode.isRegular, r.1.size, r.2.dataRange)) = .ok (true, 40, [⟨0, 2016, 40⟩]) ∧
      crossFS.Delivered crossContents [⟨0, 2016, 40⟩] ∧
      ((OpenFile.read crossFS ⟨[97], 14, 0, 0, none, none⟩ 40).run
        (holding crossContents)).err ≠ none := by
  have hopen : (openImage 0 fun _ => some 2560).run (holding crossContents) = .ok crossFS := by
    decide +kernel
  have hwhole : crossFS.Gives crossContents 0 2016 40 (List.replicate 40 65) := by
    unfold Gives
    decide +kernel
  have hsound : crossFS.Sound 0 2016 40 := ⟨by decide, by decide, by decide, by decide⟩
  exact ⟨hopen, by decide +kernel, by decide +kernel,
    delivered_singleton (openImage_opened hopen) hsound hwhole, by decide +kernel⟩

theorem split_stat :
    ∃ fi, ((splitFS 7).statInfo [97] 4 0).run (holding (splitReaders 7)) = .ok (splitInode, fi) ∧
      fi.dataRange = [⟨0, 2048, 513⟩] := by
  have hstat : (((splitFS 7).statInfo [97] 4 0).run (holding (splitReaders 7))).map
      (fun r => (r.1, r.2.dataRange)) = .ok (splitInode, [⟨0, 2048, 513⟩]) := by
    decide +kernel
  generalize ((splitFS 7).statInfo [97] 4 0).run (holding (splitReaders 7)) = res at hstat ⊢
  cases res with
  | error e => cases hstat
  | ok r =>
    obtain ⟨ino, fi⟩ := r
    obtain ⟨rfl, hranges⟩ := Prod.mk.inj (Except.ok.inj hstat)
    exact ⟨fi, rfl, hranges⟩

/-- With the device mapped past the file, the file of `splitFS` reads as it is published. -/
theorem split_published :
    ∃ fi, ((splitFS 7).statInfo [97] 4 0).run (holding (splitReaders 7)) = .ok (splitInode, fi) ∧
      ∀ c' : ℕ → Bytes, c' 0 = splitReaders 7 0 → (splitFS 7).Delivered c' fi.dataRange →
        let r := (OpenFile.read (splitFS 7) ⟨[97], 4, 0, 0, none, none⟩ splitInode.size).run
          (holding c')
        r.err = none ∧ r.data.length = splitInode.size ∧ ∀ pos < splitInode.size, ∃ x p,
          r.data[pos]? = some x ∧ rangePlace fi.dataRange pos = some p ∧
            p.Gives (splitFS 7) c' 1 [x] := by
  have hopen : (openImage 1 splitSizes).run (holding (splitReaders 7)) = .ok (splitFS 7) := by
    decide +kernel
  have hwhole : (splitFS 7).Gives (splitReaders 7) 0 2048 513 (List.replicate 513 nulByte) := by
    unfold Gives
    decide +kernel
  have hsound : (splitFS 7).Sound 0 2048 513 := ⟨by decide, by decide, by decide, by decide⟩
  obtain ⟨fi, hstat, hranges⟩ := split_stat
  have hopened := openImage_opened hopen
  have hdel : (splitFS 7).Delivered (splitReaders 7) fi.dataRange :=
    hranges ▸ delivered_singleton hopened hsound hwhole
  have hplain : splitInode.inodeLayout = .flatPlain := rfl
  refine ⟨fi, hstat, (ranges_read_iff hopened hstat (by decide) hdel).2 ⟨?_, ?_, ?_, ?_⟩⟩
  · exact fun q _ _ htail => absurd htail.1 (by decide)
  · exact fun hl => absurd hl (by decide)
  · exact fun _ pos _ => .inr (by rw [extentStart, hplain])
  · exact fun hnot => absurd rfl hnot

end Image

end Erofs
