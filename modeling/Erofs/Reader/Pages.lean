import Erofs.Reader.DirBlock
import Erofs.Reader.Session

/-!
# Paged listing

`ReadDir(n)` lists a directory a page at a time, from a cursor that is a block and a number of
dirents of it.  What a directory has to list is the entries of its blocks in order, up to the first
block that is malformed or cannot be read; `remaining` is what of them is still to come from a
cursor.

The main results:

* `listBlocks_turn` — what one call hands out, and what it leaves, are what was left before it;
* `pagesListed_iff` — every sequence of calls hands out every entry once, exactly when no
  block that cannot be read comes after an entry or answers with an end of file: such a call
  returns no entries with its error, although the cursor has moved past them.  This is so up to a
  block short of `2^63` bytes; in a larger directory the position after the last block wraps, and
  the listing goes on before the file.
-/

namespace Erofs

open GoPath Oracle DirBlock

/-- The number of entries `ReadDir(n)` is asked for, none for all. -/
def pageSize (n : ℤ) : Option ℕ := if 0 < n then some n.toNat else none

/-- A sequence of `ReadDir` calls: the directory after them and the entries of all of them. -/
def OpenDir.pages (img : Image) (o : Req → Answer) : List ℤ → OpenDir → OpenDir × List DirEntry
  | [], d => (d, [])
  | n :: ns, d =>
    let r := (d.readDir img (pageSize n)).run o
    let p := pages img o ns r.1
    (p.1, r.2.1 ++ p.2)

namespace Image

section Entries

variable (img : Image) (o : Req → Answer) (fi : Inode)

/-- Block `b` of a directory. -/
def dirBlock (b : ℕ) : Except GoError Bytes := (img.loadBlock fi (b * img.blockSize)).run o

/-- The number of blocks. -/
def dirBlocks : ℕ := calculateBlocks img.sb.blkSizeBits fi.size

/-- Block `b` can be read and is well formed. -/
def SoundAt (b : ℕ) : Prop := ∃ buf, img.dirBlock o fi b = .ok buf ∧ DirBlock.Sound buf

/-- The entries from block `b` on, `k` blocks left. -/
def entriesFrom : ℕ → ℕ → List DirEntry
  | 0, _ => []
  | k + 1, b => (img.dirBlock o fi b).toOption.elim [] fun buf =>
      decoded buf ++ if DirBlock.Sound buf then entriesFrom k (b + 1) else []

/-- The entries of the directory's blocks in order, up to the first block that is malformed or
cannot be read. -/
def dirEntries : List DirEntry := img.entriesFrom o fi (img.dirBlocks fi) 0

/-- The entries of the block at the cursor that have been handed out. -/
def handedOut (d : OpenDir) : ℕ :=
  (img.dirBlock o fi d.bn).toOption.elim 0 fun buf => (below buf d.consumed).length

/-- The entries still to come. -/
def remaining (d : OpenDir) : List DirEntry :=
  (img.entriesFrom o fi (img.dirBlocks fi - d.bn) d.bn).drop (img.handedOut o fi d)

/-- The cursor stands after sound blocks, and before the first malformed dirent of its block. -/
structure CursorOk (d : OpenDir) : Prop where
  before : ∀ b < d.bn, img.SoundAt o fi b
  inside : ∀ buf, img.dirBlock o fi d.bn = .ok buf → d.consumed ≤ good buf

/-- What `fs.ReadDirFile` asks of every sequence of `ReadDir` calls `ns` and one more, `n`. -/
structure PagesListed (d : OpenDir) : Prop where
  inOrder : ∀ ns, (OpenDir.pages img o ns d).2 <+: img.dirEntries o fi
  page : ∀ ns n, 0 < n →
    (((OpenDir.pages img o ns d).1.readDir img (pageSize n)).run o).2.1.length ≤ n.toNat
  noneLost : ∀ ns n, n ≤ 0 ∨
      (((OpenDir.pages img o ns d).1.readDir img (pageSize n)).run o).2.2.isSome →
    (OpenDir.pages img o (ns ++ [n]) d).2 = img.dirEntries o fi
  eofAtEnd : ∀ ns n, 0 < n →
    (((OpenDir.pages img o ns d).1.readDir img (pageSize n)).run o).2.2 = some eofError →
    ∀ b < img.dirBlocks fi, img.SoundAt o fi b
  slab : ∀ n nid buf d ents, (∀ m, n = some m → ents.length < m) →
    (OpenDir.listBlock n nid buf d ents).ents.length ≤
      ents.length + slabSize n (DirBlock.count buf) d.consumed

/-- A block that cannot be read, with only sound ones before it, does not answer with an end of
file and comes before every entry. -/
def UnreadableFirst : Prop :=
  ∀ b < img.dirBlocks fi, (∀ j < b, img.SoundAt o fi j) → ∀ e, img.dirBlock o fi b = .error e →
    e.is .eof = false ∧ ∀ j < b, ∀ buf, img.dirBlock o fi j = .ok buf → decoded buf = []

end Entries

variable {img : Image} {o : Req → Answer} {fi : Inode} {d : OpenDir} {n : Option ℕ}
  {ents : List DirEntry} {buf : Bytes} {fuel b : ℕ}

/-! ## What is left -/

theorem drop_of_append {α : Type} {a new l : List α} (h : a ++ new <+: l) :
    l.drop a.length = new ++ l.drop (a ++ new).length := by
  obtain ⟨t, rfl⟩ := h
  rw [List.drop_left, List.append_assoc, List.drop_left]

theorem lt_dirBlocks_iff : b < img.dirBlocks fi ↔ b * img.blockSize < fi.size :=
  lt_calculateBlocks_iff

theorem entriesFrom_ok {k : ℕ} (hb : img.dirBlock o fi b = .ok buf) :
    img.entriesFrom o fi (k + 1) b =
      decoded buf ++ if DirBlock.Sound buf then img.entriesFrom o fi k (b + 1) else [] := by
  rw [entriesFrom, hb]
  rfl

theorem entriesFrom_error {k : ℕ} {e : GoError} (hb : img.dirBlock o fi b = .error e) :
    img.entriesFrom o fi k b = [] := by
  cases k with
  | zero => rfl
  | succ k =>
    rw [entriesFrom, hb]
    rfl

theorem remaining_start (h : d.consumed = 0) :
    img.remaining o fi d = img.entriesFrom o fi (img.dirBlocks fi - d.bn) d.bn := by
  have h0 : img.handedOut o fi d = 0 := by
    unfold handedOut
    rw [h]
    cases img.dirBlock o fi d.bn <;> rfl
  rw [remaining, h0, List.drop_zero]

theorem remaining_end (h : img.dirBlocks fi ≤ d.bn) : img.remaining o fi d = [] := by
  rw [remaining, Nat.sub_eq_zero_of_le h]
  exact List.drop_nil

theorem remaining_error {e : GoError} (hb : img.dirBlock o fi d.bn = .error e) :
    img.remaining o fi d = [] := by
  rw [remaining, entriesFrom_error hb, List.drop_nil]

theorem remaining_ok (hlt : d.bn < img.dirBlocks fi) (hb : img.dirBlock o fi d.bn = .ok buf) :
    img.remaining o fi d = (decoded buf ++ if DirBlock.Sound buf then
      img.entriesFrom o fi (img.dirBlocks fi - (d.bn + 1)) (d.bn + 1) else []).drop
        (below buf d.consumed).length := by
  obtain ⟨k, hk⟩ : ∃ k, img.dirBlocks fi - d.bn = k + 1 :=
    ⟨img.dirBlocks fi - d.bn - 1, by omega⟩
  have hk' : img.dirBlocks fi - (d.bn + 1) = k := by omega
  rw [remaining, hk, entriesFrom_ok hb, hk', handedOut, hb]
  rfl

/-- What a walk over a block hands out comes off what is left. -/
theorem remaining_accounts {l : Listing} {new : List DirEntry} {r : ℕ}
    (hlt : d.bn < img.dirBlocks fi) (hb : img.dirBlock o fi d.bn = .ok buf)
    (hacc : Accounts n buf d ents l new r) :
    img.remaining o fi d = new ++ (decoded buf ++ if DirBlock.Sound buf then
      img.entriesFrom o fi (img.dirBlocks fi - (d.bn + 1)) (d.bn + 1) else []).drop
        (below buf r).length := by
  rw [remaining_ok hlt hb, ← hacc.below_eq]
  apply drop_of_append
  rw [hacc.below_eq]
  exact (below_append hacc.le_good).trans (List.prefix_append _ _)

/-- At the end of a block what is left are the entries of the blocks after it. -/
theorem remaining_whole {l : Listing} {new : List DirEntry} {r : ℕ}
    (hlt : d.bn < img.dirBlocks fi) (hb : img.dirBlock o fi d.bn = .ok buf)
    (hacc : Accounts n buf d ents l new r) (hh : Head buf) (hr : r = DirBlock.count buf) :
    DirBlock.Sound buf ∧ img.remaining o fi d = new ++
      img.entriesFrom o fi (img.dirBlocks fi - (d.bn + 1)) (d.bn + 1) := by
  have hg : good buf = DirBlock.count buf := le_antisymm good_le (hr ▸ hacc.le_good)
  have hs : DirBlock.Sound buf := sound_iff.2 ⟨hh, hg⟩
  rw [remaining_accounts hlt hb hacc, if_pos hs, hr, ← hg]
  exact ⟨hs, by rw [decoded, List.drop_left]⟩

theorem remaining_failed {l : Listing} {new : List DirEntry} {r : ℕ} {e : GoError}
    (hlt : d.bn < img.dirBlocks fi) (hb : img.dirBlock o fi d.bn = .ok buf)
    (hacc : Accounts n buf d ents l new r) (hf : l.ended = .failed e) :
    img.remaining o fi d = new ∧ img.remaining o fi l.dir = [] := by
  obtain ⟨hs, hr, hbn, -, hbelow⟩ := hacc.failed e hf
  rw [remaining_accounts hlt hb hacc, remaining_ok (hbn ▸ hlt) (hbn ▸ hb), if_neg hs,
    List.append_nil, hbelow, hr]
  simp [decoded, hs]

/-! ## One call -/

/-- What one call does: the entries it hands out and those still to come are those that were
still to come before it. -/
structure Turn (img : Image) (o : Req → Answer) (fi : Inode) (n : Option ℕ) (d : OpenDir)
    (ents : List DirEntry) (r : OpenDir × List DirEntry × Option GoError) : Prop where
  out : ∃ new, r.2.1 = ents ++ new ∧ img.remaining o fi d = new ++ img.remaining o fi r.1
  cursor : img.CursorOk o fi r.1
  page : ∀ m, n = some m → r.2.1.length ≤ m
  done : n = none ∨ r.2.2.isSome → img.remaining o fi r.1 = []
  eof : r.2.2 = some eofError → img.dirBlocks fi ≤ r.1.bn
  clean : n = none → r.2.2 = none → img.dirBlocks fi ≤ r.1.bn
  fault : n = none → r.2.2.isSome → ∃ b < img.dirBlocks fi, ¬ img.SoundAt o fi b

/-- A cursor after sound blocks is not past the end. -/
theorem CursorOk.le (h : img.CursorOk o fi d) : d.bn ≤ img.dirBlocks fi := by
  by_contra hlt
  obtain ⟨buf, hbuf, -⟩ := h.before (img.dirBlocks fi) (not_le.1 hlt)
  have hend : calculateBlocks img.sb.blkSizeBits fi.size ≤
      img.dirBlocks fi * img.blockSize / img.blockSize := by
    rw [Nat.mul_div_cancel _ img.blockSize_pos]
    exact le_rfl
  rw [dirBlock, loadBlock, if_pos hend] at hbuf
  cases hbuf

theorem CursorOk.next (h : img.CursorOk o fi d) (hs : img.SoundAt o fi d.bn) :
    img.CursorOk o fi { d with bn := d.bn + 1, consumed := 0 } := by
  refine ⟨fun b hb => ?_, fun _ _ => Nat.zero_le _⟩
  rcases Nat.lt_succ_iff_lt_or_eq.1 hb with hb | rfl
  · exact h.before b hb
  · exact hs

theorem turn_end (hcur : img.CursorOk o fi d) (hend : img.dirBlocks fi ≤ d.bn)
    (hn : ∀ m, n = some m → ents.length < m) :
    Turn img o fi n d ents (d, ents, OpenDir.endError n) :=
  ⟨⟨[], by simp⟩, hcur, fun m hm => (hn m hm).le, fun _ => remaining_end hend, fun _ => hend,
    fun _ _ => hend, fun hn hsome => by cases hn; cases hsome⟩

section Block

variable {l : Listing} {new : List DirEntry} {r : ℕ} (hcur : img.CursorOk o fi d)
  (hlt : d.bn < img.dirBlocks fi) (hb : img.dirBlock o fi d.bn = .ok buf)
  (hacc : Accounts n buf d ents l new r)

include hcur hlt hb hacc

theorem turn_failed {e : GoError} (hended : l.ended = .failed e) (heof : e.is .eof = false) :
    Turn img o fi n d ents (l.dir, l.ents, some e) := by
  obtain ⟨hrem, hrem'⟩ := remaining_failed hlt hb hacc hended
  obtain ⟨hs, -, hbn, hcons, -⟩ := hacc.failed e hended
  refine ⟨⟨new, hacc.ents_eq, by rw [hrem, hrem', List.append_nil]⟩,
    ⟨hbn.symm ▸ hcur.before, fun buf' hb' => ?_⟩, hacc.page, fun _ => hrem', ?_, nofun,
    fun _ _ => ⟨d.bn, hlt, ?_⟩⟩
  · cases (hbn ▸ hb).symm.trans hb'
    exact hcons
  · rintro ⟨⟩
    cases heof
  · rintro ⟨buf', hb', hs'⟩
    cases hb.symm.trans hb'
    exact hs hs'

theorem turn_full (hended : l.ended = .full) : Turn img o fi n d ents (l.dir, l.ents, none) := by
  obtain ⟨hpage, hh, hdir⟩ := hacc.full hended
  have hne : n ≠ none := by simp [hpage]
  have hdone : ¬ (n = none ∨ (none : Option GoError).isSome) := by simp [hpage]
  rcases hdir with ⟨hbn, hcons⟩ | ⟨hbn, hcons, hr⟩
  · refine ⟨⟨new, hacc.ents_eq, ?_⟩, ⟨hbn.symm ▸ hcur.before, fun buf' hb' => ?_⟩, hacc.page,
      fun h => absurd h hdone, nofun, fun h => absurd h hne, nofun⟩
    · rw [remaining_accounts hlt hb hacc, remaining_ok (hbn ▸ hlt) (hbn ▸ hb), hcons, hbn]
    · cases (hbn ▸ hb).symm.trans hb'
      exact hcons ▸ hacc.le_good
  · obtain ⟨hs, hrem⟩ := remaining_whole hlt hb hacc hh hr
    refine ⟨⟨new, hacc.ents_eq, ?_⟩, ⟨fun j hj => ?_, fun _ _ => hcons ▸ Nat.zero_le _⟩,
      hacc.page, fun h => absurd h hdone, nofun, fun h => absurd h hne, nofun⟩
    · rw [hrem, remaining_start hcons, hbn]
    · exact (hcur.next ⟨buf, hb, hs⟩).before j (hbn ▸ hj)

/-- The cursor at the end of a block goes on to the next. -/
theorem cursorOk_whole (hended : l.ended = .whole) :
    img.CursorOk o fi { l.dir with bn := l.dir.bn + 1, consumed := 0 } := by
  obtain ⟨hh, hr, hbn, -⟩ := hacc.whole hended
  obtain ⟨hs, -⟩ := remaining_whole hlt hb hacc hh hr
  refine ⟨fun j hj => (hcur.next ⟨buf, hb, hs⟩).before j ?_, fun _ _ => Nat.zero_le _⟩
  exact hbn ▸ hj

omit hcur in
theorem turn_whole {res : OpenDir × List DirEntry × Option GoError} (hended : l.ended = .whole)
    (hturn : Turn img o fi n { l.dir with bn := l.dir.bn + 1, consumed := 0 } l.ents res) :
    Turn img o fi n d ents res := by
  obtain ⟨hh, hr, hbn, -⟩ := hacc.whole hended
  obtain ⟨-, hrem⟩ := remaining_whole hlt hb hacc hh hr
  obtain ⟨more, hmore, hrest⟩ := hturn.out
  refine ⟨⟨new ++ more, ?_, ?_⟩, hturn.cursor, hturn.page, hturn.done, hturn.eof, hturn.clean,
    hturn.fault⟩
  · rw [hmore, hacc.ents_eq, List.append_assoc]
  · rw [remaining_start rfl] at hrest
    rw [hrem, List.append_assoc, ← hrest, ← hbn]

end Block

/-- A block with nothing to list hands nothing out. -/
theorem accounts_nil {l : Listing} {new : List DirEntry} {r : ℕ}
    (hacc : Accounts n buf d ents l new r) (h : decoded buf = []) : new = [] := by
  have hle : (below buf r).length ≤ (below buf (good buf)).length :=
    (below_append hacc.le_good).length_le
  rw [← hacc.below_eq, List.length_append] at hle
  have h0 : (below buf (good buf)).length = 0 := congrArg List.length h
  exact List.length_eq_zero_iff.1 (by omega)

/-- **One call.**  Where no unreadable block comes after an entry, a call hands out the next
entries, as many as were asked for, up to the end or the first faulty block. -/
theorem listBlocks_turn (hsize : fi.size + img.blockSize ≤ 2 ^ 63)
    (hQ : img.UnreadableFirst o fi) (hcur : img.CursorOk o fi d)
    (hfuel : img.dirBlocks fi ≤ d.bn + fuel) (hn : ∀ m, n = some m → ents.length < m)
    (hents : (∀ j < d.bn, ∀ buf, img.dirBlock o fi j = .ok buf → decoded buf = []) → ents = []) :
    Turn img o fi n d ents ((OpenDir.listBlocks img n fi fuel d ents).run o) := by
  induction fuel generalizing d ents with
  | zero => exact turn_end hcur hfuel hn
  | succ fuel ih =>
    by_cases hend : fi.size ≤ d.bn * img.blockSize
    · rw [OpenDir.listBlocks_past hsize hcur.le hend]
      exact turn_end hcur (not_lt.1 fun hlt => not_lt.2 hend (lt_dirBlocks_iff.1 hlt)) hn
    have hlt := lt_dirBlocks_iff.2 (not_le.1 hend)
    have hbs := img.blockSize_pos
    rw [OpenDir.listBlocks_inside (by omega) (not_le.1 hend), Prog.run_bind]
    cases hb : (img.loadBlock fi (d.bn * img.blockSize)).run o with
    | error e =>
      -- the entries gathered so far are dropped, and there are none
      obtain ⟨heof, hempty⟩ := hQ d.bn hlt hcur.before e hb
      obtain rfl := hents hempty
      rw [OpenDir.listLoaded, if_neg (by rw [heof]; decide)]
      refine ⟨⟨[], rfl, rfl⟩, hcur, fun m _ => Nat.zero_le m, fun _ => remaining_error hb, ?_, ?_,
        fun _ _ => ⟨d.bn, hlt, ?_⟩⟩
      · rintro ⟨⟩
        cases heof
      · rintro - ⟨⟩
      · rintro ⟨buf, hok, -⟩
        cases hb.symm.trans hok
    | ok buf =>
      obtain ⟨new, r, hacc⟩ := @listBlock_accounts buf n fi.nid d ents (hcur.inside buf hb) hn
      unfold OpenDir.listLoaded
      dsimp only
      cases hended : (OpenDir.listBlock n fi.nid buf d ents).ended with
      | failed e => exact turn_failed hcur hlt hb hacc hended (listBlock_notEof hended)
      | full => exact turn_full hcur hlt hb hacc hended
      | whole =>
        obtain ⟨-, -, hbn, hpage⟩ := hacc.whole hended
        refine turn_whole hlt hb hacc hended (ih (cursorOk_whole hcur hlt hb hacc hended) ?_ hpage
          fun hall => ?_)
        · show img.dirBlocks fi ≤ _ + 1 + fuel
          omega
        · have hall' : ∀ j ≤ d.bn, ∀ buf, img.dirBlock o fi j = .ok buf → decoded buf = [] :=
            fun j hj => hall j (hbn ▸ Nat.lt_succ_of_le hj)
          rw [hacc.ents_eq, hents fun j hj => hall' j hj.le,
            accounts_nil hacc (hall' d.bn le_rfl buf hb)]
          rfl

/-! ## Sequences of calls -/

/-- The directory's inode is `fi`, read already or on the next call. -/
def Known (img : Image) (o : Req → Answer) (fi : Inode) (d : OpenDir) : Prop :=
  ∃ f, (d.file.readInfo img).run o = .ok (f, fi) ∧ f.info = some fi

theorem readInfo_known {f : OpenFile} (h : f.info = some fi) :
    (f.readInfo img).run o = .ok (f, fi) := by
  simp only [OpenFile.readInfo, h, Prog.run_done]

theorem Known.readDir (h : img.Known o fi d) : img.Known o fi ((d.readDir img n).run o).1 := by
  obtain ⟨f, hf, hinfo⟩ := h
  have hfile : ((d.readDir img n).run o).1.file = f := by
    rw [OpenDir.readDir_run hf]
    exact listBlocks_file
  exact ⟨f, by rw [hfile, readInfo_known hinfo], hinfo⟩

theorem pageSize_pos {k : ℤ} (m : ℕ) (h : pageSize k = some m) : 0 < m := by
  unfold pageSize at h
  split_ifs at h
  cases h
  omega

section Calls

variable (hsize : fi.size + img.blockSize ≤ 2 ^ 63)

include hsize

/-- One call of a sequence. -/
theorem readDir_turn (hQ : img.UnreadableFirst o fi) (hk : img.Known o fi d)
    (hcur : img.CursorOk o fi d) (k : ℤ) :
    Turn img o fi (pageSize k) d [] ((d.readDir img (pageSize k)).run o) := by
  obtain ⟨f, hf, -⟩ := hk
  rw [OpenDir.readDir_run hf]
  have hblocks : img.dirBlocks fi ≤ OpenDir.turns img fi := OpenDir.calculateBlocks_le_turns
  have hturn := @listBlocks_turn img o fi { d with file := f } (pageSize k) []
      (OpenDir.turns img fi)
    hsize hQ ⟨hcur.before, hcur.inside⟩ (hblocks.trans (Nat.le_add_left _ _)) pageSize_pos
    fun _ => rfl
  exact ⟨hturn.out, hturn.cursor, hturn.page, hturn.done, hturn.eof, hturn.clean, hturn.fault⟩

/-- A sequence of calls hands out what was to come, in order. -/
theorem pages_turns (hQ : img.UnreadableFirst o fi) (hk : img.Known o fi d)
    (hcur : img.CursorOk o fi d) (ns : List ℤ) :
    img.Known o fi (OpenDir.pages img o ns d).1 ∧ img.CursorOk o fi (OpenDir.pages img o ns d).1 ∧
      img.remaining o fi d =
        (OpenDir.pages img o ns d).2 ++ img.remaining o fi (OpenDir.pages img o ns d).1 := by
  induction ns generalizing d with
  | nil => exact ⟨hk, hcur, rfl⟩
  | cons k ns ih =>
    have hturn := readDir_turn hsize hQ hk hcur k
    obtain ⟨new, hnew, hrem⟩ := hturn.out
    obtain ⟨hk', hcur', hrest⟩ := ih hk.readDir hturn.cursor
    refine ⟨hk', hcur', ?_⟩
    rw [hrem, hrest, OpenDir.pages, ← List.append_assoc, hnew]
    rfl

omit hsize in
theorem pages_append (ns : List ℤ) (k : ℤ) :
    (OpenDir.pages img o (ns ++ [k]) d).2 = (OpenDir.pages img o ns d).2 ++
      (((OpenDir.pages img o ns d).1.readDir img (pageSize k)).run o).2.1 := by
  induction ns generalizing d with
  | nil => exact (List.append_nil _).trans (List.nil_append _).symm
  | cons m ns ih =>
    rw [List.cons_append, OpenDir.pages, ih, OpenDir.pages, List.append_assoc]

theorem pagesListed_of (hQ : img.UnreadableFirst o fi) (hk : img.Known o fi d) (hbn : d.bn = 0)
    (hcons : d.consumed = 0) : img.PagesListed o fi d := by
  have hcur : img.CursorOk o fi d :=
    ⟨fun b hb => absurd hb (by omega), fun _ _ => hcons ▸ Nat.zero_le _⟩
  have hall : img.remaining o fi d = img.dirEntries o fi := by
    rw [remaining_start hcons, hbn, Nat.sub_zero, dirEntries]
  refine ⟨fun ns => ?_, fun ns k hk0 => ?_, fun ns k hend => ?_, fun ns k hk0 heof b hb => ?_,
    fun _ _ _ _ _ hn => length_listBlock_le hn⟩ <;>
    obtain ⟨hk', hcur', hrem⟩ := pages_turns hsize hQ hk hcur ns
  · exact ⟨_, hall ▸ hrem.symm⟩
  · exact (readDir_turn hsize hQ hk' hcur' k).page _ (if_pos hk0)
  · have hturn := readDir_turn hsize hQ hk' hcur' k
    obtain ⟨new, hnew, hrest⟩ := hturn.out
    have hdone := hturn.done (hend.imp (fun h => if_neg (not_lt.2 h)) id)
    rw [hdone, List.append_nil] at hrest
    rw [pages_append, ← hall, hrem, hrest, hnew]
    rfl
  · have hturn := readDir_turn hsize hQ hk' hcur' k
    exact hturn.cursor.before b (lt_of_lt_of_le hb (hturn.eof heof))

/-- Where every block can be read, `ReadDir(-1)` lists all there is to list, and returns an error
exactly when a block is malformed. -/
theorem readDir_all (hload : ∀ b < img.dirBlocks fi, ∃ buf, img.dirBlock o fi b = .ok buf)
    (hk : img.Known o fi d) (hbn : d.bn = 0) (hcons : d.consumed = 0) :
    let r := (d.readDir img none).run o
    r.2.1 = img.dirEntries o fi ∧ (r.2.2 = none ↔ ∀ b < img.dirBlocks fi, img.SoundAt o fi b) := by
  have hQ : img.UnreadableFirst o fi := fun b hb _ e he => by
    obtain ⟨buf, hok⟩ := hload b hb
    cases he.symm.trans hok
  have hcur : img.CursorOk o fi d :=
    ⟨fun b hb => absurd hb (by omega), fun _ _ => hcons ▸ Nat.zero_le _⟩
  have hturn := readDir_turn hsize hQ hk hcur (-1)
  have hnone : pageSize (-1) = none := rfl
  rw [hnone] at hturn
  obtain ⟨new, hnew, hrem⟩ := hturn.out
  rw [hturn.done (.inl rfl), List.append_nil, remaining_start hcons, hbn, Nat.sub_zero] at hrem
  refine ⟨hnew.trans hrem.symm, fun h b hb => ?_, fun h => ?_⟩
  · exact hturn.cursor.before b (lt_of_lt_of_le hb (hturn.clean rfl h))
  · by_contra hne
    obtain ⟨b, hb, hs⟩ := hturn.fault rfl (Option.isSome_iff_ne_none.2 hne)
    exact hs (h b hb)

end Calls

/-! ## Calls that lose entries -/

/-- A call whose page does not fill up goes through the sound blocks. -/
theorem listBlocks_reach (hsize : fi.size < 2 ^ 63) (hb : b ≤ img.dirBlocks fi)
    (hs : ∀ j < b, img.SoundAt o fi j) (hle : d.bn ≤ b) (hcons : d.consumed = 0)
    (hfuel : b ≤ d.bn + fuel)
    (hn : ∀ m, n = some m →
      ents.length + (img.entriesFrom o fi (img.dirBlocks fi - d.bn) d.bn).length < m) :
    ∃ d' ents', d'.bn = b ∧ (OpenDir.listBlocks img n fi fuel d ents).run o =
      (OpenDir.listBlocks img n fi (d.bn + fuel - b) d' ents').run o := by
  induction fuel generalizing d ents with
  | zero =>
    refine ⟨d, ents, by omega, ?_⟩
    rw [show d.bn + 0 - b = 0 by omega]
  | succ fuel ih =>
    rcases hle.eq_or_lt with heq | hlt
    · exact ⟨d, ents, heq, by rw [heq, Nat.add_sub_cancel_left]⟩
    obtain ⟨buf, hload, hsound⟩ := hs d.bn hlt
    have hlt' : d.bn < img.dirBlocks fi := lt_of_lt_of_le hlt hb
    obtain ⟨new, r, hacc⟩ := @listBlock_accounts buf n fi.nid d ents (hcons ▸ Nat.zero_le _)
      fun m hm => lt_of_le_of_lt (Nat.le_add_right _ _) (hn m hm)
    have hload' : (img.loadBlock fi (d.bn * img.blockSize)).run o = .ok buf := hload
    rw [OpenDir.listBlocks_inside hsize (lt_dirBlocks_iff.1 hlt'), Prog.run_bind, hload']
    unfold OpenDir.listLoaded
    dsimp only
    cases hended : (OpenDir.listBlock n fi.nid buf d ents).ended with
    | failed e => exact absurd hsound (hacc.failed e hended).1
    | full =>
      -- the page is larger than all that is left
      have hlen := congrArg List.length (remaining_accounts hlt' hload hacc)
      rw [remaining_start hcons, List.length_append] at hlen
      have hm := hn _ (hacc.full hended).1
      rw [hacc.ents_eq, List.length_append] at hm
      omega
    | whole =>
      obtain ⟨hh, hr, hbn, -⟩ := hacc.whole hended
      obtain ⟨-, hrem⟩ := remaining_whole hlt' hload hacc hh hr
      rw [remaining_start hcons] at hrem
      have hstep : ∀ m, n = some m → (OpenDir.listBlock n fi.nid buf d ents).ents.length +
          (img.entriesFrom o fi (img.dirBlocks fi - (d.bn + 1)) (d.bn + 1)).length < m := by
        intro m hm
        have hlt := hn m hm
        rw [hrem, List.length_append] at hlt
        rw [hacc.ents_eq, List.length_append]
        omega
      generalize OpenDir.listBlock n fi.nid buf d ents = l at hbn hstep ⊢
      obtain ⟨d', ents', hd', hrun⟩ := @ih { l.dir with bn := l.dir.bn + 1, consumed := 0 } l.ents
        (hbn ▸ hlt) rfl (show b ≤ l.dir.bn + 1 + fuel by omega) (hbn ▸ hstep)
      refine ⟨d', ents', hd', hrun.trans ?_⟩
      rw [show d.bn + (fuel + 1) = l.dir.bn + 1 + fuel by omega]

/-- What a call does that comes to a block it cannot read: the entries it has are dropped, unless
the error is taken for the end of the directory. -/
theorem readDir_unreadable {e : GoError} (hsize : fi.size < 2 ^ 63) (hk : img.Known o fi d)
    (hbn : d.bn = 0) (hcons : d.consumed = 0) (hlt : b < img.dirBlocks fi)
    (hs : ∀ j < b, img.SoundAt o fi j)
    (he : img.dirBlock o fi b = .error e)
    (hn : ∀ m, n = some m → (img.dirEntries o fi).length < m) :
    let r := (d.readDir img n).run o
    if e.is .eof then r.2.2 = OpenDir.endError n else r.2.1 = [] ∧ r.2.2 = some e := by
  obtain ⟨f, hf, -⟩ := hk
  have hn' : ∀ m, n = some m → ([] : List DirEntry).length +
      (img.entriesFrom o fi (img.dirBlocks fi - d.bn) d.bn).length < m := by
    intro m hm
    rw [hbn]
    simpa [dirEntries] using hn m hm
  have hblocks : img.dirBlocks fi ≤ OpenDir.turns img fi := OpenDir.calculateBlocks_le_turns
  obtain ⟨d', ents', hd', hrun⟩ := @listBlocks_reach img o fi { d with file := f } n []
    (OpenDir.turns img fi) b hsize hlt.le hs (hbn ▸ Nat.zero_le _) hcons (by omega) hn'
  obtain ⟨k, hk⟩ : ∃ k, d.bn + OpenDir.turns img fi - b = k + 1 :=
    ⟨d.bn + OpenDir.turns img fi - b - 1, by omega⟩
  have he' : (img.loadBlock fi (d'.bn * img.blockSize)).run o = .error e := hd' ▸ he
  rw [OpenDir.readDir_run hf, hrun]
  dsimp only
  rw [hk, OpenDir.listBlocks_inside hsize (hd' ▸ lt_dirBlocks_iff.1 hlt), Prog.run_bind, he',
    OpenDir.listLoaded]
  split_ifs <;> simp

/-- Nothing to list means nothing in any block up to the first faulty one. -/
theorem decoded_of_entriesFrom_nil {k j : ℕ} (h : img.entriesFrom o fi k b = []) (hbj : b ≤ j)
    (hj : j < b + k) (hs : ∀ i, b ≤ i → i < j → img.SoundAt o fi i)
    (hload : img.dirBlock o fi j = .ok buf) : decoded buf = [] := by
  induction k generalizing b with
  | zero => omega
  | succ k ih =>
    rcases hbj.eq_or_lt with rfl | hlt
    · rw [entriesFrom_ok hload] at h
      exact (List.append_eq_nil_iff.1 h).1
    · obtain ⟨buf', hload', hsound⟩ := hs b le_rfl hlt
      rw [entriesFrom_ok hload', if_pos hsound] at h
      exact ih (List.append_eq_nil_iff.1 h).2 hlt (by omega) fun i hi => hs i (by omega)

theorem unreadableFirst_of (hsize : fi.size < 2 ^ 63) (hk : img.Known o fi d) (hbn : d.bn = 0)
    (hcons : d.consumed = 0) (h : img.PagesListed o fi d) : img.UnreadableFirst o fi := by
  intro b hb hs e he
  have heof : e.is .eof = false := by
    -- a page larger than the directory ends with `io.EOF` at the block that cannot be read
    by_contra hne
    have hr := @readDir_unreadable img o fi d (some ((img.dirEntries o fi).length + 1)) b e hsize hk
      hbn hcons hb hs he (fun m hm => by cases hm; omega)
    dsimp only at hr
    rw [if_pos (by simpa using hne)] at hr
    have hpage : pageSize ((img.dirEntries o fi).length + 1 : ℕ) =
        some ((img.dirEntries o fi).length + 1) := by
      rw [pageSize, if_pos (by omega), Int.toNat_natCast]
    have hall := h.eofAtEnd [] ((img.dirEntries o fi).length + 1 : ℕ) (by omega)
      (by rw [hpage]; exact hr) b hb
    obtain ⟨buf, hok, -⟩ := hall
    cases he.symm.trans hok
  refine ⟨heof, fun j hj buf hload => ?_⟩
  -- `ReadDir(-1)` returns nothing with the error
  have hr := @readDir_unreadable img o fi d none b e hsize hk hbn hcons hb hs he nofun
  dsimp only at hr
  rw [if_neg (by rw [heof]; decide)] at hr
  have hpage : pageSize (-1) = none := rfl
  have hlost := h.noneLost [] (-1) (.inl (by omega))
  rw [pages_append, hpage] at hlost
  have hnil : img.dirEntries o fi = [] := by
    rw [← hlost]
    exact hr.1
  exact decoded_of_entriesFrom_nil hnil (Nat.zero_le j) (by omega) (fun i _ hi => hs i (by omega))
    hload

/-! ## A directory whose position wraps -/

theorem not_sound_zeros (k : ℕ) : ¬ DirBlock.Sound (List.replicate k nulByte) := by
  intro h
  have hzero : ∀ m, LittleEndian.leNat (List.replicate m nulByte) = 0 := by
    intro m
    induction m with
    | zero => rfl
    | succ m ih =>
      rw [List.replicate_succ, LittleEndian.leNat, ih]
      rfl
  have hoff : DirBlock.off (List.replicate k nulByte) 0 = 0 := by
    show LittleEndian.field (List.replicate k nulByte) 8 2 = 0
    rw [LittleEndian.field, List.drop_replicate, List.take_replicate, hzero]
  have hcount := h.head.count_pos
  rw [DirBlock.count, hoff] at hcount
  omega

/-- The address of a flat file's first data block, where its first block can be read. -/
theorem startBlock_of_sound (hmany : 1 < img.dirBlocks fi) (hlay : fi.inodeLayout ≠ .chunkBased)
    (hs : img.SoundAt o fi 0) :
    (fi.inodeLayout = .flatPlain ∧ fi.nullAddress = false ∨ fi.inodeLayout = .flatInline) ∧
      fi.startBlock * img.blockSize < 2 ^ 63 := by
  obtain ⟨buf, hload, hsound⟩ := hs
  have haddr : ∀ {blockOffset blockEnd : Int},
      (img.loadFlat fi 0 blockOffset blockEnd).run o = .ok buf →
      fi.startBlock * img.blockSize < 2 ^ 63 := by
    intro blockOffset blockEnd h
    have hbs := img.blockSize_pos
    unfold loadFlat blockAddr at h
    rw [Nat.add_zero] at h
    by_cases hbig : maxInt64 / img.blockSize < fi.startBlock
    · rw [if_pos hbig] at h
      cases h
    · rw [Int.ediv_lt_iff_lt_mul (by omega), maxInt64, ← Nat.cast_mul] at hbig
      omega
  have hfirst : 0 / img.blockSize = 0 := Nat.zero_div _
  have hnot : ¬ calculateBlocks img.sb.blkSizeBits fi.size ≤ 0 := by
    change ¬ img.dirBlocks fi ≤ 0
    omega
  rw [dirBlock, Nat.zero_mul, loadBlock, hfirst, if_neg hnot] at hload
  cases hl : fi.inodeLayout with
  | flatPlain =>
    rw [hl] at hload
    dsimp only at hload
    unfold loadFlatPlain at hload
    dsimp only at hload
    cases hnull : fi.nullAddress with
    | false =>
      rw [hnull, if_neg (by decide)] at hload
      exact ⟨.inl ⟨rfl, rfl⟩, haddr hload⟩
    | true =>
      rw [hnull, if_pos rfl] at hload
      split_ifs at hload
      · cases hload
      · cases hload
        exact absurd hsound (not_sound_zeros _)
  | flatInline =>
    rw [hl] at hload
    dsimp only at hload
    unfold loadFlatInline at hload
    rw [if_neg (by change ¬ 0 = img.dirBlocks fi - 1; omega)] at hload
    exact ⟨.inr rfl, haddr hload⟩
  | chunkBased => exact absurd hl hlay
  | compressedFull => rw [hl] at hload; cases hload
  | compressedCompact => rw [hl] at hload; cases hload
  | unknown k => rw [hl] at hload; cases hload

section Wide

variable (hbits : img.sb.blkSizeBits ≤ 16) (hlt : fi.size < 2 ^ 63)
  (hwide : 2 ^ 63 < fi.size + img.blockSize)

include hbits hlt hwide

/-- The blocks of a directory within a block of `2^63` bytes end there. -/
theorem dirBlocks_wide : img.dirBlocks fi * img.blockSize = 2 ^ 63 ∧ 1 < img.dirBlocks fi := by
  have hmul : 2 ^ (63 - img.sb.blkSizeBits) * img.blockSize = 2 ^ 63 := by
    rw [blockSize, ← pow_add, Nat.sub_add_cancel (by omega)]
  have hmany : 2 ^ 47 ≤ 2 ^ (63 - img.sb.blkSizeBits) :=
    Nat.pow_le_pow_right Nat.two_pos (by omega)
  have hlow : 2 ^ (63 - img.sb.blkSizeBits) - 1 < img.dirBlocks fi := by
    rw [lt_dirBlocks_iff, Nat.sub_mul, hmul, Nat.one_mul]
    have hbs : img.blockSize ≤ 2 ^ 16 := Nat.pow_le_pow_right Nat.two_pos hbits
    omega
  have hhigh : ¬ 2 ^ (63 - img.sb.blkSizeBits) < img.dirBlocks fi := by
    rw [lt_dirBlocks_iff, hmul]
    omega
  have heq : img.dirBlocks fi = 2 ^ (63 - img.sb.blkSizeBits) := by omega
  exact ⟨by rw [heq, hmul], by omega⟩

/-- After the last block the position is the lowest there is. -/
theorem pos_wide (hbn : d.bn = img.dirBlocks fi) : d.pos img = - 2 ^ 63 := by
  rw [OpenDir.pos, hbn, (dirBlocks_wide hbits hlt hwide).1, int64_wraps (by norm_num) (by norm_num)]
  norm_num

/-- There a flat file is refused whose first block can be read. -/
theorem loadWrapped_refused (hlay : fi.inodeLayout ≠ .chunkBased) (hs : img.SoundAt o fi 0) :
    ∃ e, e.is .eof = false ∧ img.loadBlockAt fi (- 2 ^ 63) = .done (.error e) := by
  obtain ⟨hmul, hmany⟩ := dirBlocks_wide hbits hlt hwide
  obtain ⟨hflat, hstart⟩ := startBlock_of_sound hmany hlay hs
  have hbs := img.blockSize_pos
  have hbn : - 2 ^ 63 / (img.blockSize : Int) = - img.dirBlocks fi := by
    have hneg : (- 2 ^ 63 : Int) = - img.dirBlocks fi * img.blockSize := by
      rw [Int.neg_mul, ← Nat.cast_mul, hmul]
      rfl
    rw [hneg]
    exact Int.mul_ediv_cancel _ (by omega)
  have hlow : fi.startBlock < img.dirBlocks fi := by
    rw [← hmul] at hstart
    exact lt_of_mul_lt_mul_right hstart (Nat.zero_le _)
  have hhigh : img.dirBlocks fi ≤ 2 ^ 63 := by
    rw [← hmul]
    exact Nat.le_mul_of_pos_right _ hbs
  have hrefused : ∀ blockOffset, ∃ e, e.is .eof = false ∧
      img.loadFlatWrapped fi (- 2 ^ 63 / img.blockSize) blockOffset = .done (.error e) := by
    intro blockOffset
    have hblk : 2 ^ 63 ≤ ((fi.startBlock + - img.dirBlocks fi : Int) % 2 ^ 64).toNat := by
      generalize img.dirBlocks fi = n at hlow hhigh
      generalize fi.startBlock = k at hlow
      omega
    have hbig : maxInt64 / img.blockSize <
        (((fi.startBlock + - img.dirBlocks fi : Int) % 2 ^ 64).toNat : Int) := by
      generalize ((fi.startBlock + - img.dirBlocks fi : Int) % 2 ^ 64).toNat = blk at hblk
      have hprod : 2 ^ 63 * 1 ≤ blk * img.blockSize := Nat.mul_le_mul hblk hbs
      rw [Int.ediv_lt_iff_lt_mul (by omega), maxInt64, ← Nat.cast_mul]
      omega
    unfold loadFlatWrapped blockAddr
    rw [hbn, if_pos hbig]
    exact ⟨_, rfl, rfl⟩
  rw [loadBlockAt, if_neg (by norm_num), loadWrapped]
  obtain ⟨hl, hnull⟩ | hl := hflat
  · rw [hl]
    dsimp only
    rw [hnull, if_neg (by decide)]
    exact hrefused _
  · rw [hl]
    exact hrefused _

/-- A listing of such a directory loses all of it. -/
theorem readDir_wide (hlay : fi.inodeLayout ≠ .chunkBased)
    (hs : ∀ b < img.dirBlocks fi, img.SoundAt o fi b) (hk : img.Known o fi d) (hbn : d.bn = 0)
    (hcons : d.consumed = 0) : ((d.readDir img none).run o).2.1 = [] := by
  obtain ⟨f, hf, -⟩ := hk
  obtain ⟨-, hmany⟩ := dirBlocks_wide hbits hlt hwide
  have hturns : img.dirBlocks fi < OpenDir.turns img fi := by
    rw [OpenDir.turns, if_neg (not_le.2 hwide)]
    exact Nat.lt_add_of_pos_right (by norm_num)
  obtain ⟨d', ents', hd', hrun⟩ := @listBlocks_reach img o fi { d with file := f } none []
    (OpenDir.turns img fi) (img.dirBlocks fi) hlt le_rfl hs (hbn ▸ Nat.zero_le _) hcons
    (hturns.le.trans (Nat.le_add_left _ _)) nofun
  obtain ⟨k, hk⟩ : ∃ k, d.bn + OpenDir.turns img fi - img.dirBlocks fi = k + 1 :=
    ⟨d.bn + OpenDir.turns img fi - img.dirBlocks fi - 1, by omega⟩
  obtain ⟨e, heof, hload⟩ := loadWrapped_refused hbits hlt hwide hlay (hs 0 (by omega))
  rw [OpenDir.readDir_run hf, hrun]
  dsimp only
  rw [hk, OpenDir.listBlocks, pos_wide hbits hlt hwide hd', if_neg (by omega), hload, Prog.bind,
    OpenDir.listLoaded, if_neg (by rw [heof]; decide)]
  rfl

end Wide

/-- **Paged listing.**  Every sequence of `ReadDir` calls hands out the entries of the directory in
order and none is lost, and `io.EOF` comes after the last of them, exactly when no block that cannot
be read comes after an entry or answers with an end of file.  This is so up to a block short of
`2^63` bytes; a larger flat directory whose blocks are all sound loses its entries. -/
theorem pagesListed_iff {name : Bytes} {nid : ℕ} {ftype : FileMode}
    (hino : (img.readInfo name nid ftype).run o = .ok fi) :
    (fi.size + img.blockSize ≤ 2 ^ 63 →
      (img.PagesListed o fi ⟨⟨name, nid, ftype, 0, none, none⟩, 0, 0⟩ ↔
        img.UnreadableFirst o fi)) ∧
    (2 ^ 63 < fi.size + img.blockSize → img.sb.blkSizeBits ≤ 16 → fi.inodeLayout ≠ .chunkBased →
      (∀ b < img.dirBlocks fi, img.SoundAt o fi b) → img.dirEntries o fi ≠ [] →
      ¬ img.PagesListed o fi ⟨⟨name, nid, ftype, 0, none, none⟩, 0, 0⟩) := by
  have hk : img.Known o fi ⟨⟨name, nid, ftype, 0, none, none⟩, 0, 0⟩ := by
    refine ⟨⟨name, nid, ftype, 0, some fi, none⟩, ?_, rfl⟩
    simp only [OpenFile.readInfo, Prog.exec_bind, hino, Prog.run_done]
  have hlt : fi.size < 2 ^ 63 := (readInfo_ok hino).2.size_lt
  refine ⟨fun hsize => ⟨unreadableFirst_of hlt hk rfl rfl,
    fun h => pagesListed_of hsize h hk rfl rfl⟩,
    fun hwide hbits hlay hs hne h => hne ?_⟩
  have hpage : pageSize (-1) = none := rfl
  have hlost := h.noneLost [] (-1) (.inl (by omega))
  rw [pages_append, hpage] at hlost
  rw [← hlost]
  exact readDir_wide hbits hlt hwide hlay hs hk rfl rfl

/-- The root of the image with one file, whose directory is one block. -/
def oneFileRoot : Inode where
  nid := 0
  icsize := 32
  inodeLayout := .flatInline
  inodeData := 0
  size := 40
  mode := FileMode.dir ||| 0o755
  rawMode := 0o40755
  nlink := 2

theorem oneFile_root :
    (oneFileFS.readInfo [] 0 FileMode.dir).run (oneFileReader [0, 0]) = .ok oneFileRoot := by
  decide +kernel

/-- The dirents `"."`, `".."` and `"a"` and their names. -/
theorem oneFile_dirBlock :
    oneFileFS.dirBlock (oneFileReader [0, 0]) oneFileRoot 0 =
      .ok (zeros 8 ++ [36, 0, 2, 0] ++ zeros 8 ++ [37, 0, 2, 0] ++ [4] ++ zeros 7 ++
        [39, 0, 1, 0] ++ [46, 46, 46, 97]) := by
  decide +kernel

/-- A directory whose block can be read is listed whole, whatever the pages. -/
theorem oneFile_pagesListed :
    (oneFileFS.readInfo [] 0 FileMode.dir).run (oneFileReader [0, 0]) = .ok oneFileRoot ∧
      oneFileFS.PagesListed (oneFileReader [0, 0]) oneFileRoot
        ⟨⟨[], 0, FileMode.dir, 0, none, none⟩, 0, 0⟩ := by
  refine ⟨oneFile_root, ((pagesListed_iff oneFile_root).1 (by decide)).2 fun b hb _ e he => ?_⟩
  have hblocks : oneFileFS.dirBlocks oneFileRoot = 1 := by decide
  obtain rfl : b = 0 := by omega
  cases oneFile_dirBlock.symm.trans he

/-- An image of five blocks whose root directory declares two: the first is the image's last, with
the entry `a`, and the second would come after the image. -/
def cutDirImage : Bytes :=
  zeros 1024
    ++ [0xe2, 0xe1, 0xf5, 0xe0] ++ zeros 8 ++ [9] ++ zeros 23 ++ [5, 0, 0, 0, 3] ++ zeros 471
    -- inode 0: compact, flat-plain, a directory of 1024 bytes from block 4 on
    ++ [0, 0, 0, 0, 0xed, 0x41, 2, 0, 0, 4] ++ zeros 6 ++ [4] ++ zeros 495
    -- the dirents ".", ".." and "a"
    ++ zeros 8 ++ [36, 0, 2, 0] ++ zeros 8 ++ [37, 0, 2, 0] ++ [4] ++ zeros 7 ++ [39, 0, 1, 0]
    ++ [46, 46, 46, 97] ++ zeros 472

/-- The root of that image. -/
def cutDirRoot : Inode where
  nid := 0
  icsize := 32
  inodeLayout := .flatPlain
  inodeData := 4
  size := 1024
  mode := FileMode.dir ||| 0o755
  rawMode := 0o40755
  nlink := 2

/-- `Open` accepts the image, and `ReadDir(-1)` of its root returns no entry with its error: `a`, in
a block before the one that cannot be read, is lost. -/
theorem cutDir_loses :
    (openImage 0 fun _ => some 2560).run (holding fun _ => cutDirImage) = .ok oneFileFS ∧
      (oneFileFS.readInfo [] 0 FileMode.dir).run (holding fun _ => cutDirImage) = .ok cutDirRoot ∧
      ¬ oneFileFS.PagesListed (holding fun _ => cutDirImage) cutDirRoot
        ⟨⟨[], 0, FileMode.dir, 0, none, none⟩, 0, 0⟩ := by
  refine ⟨by decide +kernel, by decide +kernel, fun h => ?_⟩
  have hlost := h.noneLost [] (-1) (.inl (by decide))
  revert hlost
  decide +kernel

end Image

end Erofs
