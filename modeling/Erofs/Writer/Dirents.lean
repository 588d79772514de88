import Erofs.Blocked
import Erofs.Writer.CopiedDirs

/-!
# Writing directories

`writeDirents` (`writer.go`) sorts a directory's children together with `"."` and `".."` and packs
them greedily into blocks; `calcDirentDataSize` (`layout.go`) predicts how many bytes that will be,
in a loop of its own.

The main results:

* `direntBlock_decodes` — a block of dirents is decoded to the dirents it was made from;
* `dirents_roundTrip` — what `writeDirents` writes has the predicted length and is decoded, block by
  block with the rules of `ReadDir`, to the children in ascending order.
-/

namespace Erofs

open GoPath LittleEndian DirBlock

/-- `direntInfo`: a name and what it names. -/
structure DirentInfo where
  name : Bytes
  nid : ℕ
  fileType : ℕ
  deriving DecidableEq

/-- What `writeDirents` reads of an `erofsEntry` that is a directory; of a child it reads the name,
the nid and the type. -/
structure ErofsDir where
  nid : ℕ
  parentNid : ℕ
  children : List DirentInfo
  deriving DecidableEq

/-! ## The encoder -/

/-- `disk.FileTypeDir`. -/
def fileTypeDir : ℕ := 2

/-- The inner loop of both functions over the names from the start of a block: how many fit into it
and the bytes they use. -/
def fitBlock (blockSize : ℕ) : List Bytes → ℕ → ℕ → ℕ → ℕ × ℕ
  | [], n, _, used => (n, used)
  | name :: names, n, nameSize, used =>
    let needed := (n + 1) * Disk.sizeDirent + (nameSize + name.length)
    if blockSize < needed then (n, used)
    else fitBlock blockSize names (n + 1) (nameSize + name.length) needed

/-- The entries of the next block and the bytes they use; one too large for a block is alone. -/
def nextBlock (blockSize : ℕ) (names : List Bytes) : ℕ × ℕ :=
  let (n, used) := fitBlock blockSize names 0 0 0
  if n = 0 then (1, Disk.sizeDirent + (names.headD []).length) else (n, used)

/-- `direntNames`. -/
def direntNames (e : ErofsDir) : List Bytes :=
  ([dot, dotdot] ++ e.children.map (·.name)).insertionSort (· ≤ ·)

/-- The loop of `calcDirentDataSize`; a block takes at least one name. -/
def calcBlocks (blockSize : ℕ) : ℕ → List Bytes → ℕ
  | 0, _ => 0
  | fuel + 1, names =>
    if names = [] then 0
    else
      let (n, used) := nextBlock blockSize names
      let rest := names.drop n
      let used :=
        if rest ≠ [] ∧ used % blockSize ≠ 0 then (used + blockSize - 1) / blockSize * blockSize
        else used
      used + calcBlocks blockSize fuel rest

/-- `calcDirentDataSize`. -/
def calcDirentDataSize (blockSize : ℕ) (e : ErofsDir) : ℕ :=
  let names := direntNames e
  if e.children = [] then 2 * Disk.sizeDirent + 1 + 2
  else calcBlocks blockSize names.length names

/-- `allEnts` of `writeDirents`. -/
def allEnts (e : ErofsDir) : List DirentInfo :=
  (⟨dot, e.nid, fileTypeDir⟩ :: ⟨dotdot, e.parentNid, fileTypeDir⟩ :: e.children).insertionSort
    fun a b => a.name ≤ b.name

/-- The headers of a block's entries, the next name at `nameOff`. -/
def direntHeaders : ℕ → List DirentInfo → Bytes
  | _, [] => []
  | nameOff, de :: ents =>
    leBytes 8 de.nid ++ leBytes 2 nameOff ++ leBytes 1 de.fileType ++ [0]
      ++ direntHeaders (nameOff + de.name.length) ents

/-- The bytes of a block's entries: the headers, and after them the names, which fill the buffer of
`blockUsed` bytes. -/
def direntBlock (ents : List DirentInfo) : Bytes :=
  direntHeaders (ents.length * Disk.sizeDirent) ents ++ ents.flatMap (·.name)

/-- The names of some entries. -/
def namesOf (ents : List DirentInfo) : List Bytes := ents.map (·.name)

/-- The loop of `writeDirents`: what it writes to a writer that takes everything. -/
def writeBlocks (blockSize : ℕ) : ℕ → List DirentInfo → Bytes
  | 0, _ => []
  | fuel + 1, ents =>
    if ents = [] then []
    else
      let (n, used) := nextBlock blockSize (namesOf ents)
      let rest := ents.drop n
      let pad :=
        if rest ≠ [] ∧ used % blockSize ≠ 0 then
          List.replicate (blockSize - used % blockSize) nulByte
        else []
      direntBlock (ents.take n) ++ pad ++ writeBlocks blockSize fuel rest

/-- The calls of `Write` that the loop of `writeDirents` makes: one for a block's entries, and one
for the padding behind them if there is some. -/
def direntCalls (blockSize : ℕ) : ℕ → List DirentInfo → List Bytes
  | 0, _ => []
  | fuel + 1, ents =>
    if ents = [] then []
    else
      let (n, used) := nextBlock blockSize (namesOf ents)
      let rest := ents.drop n
      let pad :=
        if rest ≠ [] ∧ used % blockSize ≠ 0 then
          [List.replicate (blockSize - used % blockSize) nulByte]
        else []
      direntBlock (ents.take n) :: pad ++ direntCalls blockSize fuel rest

theorem flatten_direntCalls (blockSize fuel : ℕ) (ents : List DirentInfo) :
    (direntCalls blockSize fuel ents).flatten = writeBlocks blockSize fuel ents := by
  induction fuel generalizing ents with
  | zero => rfl
  | succ fuel ih =>
    rw [direntCalls, writeBlocks]
    by_cases hnil : ents = []
    · rw [if_pos hnil, if_pos hnil]
      rfl
    · rw [if_neg hnil, if_neg hnil]
      dsimp only
      rw [List.cons_append, List.flatten_cons, List.flatten_append, ih, List.append_assoc]
      split_ifs <;> simp

/-- `writeDirents`. -/
def writeDirents (blockSize : ℕ) (e : ErofsDir) : Bytes :=
  writeBlocks blockSize (allEnts e).length (allEnts e)

/-! ## How many entries a block takes -/

section Packing

variable {bs fuel : ℕ} {names : List Bytes} {ents : List DirentInfo}

/-- The bytes of some names. -/
def nameBytes (names : List Bytes) : ℕ := (names.map List.length).sum

@[simp] theorem nameBytes_nil : nameBytes [] = 0 := rfl

@[simp] theorem nameBytes_cons (x : Bytes) (xs : List Bytes) :
    nameBytes (x :: xs) = x.length + nameBytes xs := rfl

theorem nameBytes_append (xs ys : List Bytes) :
    nameBytes (xs ++ ys) = nameBytes xs + nameBytes ys := by
  simp [nameBytes]

@[simp] theorem namesOf_cons (de : DirentInfo) (ents : List DirentInfo) :
    namesOf (de :: ents) = de.name :: namesOf ents := rfl

/-- The inner loop takes names as long as they fit and counts their bytes. -/
theorem fitBlock_spec (n size used : ℕ) :
    ∃ m ≤ names.length, (fitBlock bs names n size used).1 = n + m ∧
      (m = 0 → (fitBlock bs names n size used).2 = used) ∧
      (0 < m → (fitBlock bs names n size used).2 =
        (n + m) * 12 + (size + nameBytes (names.take m)) ∧
        (fitBlock bs names n size used).2 ≤ bs) := by
  induction names generalizing n size used with
  | nil => exact ⟨0, le_rfl, rfl, fun _ => rfl, fun h => absurd h (by decide)⟩
  | cons x names ih =>
    rw [fitBlock, Disk.sizeDirent]
    split_ifs with hlt
    · exact ⟨0, Nat.zero_le _, rfl, fun _ => rfl, fun h => absurd h (by decide)⟩
    · obtain ⟨m, hm, hcount, hzero, hpos⟩ := ih (n + 1) (size + x.length)
        ((n + 1) * 12 + (size + x.length))
      refine ⟨m + 1, Nat.succ_le_succ hm, by omega, fun h => absurd h (by omega), fun _ => ?_⟩
      rw [List.take_succ_cons, nameBytes_cons]
      rcases Nat.eq_zero_or_pos m with h0 | h0
      · rw [hzero h0, h0, List.take_zero, nameBytes_nil]
        omega
      · obtain ⟨heq, hle⟩ := hpos h0
        omega

/-- The next block takes at least one name and has room for all it takes. -/
theorem nextBlock_spec (hbs : 512 ≤ bs) (hne : names ≠ []) (hlen : ∀ x ∈ names, x.length ≤ 255) :
    0 < (nextBlock bs names).1 ∧ (nextBlock bs names).1 ≤ names.length ∧
      (nextBlock bs names).2 = (nextBlock bs names).1 * 12 +
        nameBytes (names.take (nextBlock bs names).1) ∧ (nextBlock bs names).2 ≤ bs := by
  obtain ⟨m, hm, hcount, -, hpos⟩ := @fitBlock_spec bs names 0 0 0
  have hm0 : 0 < m := by
    cases names with
    | nil => exact absurd rfl hne
    | cons x names =>
      have hx := hlen x List.mem_cons_self
      rw [fitBlock, Disk.sizeDirent, if_neg (by omega)] at hcount
      obtain ⟨k, -, hk, -⟩ := @fitBlock_spec bs names (0 + 1) (0 + x.length)
        ((0 + 1) * 12 + (0 + x.length))
      omega
  have hnext : nextBlock bs names = fitBlock bs names 0 0 0 := by
    rw [nextBlock]
    dsimp only
    rw [if_neg (by omega)]
  obtain ⟨heq, hle⟩ := hpos hm0
  rw [hnext, hcount, Nat.zero_add]
  exact ⟨hm0, hm, by simpa using heq, hle⟩

/-- The entries of each block. -/
def pack (bs : ℕ) : ℕ → List DirentInfo → List (List DirentInfo)
  | 0, _ => []
  | fuel + 1, ents =>
    if ents = [] then []
    else ents.take (nextBlock bs (namesOf ents)).1 ::
      pack bs fuel (ents.drop (nextBlock bs (namesOf ents)).1)

/-- The bytes of each block: all but the last are filled up with zeros. -/
def blocksOf (bs : ℕ) : List (List DirentInfo) → List Bytes
  | [] => []
  | [c] => [direntBlock c]
  | c :: c' :: cs =>
    (direntBlock c ++ List.replicate (bs - (direntBlock c).length) nulByte) ::
      blocksOf bs (c' :: cs)

theorem length_direntHeaders (off : ℕ) : (direntHeaders off ents).length = ents.length * 12 := by
  induction ents generalizing off with
  | nil => rfl
  | cons de ents ih =>
    simp only [direntHeaders, List.length_append, length_leBytes, List.length_cons, List.length_nil,
      ih]
    omega

theorem length_flatMap_name : (ents.flatMap (·.name)).length = nameBytes (namesOf ents) := by
  rw [List.length_flatMap, nameBytes, namesOf, List.map_map]
  rfl

theorem length_direntBlock :
    (direntBlock ents).length = ents.length * 12 + nameBytes (namesOf ents) := by
  rw [direntBlock, List.length_append, length_direntHeaders, length_flatMap_name]

/-- One round of the packing: the entries taken, the bytes they come to and what is left. -/
theorem pack_step (hbs : 512 ≤ bs) (hne : ents ≠ []) (hlen : ∀ de ∈ ents, de.name.length ≤ 255) :
    let r := nextBlock bs (namesOf ents)
    0 < r.1 ∧ r.1 ≤ ents.length ∧ (direntBlock (ents.take r.1)).length = r.2 ∧ r.2 ≤ bs ∧
      0 < r.2 := by
  have hne' : namesOf ents ≠ [] := by simpa [namesOf] using hne
  have hlen' : ∀ x ∈ namesOf ents, x.length ≤ 255 := by
    intro x hx
    obtain ⟨de, hde, rfl⟩ := List.mem_map.1 hx
    exact hlen de hde
  obtain ⟨hpos, hle, heq, hfit⟩ := nextBlock_spec hbs hne' hlen'
  rw [show (namesOf ents).length = ents.length from List.length_map _] at hle
  refine ⟨hpos, hle, ?_, hfit, by omega⟩
  have htake : namesOf (ents.take (nextBlock bs (namesOf ents)).1) =
      (namesOf ents).take (nextBlock bs (namesOf ents)).1 := List.map_take
  rw [length_direntBlock, heq, List.length_take, min_eq_left hle, htake]

theorem pack_flatten (hbs : 512 ≤ bs) (hlen : ∀ de ∈ ents, de.name.length ≤ 255)
    (hfuel : ents.length ≤ fuel) : (pack bs fuel ents).flatten = ents := by
  induction fuel generalizing ents with
  | zero => simpa [pack] using hfuel
  | succ fuel ih =>
    rw [pack]
    split_ifs with hne
    · rw [hne]
      rfl
    · obtain ⟨hpos, hle, -⟩ := pack_step hbs hne hlen
      rw [List.flatten_cons, ih (fun de hde => hlen de (List.mem_of_mem_drop hde))
        (by rw [List.length_drop]; omega), List.take_append_drop]

theorem pack_fits (hbs : 512 ≤ bs) (hlen : ∀ de ∈ ents, de.name.length ≤ 255) :
    ∀ c ∈ pack bs fuel ents, c ≠ [] ∧ (direntBlock c).length ≤ bs := by
  induction fuel generalizing ents with
  | zero => exact fun c hc => absurd hc List.not_mem_nil
  | succ fuel ih =>
    rw [pack]
    split_ifs with hne
    · exact fun c hc => absurd hc List.not_mem_nil
    · obtain ⟨hpos, hle, hused, hfit, -⟩ := pack_step hbs hne hlen
      intro c hc
      rcases List.mem_cons.1 hc with rfl | hc
      · refine ⟨fun h => ?_, hused ▸ hfit⟩
        have := congrArg List.length h
        rw [List.length_take, min_eq_left hle] at this
        exact hpos.ne' this
      · exact ih (fun de hde => hlen de (List.mem_of_mem_drop hde)) c hc

theorem pack_nil_iff (hfuel : ents.length ≤ fuel) : pack bs fuel ents = [] ↔ ents = [] := by
  cases fuel with
  | zero => simpa [pack] using hfuel
  | succ fuel =>
    rw [pack]
    split_ifs with h <;> simp [h]

theorem blocksOf_cons {c : List DirentInfo} {cs : List (List DirentInfo)} :
    blocksOf bs (c :: cs) = (direntBlock c ++ if cs = [] then [] else
      List.replicate (bs - (direntBlock c).length) nulByte) :: blocksOf bs cs := by
  cases cs with
  | nil => simp [blocksOf]
  | cons c' cs => rw [blocksOf, if_neg (by simp)]

/-- What is written are the blocks, one after the other. -/
theorem writeBlocks_eq (hbs : 512 ≤ bs) (hlen : ∀ de ∈ ents, de.name.length ≤ 255)
    (hfuel : ents.length ≤ fuel) :
    writeBlocks bs fuel ents = (blocksOf bs (pack bs fuel ents)).flatten := by
  induction fuel generalizing ents with
  | zero => rfl
  | succ fuel ih =>
    rw [writeBlocks, pack]
    by_cases hne : ents = []
    · rw [if_pos hne, if_pos hne]
      rfl
    obtain ⟨hpos, hle, hused, hfit, hupos⟩ := pack_step hbs hne hlen
    rw [if_neg hne, if_neg hne, blocksOf_cons, List.flatten_cons, hused]
    generalize nextBlock bs (namesOf ents) = r at hpos hle hfit hupos ⊢
    have hrest : (ents.drop r.1).length ≤ fuel := by
      rw [List.length_drop]
      omega
    rw [← ih (fun de hde => hlen de (List.mem_of_mem_drop hde)) hrest]
    have hpad : (if ents.drop r.1 ≠ [] ∧ r.2 % bs ≠ 0 then
          List.replicate (bs - r.2 % bs) nulByte else []) =
        if pack bs fuel (ents.drop r.1) = [] then [] else List.replicate (bs - r.2) nulByte := by
      simp only [pack_nil_iff hrest]
      by_cases hend : ents.drop r.1 = []
      · rw [if_pos hend, if_neg (by simp [hend])]
      · rw [if_neg hend]
        rcases hfit.eq_or_lt with heq | hlt
        · rw [heq, if_neg (by simp), Nat.sub_self]
          rfl
        · rw [Nat.mod_eq_of_lt hlt, if_pos ⟨hend, by omega⟩]
    rw [← hpad]

theorem blocked_blocksOf {cs : List (List DirentInfo)}
    (h : ∀ c ∈ cs, c ≠ [] ∧ (direntBlock c).length ≤ bs) : Blocked bs (blocksOf bs cs) := by
  induction cs with
  | nil => trivial
  | cons c cs ih =>
    obtain ⟨hne, hle⟩ := h c List.mem_cons_self
    have hpos : 0 < (direntBlock c).length := by
      have := List.length_pos_iff.2 hne
      rw [length_direntBlock]
      omega
    have ih := ih fun c' hc' => h c' (List.mem_cons_of_mem _ hc')
    cases cs with
    | nil => exact ⟨hpos, hle⟩
    | cons c' cs =>
      rw [blocksOf]
      rw [blocksOf_cons] at ih ⊢
      refine ⟨?_, ih⟩
      rw [List.length_append, List.length_replicate]
      omega

/-- The predicted length is that of what is written. -/
theorem calcBlocks_eq (hbs : 512 ≤ bs) (hlen : ∀ de ∈ ents, de.name.length ≤ 255) :
    calcBlocks bs fuel (namesOf ents) = (writeBlocks bs fuel ents).length := by
  induction fuel generalizing ents with
  | zero => rfl
  | succ fuel ih =>
    rw [calcBlocks, writeBlocks]
    by_cases hne : ents = []
    · rw [if_pos hne, if_pos (by simp [namesOf, hne])]
      rfl
    rw [if_neg hne, if_neg (by simpa [namesOf] using hne)]
    obtain ⟨hpos, hle, hused, hfit, hupos⟩ := pack_step hbs hne hlen
    dsimp only
    rw [List.length_append, List.length_append, hused]
    generalize nextBlock bs (namesOf ents) = r at hfit hupos ⊢
    have hdrop : (namesOf ents).drop r.1 = namesOf (ents.drop r.1) := List.map_drop.symm
    have hnil : namesOf (ents.drop r.1) = [] ↔ ents.drop r.1 = [] := List.map_eq_nil_iff
    rw [hdrop, ih fun de hde => hlen de (List.mem_of_mem_drop hde), Nat.add_right_cancel_iff]
    by_cases hend : ents.drop r.1 = []
    · rw [if_neg fun h => h.1 (hnil.2 hend), if_neg fun h => h.1 hend]
      rfl
    rcases hfit.eq_or_lt with heq | hlt
    · rw [heq, if_neg (by simp), if_neg (by simp)]
      rfl
    · rw [Nat.mod_eq_of_lt hlt, if_pos ⟨mt hnil.1 hend, by omega⟩, if_pos ⟨hend, by omega⟩,
        List.length_replicate, Nat.div_eq_of_lt_le (k := 1) (by omega) (by omega)]
      omega

end Packing

/-! ## Decoding a block -/

section Decoding

variable {ents : List DirentInfo} {de : DirentInfo} {k i : ℕ}

/-- A dirent whose name and numbers fit their fields. -/
structure DirentInfo.Fits (de : DirentInfo) : Prop where
  valid : ValidName de.name
  nid : de.nid < 2 ^ 64
  fileType : de.fileType < 256

/-- Where the name of entry `i` is put. -/
def nameOffset (ents : List DirentInfo) (i : ℕ) : ℕ :=
  ents.length * 12 + nameBytes (namesOf (ents.take i))

/-- The header of entry `i` is at its place. -/
theorem drop_direntHeaders (hi : ents[i]? = some de) (off : ℕ) (rest : Bytes) :
    ∃ more, (direntHeaders off ents ++ rest).drop (12 * i) =
      leBytes 8 de.nid ++ (leBytes 2 (off + nameBytes (namesOf (ents.take i))) ++
        (leBytes 1 de.fileType ++ more)) := by
  induction ents generalizing i off with
  | nil => simp at hi
  | cons de' ents ih =>
    cases i with
    | zero =>
      obtain rfl : de' = de := by simpa using hi
      exact ⟨[0] ++ direntHeaders (off + de'.name.length) ents ++ rest, by
        simp [direntHeaders, namesOf]⟩
    | succ i =>
      obtain ⟨more, hmore⟩ := ih (by simpa using hi) (off + de'.name.length)
      refine ⟨more, ?_⟩
      have hlen : (leBytes 8 de'.nid ++ leBytes 2 off ++ leBytes 1 de'.fileType ++ [0]).length =
          12 := by simp
      rw [direntHeaders, List.append_assoc _ _ rest, Nat.mul_succ, Nat.add_comm, ← List.drop_drop,
        List.drop_left' hlen, hmore, List.take_succ_cons, namesOf_cons, nameBytes_cons,
        Nat.add_assoc]

/-- The name of entry `i` is at its place. -/
theorem drop_names (hi : ents[i]? = some de) (rest : Bytes) :
    (ents.flatMap (·.name) ++ rest).drop (nameBytes (namesOf (ents.take i))) =
      de.name ++ ((ents.drop (i + 1)).flatMap (·.name) ++ rest) := by
  induction ents generalizing i with
  | nil => simp at hi
  | cons de' ents ih =>
    rw [List.flatMap_cons, List.append_assoc]
    cases i with
    | zero =>
      obtain rfl : de' = de := by simpa using hi
      simp [namesOf]
    | succ i =>
      rw [List.take_succ_cons, namesOf_cons, nameBytes_cons, ← List.drop_drop, List.drop_left,
        List.drop_succ_cons]
      exact ih (by simpa using hi)

theorem drop_direntBlock (hi : ents[i]? = some de) (rest : Bytes) :
    (direntBlock ents ++ rest).drop (nameOffset ents i) =
      de.name ++ ((ents.drop (i + 1)).flatMap (·.name) ++ rest) := by
  rw [← drop_names hi, direntBlock, List.append_assoc, nameOffset]
  nth_rewrite 1 [← List.drop_drop]
  rw [List.drop_left' (length_direntHeaders _)]

/-- The name of an entry ends inside the block. -/
theorem nameOffset_add_le (hi : ents[i]? = some de) :
    nameOffset ents i + de.name.length ≤ (direntBlock ents).length := by
  have hlen := congrArg List.length (drop_names hi [])
  rw [List.append_nil, List.length_drop, List.length_append, length_flatMap_name] at hlen
  have hle : nameBytes (namesOf (ents.take i)) ≤ nameBytes (namesOf ents) := by
    conv_rhs => rw [← List.take_append_drop i ents, namesOf, List.map_append, nameBytes_append]
    exact Nat.le_add_right _ _
  rw [nameOffset, length_direntBlock]
  omega

theorem nameOffset_succ (hi : ents[i]? = some de) :
    nameOffset ents (i + 1) = nameOffset ents i + de.name.length := by
  rw [nameOffset, nameOffset, List.take_add_one, hi, namesOf, List.map_append, nameBytes_append]
  simp [namesOf, Nat.add_assoc]

section Padded

variable (hfit : ∀ de ∈ ents, de.Fits) (hlen : (direntBlock ents).length ≤ 65536)
  (hi : ents[i]? = some de)

include hfit hlen hi

/-- The dirent read at `i` is the one written there. -/
theorem direntAt_block : direntAt (direntBlock ents ++ List.replicate k nulByte) i =
    ⟨de.nid, nameOffset ents i, de.fileType⟩ := by
  have hde := hfit de (List.mem_of_getElem? hi)
  have hpos := List.length_pos_iff.2 hde.valid.nonempty
  have hoff := nameOffset_add_le hi
  obtain ⟨more, hmore⟩ := drop_direntHeaders hi (ents.length * 12)
    (ents.flatMap (·.name) ++ List.replicate k nulByte)
  have hbuf : (direntBlock ents ++ List.replicate k nulByte).drop (12 * i) =
      leBytes 8 de.nid ++ (leBytes 2 (nameOffset ents i) ++ (leBytes 1 de.fileType ++ more)) := by
    rw [direntBlock, Disk.sizeDirent, List.append_assoc]
    exact hmore
  have hnid : field (direntBlock ents ++ List.replicate k nulByte) (12 * i) 8 = de.nid :=
    field_leBytes (by simpa using hde.nid) hbuf
  have hbuf8 : (direntBlock ents ++ List.replicate k nulByte).drop (12 * i + 8) =
      leBytes 2 (nameOffset ents i) ++ (leBytes 1 de.fileType ++ more) := by
    rw [← List.drop_drop, hbuf, List.drop_left' (length_leBytes _ _)]
  have hname : field (direntBlock ents ++ List.replicate k nulByte) (12 * i + 8) 2 =
      nameOffset ents i := field_leBytes (by omega) hbuf8
  have hbuf10 : (direntBlock ents ++ List.replicate k nulByte).drop (12 * i + 10) =
      leBytes 1 de.fileType ++ more := by
    rw [show 12 * i + 10 = 12 * i + 8 + 2 from rfl, ← List.drop_drop, hbuf8,
      List.drop_left' (length_leBytes _ _)]
  have htype : field (direntBlock ents ++ List.replicate k nulByte) (12 * i + 10) 1 =
      de.fileType := field_leBytes (by simpa using hde.fileType) hbuf10
  rw [direntAt, hnid, hname, htype]

theorem off_block : off (direntBlock ents ++ List.replicate k nulByte) i = nameOffset ents i :=
  congrArg Dirent.nameOff (direntAt_block hfit hlen hi)

omit hi in
theorem count_block (hne : ents ≠ []) :
    DirBlock.count (direntBlock ents ++ List.replicate k nulByte) = ents.length := by
  obtain ⟨de, ents', rfl⟩ := List.exists_cons_of_ne_nil hne
  rw [DirBlock.count, off_block hfit hlen (by rfl : (de :: ents')[0]? = some de), nameOffset,
    List.take_zero]
  simp [namesOf]

/-- The name written at `i` ends where the reader takes it to end. -/
theorem nameEnd_block : nameEnd (direntBlock ents ++ List.replicate k nulByte) i =
    nameOffset ents i + de.name.length := by
  have hde := hfit de (List.mem_of_getElem? hi)
  have hlt : i < ents.length := (List.getElem?_eq_some_iff.1 hi).1
  have hne : ents ≠ [] := List.ne_nil_of_length_pos (by omega)
  by_cases hnext : i + 1 < ents.length
  · obtain ⟨de', hde'⟩ : ∃ de', ents[i + 1]? = some de' :=
      ⟨_, List.getElem?_eq_getElem hnext⟩
    rw [nameEnd_next (by rwa [count_block hfit hlen hne]), off_block hfit hlen hde',
      nameOffset_succ hi]
  · -- the last name is followed by the padding or by nothing
    have hdrop : (direntBlock ents ++ List.replicate k nulByte).drop (nameOffset ents i) =
        de.name ++ List.replicate k nulByte := by
      rw [drop_direntBlock hi, List.drop_of_length_le (by omega)]
      rfl
    have hname : untilNul (de.name ++ List.replicate k nulByte) = de.name := by
      cases k with
      | zero => rw [List.replicate_zero, List.append_nil, untilNul_eq_self hde.valid.noNul]
      | succ k => exact untilNul_append _ hde.valid.noNul
    rw [nameEnd_last (by rwa [count_block hfit hlen hne]), off_block hfit hlen hi, hdrop, hname]

theorem name_block : name (direntBlock ents ++ List.replicate k nulByte) i = de.name := by
  rw [name, off_block hfit hlen hi, nameEnd_block hfit hlen hi]
  exact slice_initial ⟨_, (drop_direntBlock hi _).symm⟩

end Padded

/-- **One block.**  A block of dirents, with or without zeros after it, is well formed. -/
theorem sound_block (hfit : ∀ de ∈ ents, de.Fits) (hlen : (direntBlock ents).length ≤ 65536)
    (hne : ents ≠ []) : DirBlock.Sound (direntBlock ents ++ List.replicate k nulByte) := by
  have hcount := @count_block ents k hfit hlen hne
  obtain ⟨de, hde⟩ : ∃ de, ents[0]? = some de :=
    ⟨_, List.getElem?_eq_getElem (List.length_pos_iff.2 hne)⟩
  have hoff0 := @off_block ents de k 0 hfit hlen hde
  have h0 : nameOffset ents 0 = ents.length * 12 := by simp [nameOffset, namesOf]
  have hbuf : (direntBlock ents).length ≤
      (direntBlock ents ++ List.replicate k nulByte).length := by simp
  refine ⟨⟨?_, ?_, ?_⟩, fun i hi => ?_⟩
  · rw [hcount]
    exact List.length_pos_iff.2 hne
  · rw [hcount, hoff0, h0, Nat.mul_comm]
  · have hle := nameOffset_add_le hde
    have hpos := List.length_pos_iff.2 (hfit de (List.mem_of_getElem? hde)).valid.nonempty
    omega
  · rw [hcount] at hi
    have hde' : ents[i]? = some ents[i] := List.getElem?_eq_getElem hi
    refine ⟨?_, ?_, ?_, ?_⟩
    · rw [hoff0, off_block hfit hlen hde', h0]
      exact Nat.le_add_right _ _
    · rw [off_block hfit hlen hde', nameEnd_block hfit hlen hde']
      exact Nat.le_add_right _ _
    · rw [nameEnd_block hfit hlen hde']
      exact (nameOffset_add_le hde').trans hbuf
    · rw [name_block hfit hlen hde']
      exact (hfit _ (List.mem_of_getElem? hde')).valid

end Decoding

/-! ## The dirents of a block -/

/-- The entry `ReadDir` makes of a dirent. -/
def DirentInfo.entry (de : DirentInfo) : DirEntry :=
  ⟨de.name, de.nid, eroFSFtypeToFileMode de.fileType⟩

/-- The dirent is one that `ReadDir` lists. -/
def DirentInfo.Shown (de : DirentInfo) : Prop := de.name ≠ dot ∧ de.name ≠ dotdot

instance (de : DirentInfo) : Decidable de.Shown := inferInstanceAs (Decidable (_ ∧ _))

/-- Dirent `i` of a block. -/
def direntInfoAt (buf : Bytes) (i : ℕ) : DirentInfo :=
  ⟨name buf i, (direntAt buf i).nid, (direntAt buf i).fileType⟩

/-- The dirents of a block, `"."` and `".."` with them. -/
def blockDirents (buf : Bytes) : List DirentInfo :=
  (List.range (DirBlock.count buf)).map (direntInfoAt buf)

theorem hidden_iff {buf : Bytes} {i : ℕ} : Hidden buf i ↔ ¬ (direntInfoAt buf i).Shown := by
  rw [Hidden, DirentInfo.Shown, not_and_or, not_not, not_not]
  rfl

theorem below_dirents (buf : Bytes) (m : ℕ) : below buf m =
    (((List.range m).map (direntInfoAt buf)).filter (·.Shown)).map DirentInfo.entry := by
  induction m with
  | zero => rfl
  | succ m ih =>
    rw [List.range_succ, List.map_append, List.filter_append, List.map_append, ← ih]
    by_cases h : Hidden buf m
    · rw [below_hidden h, List.map_singleton, List.filter_singleton,
        decide_eq_false (hidden_iff.1 h)]
      exact (List.append_nil _).symm
    · rw [below_shown h, List.map_singleton, List.filter_singleton,
        decide_eq_true (not_not.1 (mt hidden_iff.2 h))]
      rfl

/-- What `ReadDir` lists of a well-formed block are its dirents but `"."` and `".."`. -/
theorem decoded_dirents {buf : Bytes} (h : DirBlock.Sound buf) :
    decoded buf = ((blockDirents buf).filter (·.Shown)).map DirentInfo.entry := by
  rw [decoded, (sound_iff.1 h).2, below_dirents]
  rfl

/-- **One block.**  The dirents read from a block are those it was made from. -/
theorem direntBlock_decodes {ents : List DirentInfo} (hfit : ∀ de ∈ ents, de.Fits)
    (hlen : (direntBlock ents).length ≤ 65536) (hne : ents ≠ []) (k : ℕ) :
    blockDirents (direntBlock ents ++ List.replicate k nulByte) = ents := by
  refine List.ext_getElem? fun i => ?_
  rw [blockDirents, count_block hfit hlen hne, List.getElem?_map]
  by_cases hi : i < ents.length
  · have hde : ents[i]? = some ents[i] := List.getElem?_eq_getElem hi
    rw [List.getElem?_range hi, Option.map_some, direntInfoAt, name_block hfit hlen hde,
      direntAt_block hfit hlen hde, hde]
  · rw [List.getElem?_eq_none (by simpa using hi), List.getElem?_eq_none (by simpa using hi)]
    rfl

/-! ## A directory -/

namespace Image

variable {img : Image} {o : Req → Answer} {fi : Inode} {bl : List Bytes}

/-- The blocks of a directory whose content was written block by block. -/
theorem dirBlocks_eq (hc : img.HasContent o fi bl.flatten) (hbl : Blocked img.blockSize bl) :
    img.dirBlocks fi = bl.length := by
  have hiff : ∀ b, b < img.dirBlocks fi ↔ b < bl.length := fun b => by
    rw [lt_dirBlocks_iff, ← hc.size, hbl.length_iff img.blockSize_pos]
  have h1 := hiff (img.dirBlocks fi)
  have h2 := hiff bl.length
  omega

theorem dirBlock_eq {b : ℕ} {buf : Bytes} (hc : img.HasContent o fi bl.flatten)
    (hbl : Blocked img.blockSize bl) (hb : bl[b]? = some buf) :
    img.dirBlock o fi b = .ok buf := by
  have hlt : b < bl.length := (List.getElem?_eq_some_iff.1 hb).1
  rw [hc.block b (by rwa [dirBlocks_eq hc hbl]), hbl.block_flatten hb]

theorem entriesFrom_blocks {k b : ℕ} (hc : img.HasContent o fi bl.flatten)
    (hbl : Blocked img.blockSize bl) (hs : ∀ buf ∈ bl, DirBlock.Sound buf)
    (hbk : b + k = bl.length) :
    img.entriesFrom o fi k b = (bl.drop b).flatMap decoded := by
  induction k generalizing b with
  | zero =>
    rw [List.drop_of_length_le (by omega)]
    rfl
  | succ k ih =>
    have hb : b < bl.length := by omega
    rw [List.drop_eq_getElem_cons hb, List.flatMap_cons, ← ih (by omega),
      entriesFrom_ok (dirBlock_eq hc hbl (List.getElem?_eq_getElem hb)),
      if_pos (hs _ (List.getElem_mem hb))]

/-- `ReadDir(-1)` of content written as well-formed blocks lists them all. -/
theorem readDir_blocks {d : OpenDir} (hc : img.HasContent o fi bl.flatten)
    (hbl : Blocked img.blockSize bl) (hs : ∀ buf ∈ bl, DirBlock.Sound buf) (hk : img.Known o fi d)
    (hbn : d.bn = 0) (hcons : d.consumed = 0) :
    ((d.readDir img none).run o).2 = (bl.flatMap decoded, none) := by
  obtain ⟨hents, hclean⟩ :=
    readDir_all (hc.size ▸ hc.fits) (fun b hb => ⟨_, hc.block b hb⟩) hk hbn hcons
  refine Prod.ext ?_ (hclean.2 fun b hb => ?_)
  · rw [hents, dirEntries, dirBlocks_eq hc hbl, entriesFrom_blocks hc hbl hs (Nat.zero_add _),
      List.drop_zero]
  · rw [dirBlocks_eq hc hbl] at hb
    exact ⟨_, dirBlock_eq hc hbl (List.getElem?_eq_getElem hb), hs _ (List.getElem_mem hb)⟩

end Image

section Directory

variable {e : ErofsDir} {bs : ℕ}

/-- A directory of distinct children with names a dirent can have. -/
structure ErofsDir.Ok (e : ErofsDir) : Prop where
  distinct : (e.children.map (·.name)).Nodup
  fits : ∀ de ∈ e.children, de.Fits
  short : ∀ de ∈ e.children, de.name.length ≤ 255
  shown : ∀ de ∈ e.children, de.Shown
  nid : e.nid < 2 ^ 64
  parentNid : e.parentNid < 2 ^ 64

/-- The dirents of a directory in no order. -/
def ErofsDir.dirents (e : ErofsDir) : List DirentInfo :=
  ⟨dot, e.nid, fileTypeDir⟩ :: ⟨dotdot, e.parentNid, fileTypeDir⟩ :: e.children

theorem allEnts_perm : (allEnts e).Perm e.dirents := List.perm_insertionSort _ _

theorem namesOf_allEnts : namesOf (allEnts e) = direntNames e :=
  List.map_insertionSort _ _ _ _ fun _ _ _ _ => Iff.rfl

theorem validName_dot : ValidName dot := by decide

theorem validName_dotdot : ValidName dotdot := by decide

theorem ErofsDir.Ok.dirents_fits (h : e.Ok) :
    ∀ de ∈ e.dirents, de.Fits ∧ de.name.length ≤ 255 := by
  have htype : fileTypeDir < 256 := by decide
  have hdot : dot.length ≤ 255 := by decide
  have hdotdot : dotdot.length ≤ 255 := by decide
  intro de hde
  rcases List.mem_cons.1 hde with rfl | hde
  · exact ⟨⟨validName_dot, h.nid, htype⟩, hdot⟩
  rcases List.mem_cons.1 hde with rfl | hde
  · exact ⟨⟨validName_dotdot, h.parentNid, htype⟩, hdotdot⟩
  · exact ⟨h.fits de hde, h.short de hde⟩

theorem ErofsDir.Ok.names_nodup (h : e.Ok) : (namesOf e.dirents).Nodup := by
  have hdot : dot ∉ namesOf e.children := fun hm => by
    obtain ⟨de, hde, heq⟩ := List.mem_map.1 hm
    exact (h.shown de hde).1 heq
  have hdotdot : dotdot ∉ namesOf e.children := fun hm => by
    obtain ⟨de, hde, heq⟩ := List.mem_map.1 hm
    exact (h.shown de hde).2 heq
  refine List.nodup_cons.2 ⟨fun hm => ?_, List.nodup_cons.2 ⟨hdotdot, h.distinct⟩⟩
  rcases List.mem_cons.1 hm with heq | hm
  · exact absurd (show dot = dotdot from heq) (by decide)
  · exact hdot hm

/-- The dirents are sorted, and no two have one name. -/
theorem ErofsDir.Ok.ascending (h : e.Ok) : (allEnts e).Pairwise (·.name < ·.name) := by
  have hsorted : (namesOf (allEnts e)).Pairwise (· ≤ ·) := by
    rw [namesOf_allEnts]
    exact List.pairwise_insertionSort _ _
  have hnodup : (namesOf (allEnts e)).Nodup :=
    (allEnts_perm.map _).nodup_iff.2 h.names_nodup
  have hlt : (namesOf (allEnts e)).Pairwise (· < ·) :=
    (hsorted.and hnodup).imp fun hab => lt_of_le_of_ne hab.1 hab.2
  exact List.pairwise_map.1 hlt

/-- The dirents but `"."` and `".."` are the children. -/
theorem ErofsDir.Ok.shown_perm (h : e.Ok) :
    ((allEnts e).filter (·.Shown)).Perm e.children := by
  have hfilter : e.dirents.filter (·.Shown) = e.children := by
    rw [ErofsDir.dirents, List.filter_cons_of_neg (by simp [DirentInfo.Shown]),
      List.filter_cons_of_neg (by simp [DirentInfo.Shown])]
    exact List.filter_eq_self.2 fun de hde => decide_eq_true (h.shown de hde)
  exact hfilter ▸ allEnts_perm.filter _

/-- The blocks written for some entries are well formed and hold those entries. -/
theorem blocksOf_decode {cs : List (List DirentInfo)} (hbs : bs ≤ 65536)
    (h : ∀ c ∈ cs, (c ≠ [] ∧ (direntBlock c).length ≤ bs) ∧ ∀ de ∈ c, de.Fits) :
    (∀ buf ∈ blocksOf bs cs, DirBlock.Sound buf) ∧
      (blocksOf bs cs).flatMap blockDirents = cs.flatten := by
  induction cs with
  | nil => exact ⟨fun buf hbuf => absurd hbuf List.not_mem_nil, rfl⟩
  | cons c cs ih =>
    obtain ⟨⟨hne, hle⟩, hfit⟩ := h c List.mem_cons_self
    obtain ⟨hsound, hdirents⟩ := ih fun c' hc' => h c' (List.mem_cons_of_mem _ hc')
    obtain ⟨k, hk⟩ : ∃ k, blocksOf bs (c :: cs) =
        (direntBlock c ++ List.replicate k nulByte) :: blocksOf bs cs := by
      rw [blocksOf_cons]
      split_ifs
      · exact ⟨0, rfl⟩
      · exact ⟨_, rfl⟩
    rw [hk, List.flatMap_cons, List.flatten_cons, hdirents,
      direntBlock_decodes hfit (hle.trans hbs) hne]
    refine ⟨fun buf hbuf => ?_, rfl⟩
    rcases List.mem_cons.1 hbuf with rfl | hbuf
    · exact sound_block hfit (hle.trans hbs) hne
    · exact hsound buf hbuf

/-- The size given for a directory without children is that of its two dirents. -/
theorem calcBlocks_empty (hbs : 512 ≤ bs) : calcBlocks bs 2 [dot, dotdot] = 27 := by
  have hfit : fitBlock bs [dot, dotdot] 0 0 0 = (2, 27) := by
    have h1 : ¬ bs < (0 + 1) * Disk.sizeDirent + (0 + dot.length) := by
      rw [show (0 + 1) * Disk.sizeDirent + (0 + dot.length) = 13 from rfl]
      omega
    have h2 : ¬ bs < (0 + 1 + 1) * Disk.sizeDirent + (0 + dot.length + dotdot.length) := by
      rw [show (0 + 1 + 1) * Disk.sizeDirent + (0 + dot.length + dotdot.length) = 27 from rfl]
      omega
    rw [fitBlock, if_neg h1, fitBlock, if_neg h2]
    rfl
  have hnext : nextBlock bs [dot, dotdot] = (2, 27) := by
    rw [nextBlock, hfit]
    rfl
  rw [calcBlocks, hnext, if_neg (by simp)]
  simp [calcBlocks]

theorem calcDirentDataSize_eq (hbs : 512 ≤ bs) (e : ErofsDir) :
    calcDirentDataSize bs e = calcBlocks bs (direntNames e).length (direntNames e) := by
  rw [calcDirentDataSize]
  split_ifs with hempty
  · have hnames : direntNames e = [dot, dotdot] := by
      rw [direntNames, hempty]
      decide
    rw [hnames]
    exact (calcBlocks_empty hbs).symm
  · rfl

/-- The bytes written for a directory of block size `bs` have the predicted length, and the
directory is read back from them. -/
structure RoundTrip (bs : ℕ) (e : ErofsDir) : Prop where
  length : (writeDirents bs e).length = calcDirentDataSize bs e
  /-- They are blocks, all whole but the last, each well formed on its own, whose dirents in
  ascending order are the children and the two that name the directory and its parent. -/
  blocks : ∃ bl : List Bytes, Blocked bs bl ∧ bl.flatten = writeDirents bs e ∧
    (∀ buf ∈ bl, DirBlock.Sound buf) ∧ (bl.flatMap blockDirents).Pairwise (·.name < ·.name) ∧
    (bl.flatMap blockDirents).Perm e.dirents
  /-- `ReadDir(-1)` on any image that holds them lists the children in ascending order. -/
  listed : ∀ (img : Image) (o : Req → Answer) (fi : Inode) (d : OpenDir), img.blockSize = bs →
    img.HasContent o fi (writeDirents bs e) → img.Known o fi d → d.bn = 0 → d.consumed = 0 →
    ∃ cs : List DirentInfo, cs.Perm e.children ∧ cs.Pairwise (·.name < ·.name) ∧
      ((d.readDir img none).run o).2 = (cs.map DirentInfo.entry, none)

/-- **Directories round trip.**  For every block size and every set of distinct children the bytes
`writeDirents` emits have the length `calcDirentDataSize` predicts and are decoded to them. -/
theorem dirents_roundTrip {bits : ℕ} (hlo : 9 ≤ bits) (hhi : bits ≤ 16) (h : e.Ok) :
    RoundTrip (2 ^ bits) e := by
  have h512 : 512 ≤ 2 ^ bits := Nat.pow_le_pow_right Nat.two_pos hlo
  have h65536 : 2 ^ bits ≤ 65536 := Nat.pow_le_pow_right Nat.two_pos hhi
  generalize 2 ^ bits = bs at h512 h65536 ⊢
  have hall : ∀ de ∈ allEnts e, de.Fits ∧ de.name.length ≤ 255 := fun de hde =>
    h.dirents_fits de (allEnts_perm.mem_iff.1 hde)
  have hshort : ∀ de ∈ allEnts e, de.name.length ≤ 255 := fun de hde => (hall de hde).2
  have hflat := @pack_flatten bs (allEnts e).length (allEnts e) h512 hshort le_rfl
  have hfits := @pack_fits bs (allEnts e).length (allEnts e) h512 hshort
  have hbytes : (blocksOf bs (pack bs (allEnts e).length (allEnts e))).flatten =
      writeDirents bs e := (writeBlocks_eq h512 hshort le_rfl).symm
  generalize pack bs (allEnts e).length (allEnts e) = cs at hflat hfits hbytes
  have hblocked := blocked_blocksOf hfits
  obtain ⟨hsound, hdirents⟩ := blocksOf_decode h65536 fun c hc => ⟨hfits c hc, fun de hde =>
    (hall de (hflat ▸ List.mem_flatten_of_mem hc hde)).1⟩
  rw [hflat] at hdirents
  refine ⟨?_, ⟨blocksOf bs cs, hblocked, hbytes, hsound, ?_, ?_⟩, ?_⟩
  · rw [calcDirentDataSize_eq h512, ← namesOf_allEnts, calcBlocks_eq h512 hshort, namesOf,
      List.length_map]
    rfl
  · rw [hdirents]
    exact h.ascending
  · rw [hdirents]
    exact allEnts_perm
  · rintro img o fi d rfl hc hk hbn hcons
    refine ⟨(allEnts e).filter (·.Shown), h.shown_perm, h.ascending.filter _, ?_⟩
    rw [Image.readDir_blocks (hbytes ▸ hc) hblocked hsound hk hbn hcons, ← hdirents,
      List.filter_flatMap, List.map_flatMap]
    congr 1
    exact List.flatMap_congr fun buf hbuf => decoded_dirents (hsound buf hbuf)

/-- The root of the image with one file, as the writer has it. -/
def oneFileDir : ErofsDir := ⟨0, 0, [⟨[97], 4, 1⟩]⟩

/-- A directory of three children, the first two with names of half a block. -/
def twoBlockDir : ErofsDir :=
  ⟨36, 0, [⟨List.replicate 250 98, 41, 1⟩, ⟨List.replicate 250 97, 40, 2⟩, ⟨[99], 42, 7⟩]⟩

/-- The root of the image with one file is written as that image has it, and read back; and so is a
directory that takes two blocks, the first of them padded. -/
theorem twoBlocks_roundTrip : 9 ≤ 9 ∧ 9 ≤ 16 ∧ oneFileDir.Ok ∧ RoundTrip (2 ^ 9) oneFileDir ∧
    writeDirents (2 ^ 9) oneFileDir = Image.oneFileDirents ∧
    twoBlockDir.Ok ∧ RoundTrip (2 ^ 9) twoBlockDir ∧
    (pack (2 ^ 9) 5 (allEnts twoBlockDir)).map List.length = [3, 2] ∧
    calcDirentDataSize (2 ^ 9) twoBlockDir = 512 + 275 := by
  have hone : oneFileDir.Ok := by
    refine ⟨by decide, ?_, by decide, by decide, by decide, by decide⟩
    intro de hde
    obtain rfl := List.mem_singleton.1 hde
    exact ⟨by decide, by decide, by decide⟩
  have htwo : twoBlockDir.Ok := by
    refine ⟨by decide +kernel, ?_, by decide +kernel, by decide +kernel, by decide, by decide⟩
    intro de hde
    obtain rfl | hde := List.mem_cons.1 hde
    · exact ⟨by decide +kernel, by decide, by decide⟩
    obtain rfl | hde := List.mem_cons.1 hde
    · exact ⟨by decide +kernel, by decide, by decide⟩
    obtain rfl := List.mem_singleton.1 hde
    exact ⟨by decide +kernel, by decide, by decide⟩
  exact ⟨le_rfl, by decide, hone, dirents_roundTrip le_rfl (by decide) hone, by decide +kernel,
    htwo, dirents_roundTrip le_rfl (by decide) htwo, by decide +kernel, by decide +kernel⟩

end Directory

end Erofs
