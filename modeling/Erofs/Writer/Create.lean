import Erofs.Writer.Copy
import Erofs.Writer.Copying

/-!
# A new Writer

`Create` (`mkfs.go`), and the invariant a Writer has between two calls.
-/

namespace Erofs

open GoPath PathTree

/-- `createOptions`.  `dataFile` holds the bytes the data file has, and `seek` is what its
`Seek` to the end answers. -/
structure CreateOpts where
  blockSize : Int := 0
  buildTime : ℕ := 0
  buildTimeNs : ℕ := 0
  hasBuildTime : Bool := false
  noInlineData : Bool := false
  dataFile : Option Bytes := none
  seek : ℕ × Option GoError := (0, none)

namespace Writer

variable {w w' : Writer}

/-- A Writer between two calls: every registered name is in the tree, and an entry that is no
directory has no child left. -/
structure WellFormed (w : Writer) : Prop where
  tree : Tree w w.byPath
  files : ∀ {p i}, w.byPath p = some i → (w.ent i).isDir = false →
    ∀ c ∈ (w.ent i).children, (w.ent c).removed = true
  aliases : ∀ {p i t}, w.byPath p = some i → (w.ent i).linkTo = some t →
    ∀ c ∈ (w.ent t).children, (w.ent c).removed = true

theorem WellFormed.settled (h : WellFormed w) : w.Settled w.byPath [] :=
  fun _ _ _ hq => h.tree.regLive hq

/-- The image shows the registered names. -/
theorem WellFormed.live_iff (h : WellFormed w) {p : Path} :
    w.Live p ↔ (w.byPath p).isSome = true := h.tree.live_iff h.settled

/-- Data and metadata do not matter to the invariant. -/
theorem SameTree.wellFormed (s : SameTree w w') (h : WellFormed w) : WellFormed w' where
  tree := by
    rw [s.byPath]
    exact s.tree h.tree
  files {p i} hp hd c hc := by
    rw [s.byPath] at hp
    rw [(s.node i).isDir] at hd
    rw [(s.node i).children] at hc
    rw [(s.node c).removed]
    exact h.files hp hd c hc
  aliases {p i t} hp hl c hc := by
    rw [s.byPath] at hp
    rw [(s.node i).linkTo] at hl
    rw [(s.node t).children] at hc
    rw [(s.node c).removed]
    exact h.aliases hp hl c hc

/-! ## `Create` -/

/-- The root of a new Writer. -/
def newRoot : FsEntry := { path := [], mode := Mode.dir ||| 0o755#16 }

/-- The `Writer` literal of `Create`. -/
def newWriter (o : CreateOpts) : Writer where
  ent := fun _ => newRoot
  next := 1
  root := 0
  byPath := fun p => if p = [] then some 0 else none
  buildTime := o.buildTime
  buildTimeNs := o.buildTimeNs
  hasBuildTime := o.hasBuildTime
  noInlineData := o.noInlineData
  dataFile := o.dataFile

/-- `Create` with a block size: a bad one is reported by the first call. -/
def withBlockSize (w : Writer) (n : Int) : Writer :=
  if n = 0 then w
  else
    match w.setBlockSize n with
    | .error e => { w with wErr := some e }
    | .ok w => w

/-- `Create` with a data file: device slot 0 is its own. -/
def withDataFile (w : Writer) (o : CreateOpts) : Writer :=
  if o.dataFile.isNone then w
  else
    { w with
      devices := w.devices ++ [0]
      wErr := (o.seek.2.map (·.wrap "mkfs: seek data file: %w" [])).or w.wErr
      dataOff := o.seek.1 }

/-- `Create`. -/
def create (o : CreateOpts) : Writer := ((newWriter o).withBlockSize o.blockSize).withDataFile o

theorem wellFormed_newWriter (o : CreateOpts) : WellFormed (newWriter o) := by
  have hreg : ∀ {p i}, (newWriter o).byPath p = some i → p = [] ∧ i = 0 := by
    intro p i hp
    have hp : (if p = [] then some 0 else none : Option EntryId) = some i := hp
    split_ifs at hp with h
    exact ⟨h, (Option.some.inj hp).symm⟩
  have hnone : ∀ t, (newWriter o).aliases t = ∅ := by
    intro t
    refine Finset.filter_eq_empty_iff.2 fun i _ hi => ?_
    cases hi.2
  have hdir : newRoot.isDir = true := by decide
  refine ⟨?_, fun _ hd => absurd (hdir.symm.trans hd) (by simp),
    fun _ hl => absurd hl (by simp [newWriter, newRoot])⟩
  constructor
  case rootAt => rfl
  case rootDir => exact hdir
  case rootLive => rfl
  case nodePath => exact fun hp => (hreg hp).1.symm
  case nodeLt => exact fun hp => (hreg hp).2 ▸ Nat.one_pos
  case canonical => exact fun hp e he => absurd he (by simp [(hreg hp).1])
  case parentOf => exact fun hp hne => absurd (hreg hp).1 hne
  case childOf => exact fun _ _ hc => absurd hc (by simp [newWriter, newRoot])
  case live => exact fun hp _ => hp
  case pending => exact fun _ hr => absurd hr (by simp [newWriter, newRoot])
  case dirPlain => exact fun _ _ => ⟨rfl, rfl⟩
  case count => exact fun _ => by rw [hnone]; rfl
  case regPath => exact fun hp => (hreg hp).1.symm
  case regLt => exact fun hp => (hreg hp).2 ▸ Nat.one_pos
  case regLive => exact fun _ => rfl
  case aliasOf => exact fun _ hl => absurd hl (by simp [newWriter, newRoot])
  case kidsLt => exact fun _ _ hc => absurd hc (by simp [newWriter, newRoot])
  case kidsNodup => exact fun _ => List.nodup_nil

theorem SameTree.withBlockSize (w : Writer) (n : Int) : SameTree w (w.withBlockSize n) := by
  unfold Writer.withBlockSize setBlockSize
  by_cases hn : n = 0
  · rw [if_pos hn]
    exact .refl w
  · rw [if_neg hn]
    split_ifs <;> exact ⟨rfl, rfl, rfl, fun _ => .refl _⟩

theorem SameTree.withDataFile (w : Writer) (o : CreateOpts) : SameTree w (w.withDataFile o) := by
  unfold Writer.withDataFile
  split_ifs <;> exact ⟨rfl, rfl, rfl, fun _ => .refl _⟩

/-- A new Writer is well formed, whatever the options. -/
theorem wellFormed_create (o : CreateOpts) : WellFormed (create o) :=
  (SameTree.withDataFile _ o).wellFormed
    ((SameTree.withBlockSize _ o.blockSize).wellFormed (wellFormed_newWriter o))

end Writer

end Erofs
