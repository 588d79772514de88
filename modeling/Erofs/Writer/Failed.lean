import Erofs.Writer.Calls

/-!
# Calls that fail

A call that returns an error should leave the tree as it was.  The methods that make, change and
remove entries check before they act, so that a check's error is returned with the Writer
untouched; `Create` alone does something that may fail, the opening of its store, after its entry
and the directories above it have been registered.

The main results:

* `Untouched.call` — a call that fails has touched nothing, unless it is such a `Create`;
* `failed_call_iff` — the tree is left alone by the calls that fail, just when no `Create` has
  passed its checks and found its store failing;
* `createFile_halfMade` — what remains after a spool could not be made.
-/

namespace Erofs

open GoPath

namespace Writer

variable {w w' : Writer} {r : Result}

/-! ## Calls that touch nothing -/

/-- An error leaves the Writer as it was. -/
def Untouched (w : Writer) (r : Result) : Prop := r.2 ≠ none → r.1 = w

namespace Untouched

theorem ok (w w' : Writer) : Untouched w (w', none) := fun h => absurd rfl h

theorem same (w : Writer) (e : Option GoError) : Untouched w (w, e) := fun _ => rfl

theorem unlessFailed (h : Untouched w r) : Untouched w (w.unlessFailed r) := by
  unfold Writer.unlessFailed
  cases w.wErr with
  | some e => exact same w (some e)
  | none => exact h

theorem check {α : Type} {c : Except GoError α} {f : α → Result}
    (h : ∀ a, c = .ok a → Untouched w (f a)) : Untouched w (w.check c f) := by
  obtain ⟨e, he⟩ | ⟨a, ha, he⟩ := w.check_cases c f
  · rw [he]
    exact same w (some e)
  · rw [he]
    exact h a ha

theorem ite {p : Prop} [Decidable p] {r' : Result} (h : p → Untouched w r)
    (h' : ¬ p → Untouched w r') : Untouched w (if p then r else r') := by
  split_ifs with hp
  · exact h hp
  · exact h' hp

theorem addNew (w : Writer) (e : FsEntry) : Untouched w (w.addNew e) :=
  check fun _ _ => check fun _ _ => ok _ _

theorem mkdir (w : Writer) (name : Bytes) (perm : FileMode) : Untouched w (w.mkdir name perm) :=
  unlessFailed (ite (fun _ => ok _ _) fun _ => addNew _ _)

theorem symlink (w : Writer) (oldname newname : Bytes) :
    Untouched w (w.symlink oldname newname) :=
  unlessFailed (ite (fun _ => same _ _) fun _ => check fun _ _ => addNew _ _)

theorem link (w : Writer) (oldname newname : Bytes) : Untouched w (w.link oldname newname) := by
  refine unlessFailed (ite (fun _ => same _ _) fun _ => ?_)
  cases w.byPath (cleanPath oldname) with
  | none => exact same _ _
  | some e => exact ite (fun _ => same _ _) fun _ => check fun _ _ => check fun _ _ => ok _ _

theorem mknod (w : Writer) (name : Bytes) (mode : FileMode) (rdev : ℕ) :
    Untouched w (w.mknod name mode rdev) := by
  refine unlessFailed (ite (fun _ => same _ _) fun _ => check fun _ _ => ?_)
  dsimp only
  cases nodeRdev (goModeToUnixMode mode).typ rdev with
  | none => exact same _ _
  | some rdev => exact check fun _ _ => ok _ _

theorem setMeta (w : Writer) (name : Bytes) (f : FsEntry → FsEntry) :
    Untouched w (w.setMeta name f) := unlessFailed (check fun _ _ => ok _ _)

theorem chown (w : Writer) (name : Bytes) (uid gid : Int) :
    Untouched w (w.chown name uid gid) := by
  refine unlessFailed (check fun e _ => ?_)
  cases checkOwner uid gid with
  | error err => exact same _ _
  | ok owner => exact ok _ _

theorem setxattr (w : Writer) (name attr value : Bytes) :
    Untouched w (w.setxattr name attr value) :=
  unlessFailed (check fun _ _ => check fun _ _ => ok _ _)

theorem remove (w : Writer) (name : Bytes) : Untouched w (w.remove name) := by
  refine unlessFailed (ite (fun _ => same _ _) fun _ => ?_)
  cases w.byPath (cleanPath name) with
  | none => exact same _ _
  | some e => exact check fun _ _ => ite (fun _ => same _ _) fun _ => ok _ _

theorem removeAll (w : Writer) (name : Bytes) : Untouched w (w.removeAll name) := by
  refine unlessFailed (ite (fun _ => same _ _) fun _ => ?_)
  cases w.byPath (cleanPath name) with
  | none => exact ite (fun _ => same _ _) fun _ => same _ _
  | some e =>
    dsimp only
    cases w.openFile.filter fun f => w.inSubtreeOf e w.next (w.files f).entry with
    | some f => exact check fun _ _ => same _ _
    | none => exact ok _ _

end Untouched

/-! ## The store of `Create` -/

/-- The store `Create` opens fails: the data file cannot be padded, or the spool not made. -/
def storeFails (w : Writer) (pad : WriteAnswer) (temp : Option GoError) : Bool :=
  if w.dataFile.isSome then
    w.dataOff % w.resolveBlockSize.blockSize ≠ 0 && pad.err.isSome
  else w.spool.isNone && temp.isSome

/-- The store is no part of the tree. -/
theorem storeFails_bare (w : Writer) (pad : WriteAnswer) (temp : Option GoError) :
    w.bare.storeFails pad temp = w.storeFails pad temp := by
  have hbs : w.bare.resolveBlockSize.blockSize = w.resolveBlockSize.blockSize := by
    unfold resolveBlockSize
    show (if w.blockSize = 0 then _ else _ : Writer).blockSize = _
    split_ifs <;> rfl
  unfold storeFails
  rw [hbs]
  rfl

/-- What is opened for the entry, and when it is not. -/
theorem openStore_error (w : Writer) (e : EntryId) (pad : WriteAnswer) (temp : Option GoError) :
    (w.openStore e pad temp).2 = none ↔ w.storeFails pad temp = false := by
  unfold openStore storeFails
  by_cases hdata : w.dataFile.isSome = true
  · have hnone : w.dataFile.isNone = false := by simpa using hdata
    have hoff : w.resolveBlockSize.dataOff = w.dataOff := by
      unfold resolveBlockSize
      split_ifs <;> rfl
    rw [if_pos hdata, if_pos hdata, alignDataOff, hnone, if_neg (by simp), padData, hoff]
    by_cases halign : w.dataOff % w.resolveBlockSize.blockSize = 0
    · simp [halign, Result.andThen]
    · rw [if_neg halign]
      cases pad.err <;> simp [halign, Result.andThen]
  · rw [if_neg hdata, if_neg hdata]
    unfold ensureSpool
    cases w.spool <;> cases temp <;> simp [Result.andThen]

theorem bare_ensureParent {p : Path} (h : w.ensureParent p = .ok w') : w'.bare = w.bare := by
  unfold ensureParent at h
  cases hm : w.missingParents p.length (dir p) with
  | error e =>
    rw [hm] at h
    cases h
  | ok missing =>
    rw [hm] at h
    obtain rfl := Except.ok.inj h
    exact bare_foldl (f := fun w d => w.addChild (implicitDir d)) (fun _ _ => rfl) _ w

/-- The checks of `Create`, which leave it with the directory of its entry made. -/
structure CreatePasses (w : Writer) (name : Bytes) (w' : Writer) : Prop where
  noError : w.wErr = none
  noOpenFile : w.openFile = none
  notRoot : cleanPath name ≠ []
  checked : w.checkPath (cleanPath name) = .ok ()
  parent : w.ensureParent (cleanPath name) = .ok w'

/-- What `Create` does after its checks. -/
theorem CreatePasses.createFile {name : Bytes} (h : CreatePasses w name w') (pad : WriteAnswer)
    (temp : Option GoError) :
    w.createFile name pad temp =
      (w'.addChild { path := cleanPath name, mode := Mode.reg ||| 0o644#16 }).openStore w'.next pad
        temp := by
  unfold Writer.createFile unlessFailed checkNoOpenFile
  rw [h.noError, h.noOpenFile]
  dsimp only [check]
  rw [if_neg h.notRoot, h.checked, h.parent]

/-- `Create` has touched nothing when it fails before its store. -/
theorem Untouched.createFile {name : Bytes} (pad : WriteAnswer) (temp : Option GoError)
    (h : ∀ w', CreatePasses w name w' → w.storeFails pad temp = false) :
    Untouched w (w.createFile name pad temp) := by
  cases herr : w.wErr with
  | some e =>
    unfold Writer.createFile Writer.unlessFailed
    rw [herr]
    exact same w (some e)
  | none =>
    refine unlessFailed (check fun _ hopen => ite (fun _ => same _ _) fun hroot =>
      check fun u hfree => check fun w' hok hfail => ?_)
    have hnone : w.openFile = none := by
      unfold checkNoOpenFile at hopen
      cases hf : w.openFile with
      | none => rfl
      | some f =>
        rw [hf] at hopen
        cases hopen
    have hstore := h w' ⟨herr, hnone, hroot, hfree, hok⟩
    refine absurd ((openStore_error _ _ pad temp).2 ?_) hfail
    rw [← storeFails_bare, bare_addChild, bare_ensureParent hok, storeFails_bare, hstore]

/-! ## What a caller sees of the tree -/

/-- What a path stands for: its inode, the inode's type, metadata and data, and the link count
`Close` will write. -/
def view (w : Writer) (p : Path) : Option (EntryId × FsEntry × ℕ) :=
  (w.byPath p).map fun e =>
    (w.resolve e, w.ent (w.resolve e), w.linkCount (w.ent (w.resolve e)))

/-- The methods that make, change and remove entries. -/
def Call.onEntries : Call → Bool
  | .createFile .. | .mkdir .. | .symlink .. | .link .. | .mknod .. | .chmod .. | .chown ..
  | .chtimes .. | .setxattr .. | .setNlink .. | .remove .. | .removeAll .. => true
  | _ => false

/-- A `Create` that passes its checks and finds its store failing. -/
def CreateFails (w : Writer) (c : Call) : Prop :=
  ∃ name pad temp w', c = .createFile name pad temp ∧ CreatePasses w name w' ∧
    w.storeFails pad temp = true

/-- A call that fails has touched nothing, unless it is a `Create` whose store failed. -/
theorem Untouched.call {c : Call} (hc : c.onEntries = true) (h : ¬ CreateFails w c) :
    Untouched w (w.call c) := by
  cases c with
  | createFile name pad temp =>
    refine createFile pad temp fun w' hpass => Bool.eq_false_iff.2 fun hstore => h ?_
    exact ⟨name, pad, temp, w', rfl, hpass, hstore⟩
  | mkdir name perm => exact mkdir w name perm
  | symlink oldname newname => exact symlink w oldname newname
  | link oldname newname => exact link w oldname newname
  | mknod name mode rdev => exact mknod w name mode rdev
  | chmod name mode => exact setMeta w name _
  | chown name uid gid => exact chown w name uid gid
  | chtimes name atime mtime => exact setMeta w name _
  | setxattr name attr value => exact setxattr w name attr value
  | setNlink name nlink => exact setMeta w name _
  | remove name => exact remove w name
  | removeAll name => exact removeAll w name
  | copyFrom | copyImage | fileWrite | fileReadFrom | fileClose | fileChmod | fileChown | close =>
    cases hc

/-- The entry of a `Create` whose store failed is registered. -/
theorem CreateFails.registered {c : Call} (h : CreateFails w c) :
    (w.call c).2 ≠ none ∧ ∃ p, w.view p = none ∧ (w.call c).1.view p ≠ none := by
  obtain ⟨name, pad, temp, w', rfl, hpass, hstore⟩ := h
  show (w.createFile name pad temp).2 ≠ none ∧ _
  show _ ∧ ∃ p, _ ∧ (w.createFile name pad temp).1.view p ≠ none
  rw [hpass.createFile]
  refine ⟨fun hnone => ?_, cleanPath name, ?_, ?_⟩
  · have hfalse := (openStore_error _ _ pad temp).1 hnone
    rw [← storeFails_bare, bare_addChild, bare_ensureParent hpass.parent, storeFails_bare,
      hstore] at hfalse
    cases hfalse
  · rw [view, checkPath_free hpass.checked]
    rfl
  · have hsame := SameCopy.openStore
      (w'.addChild { path := cleanPath name, mode := Mode.reg ||| 0o644#16 }) w'.next pad temp
    rw [view, hsame.byPath]
    simp [addChild]

/-- **Failed calls.**  Every call on the entries that returns an error leaves the paths, their
inodes and the link counts as they were, just when it is no `Create` that has passed its checks and
found its store failing. -/
theorem failed_call_iff (w : Writer) {c : Call} (hc : c.onEntries = true) :
    ((w.call c).2 ≠ none → (w.call c).1.view = w.view) ↔ ¬ CreateFails w c := by
  refine ⟨fun h hfails => ?_, fun h herr => ?_⟩
  · obtain ⟨herr, p, hbefore, hafter⟩ := hfails.registered
    rw [h herr] at hafter
    exact hafter hbefore
  · rw [Untouched.call hc h herr]

/-- The call that fails below: `Create("a/b")` where the spool cannot be made. -/
def spoolLess : Call :=
  .createFile (ascii ['a', '/', 'b']) ⟨0, none⟩ (some ⟨"no space left on device", [], .external⟩)

/-- The call returns an error, and `a` and `a/b` are there. -/
theorem createFile_halfMade :
    ((create {}).call spoolLess).2 ≠ none ∧
      (create {}).view [ascii ['a']] = none ∧
      ((create {}).call spoolLess).1.view [ascii ['a']] ≠ none ∧
      ((create {}).call spoolLess).1.view [ascii ['a'], ascii ['b']] ≠ none ∧
      ((create {}).call spoolLess).1.view ≠ (create {}).view := by
  have hbefore : (create {}).view [ascii ['a']] = none := by decide
  have hafter : ((create {}).call spoolLess).1.view [ascii ['a']] ≠ none := by decide
  refine ⟨by decide, hbefore, hafter, by decide, fun h => hafter ?_⟩
  rw [h]
  exact hbefore

/-- A directory made where there is one: the error leaves the tree alone. -/
theorem mkdir_twice :
    (((create {}).run [.mkdir (ascii ['a']) 0o755#32]).call (.mkdir (ascii ['a']) 0#32)).2 ≠ none ∧
      (((create {}).run [.mkdir (ascii ['a']) 0o755#32]).call (.mkdir (ascii ['a']) 0#32)).1.view =
        ((create {}).run [.mkdir (ascii ['a']) 0o755#32]).view := by
  have herr : (((create {}).run [.mkdir (ascii ['a']) 0o755#32]).call
      (.mkdir (ascii ['a']) 0#32)).2 ≠ none := by decide
  refine ⟨herr, (failed_call_iff _ rfl).2 ?_ herr⟩
  rintro ⟨_, _, _, _, hcall, -⟩
  cases hcall

end Writer

end Erofs
