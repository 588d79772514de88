import Mathlib

/-!
# On-disk constants and modes

The sizes and bit patterns of `internal/disk/types.go` and
`internal/disk/ftypes.go`, and the mode conversions of `format.go`.  An inode mode
is the 16-bit `i_mode`; an `fs.FileMode` is Go's 32-bit mode.
-/

namespace Erofs

/-! ## Sizes -/

namespace Disk

def superBlockOffset : ℕ := 1024
def sizeSuperBlock : ℕ := 128
def sizeInodeCompact : ℕ := 32
def sizeInodeExtended : ℕ := 64
def sizeDirent : ℕ := 12
def sizeXattrBodyHeader : ℕ := 12
def sizeXattrEntry : ℕ := 4
def sizeDeviceSlot : ℕ := 128
def sizeChunkIndex : ℕ := 8
end Disk

/-! ## Inode modes -/

/-- `i_mode`: a type in the top four bits, permissions below. -/
abbrev Mode := BitVec 16

namespace Mode

/-- `StatTypeMask`. -/
def typeMask : Mode := 0o170000#16
def reg : Mode := 0o100000#16
def dir : Mode := 0o040000#16
def chrdev : Mode := 0o020000#16
def blkdev : Mode := 0o060000#16
def fifo : Mode := 0o010000#16
def sock : Mode := 0o140000#16
def symlink : Mode := 0o120000#16
def isUID : Mode := 0o004000#16
def isGID : Mode := 0o002000#16
def isVTX : Mode := 0o001000#16

/-- `mode & disk.StatTypeMask`. -/
def typ (m : Mode) : Mode := m &&& typeMask

/-- The type bits `typ` and the other bits of `perm`. -/
def withPerm (m perm : Mode) : Mode := typ m ||| (perm &&& ~~~typeMask)

/-- Replacing the permission bits keeps the type. -/
@[simp] theorem typ_withPerm (m perm : Mode) : typ (withPerm m perm) = typ m := by
  ext i hi
  simp only [typ, withPerm, BitVec.getElem_and, BitVec.getElem_or, BitVec.getElem_not]
  cases m[i] <;> cases perm[i] <;> cases typeMask[i] <;> rfl

end Mode

/-! ## Go modes -/

/-- `fs.FileMode`. -/
abbrev FileMode := BitVec 32

namespace FileMode

def dir : FileMode := 0x80000000#32
def symlink : FileMode := 0x08000000#32
def device : FileMode := 0x04000000#32
def namedPipe : FileMode := 0x02000000#32
def socket : FileMode := 0x01000000#32
def setuid : FileMode := 0x00800000#32
def setgid : FileMode := 0x00400000#32
def charDevice : FileMode := 0x00200000#32
def sticky : FileMode := 0x00100000#32
def irregular : FileMode := 0x00080000#32

/-- `fs.ModePerm`. -/
def perm : FileMode := 0o777#32

/-- `fs.ModeType`. -/
def typeBits : FileMode :=
  dir ||| symlink ||| namedPipe ||| socket ||| device ||| charDevice ||| irregular

/-- `m.Type()`. -/
def typ (m : FileMode) : FileMode := m &&& typeBits

/-- `m&bit != 0`. -/
def has (m bit : FileMode) : Bool := m &&& bit != 0

/-- `m.IsRegular()`. -/
def isRegular (m : FileMode) : Bool := typ m == 0

/-- `m.IsDir()`. -/
def isDir (m : FileMode) : Bool := m.has dir

end FileMode

/-- The type bits `goModeToUnixMode` gives a Go type; a combination no `FileInfo` produces,
`fs.ModeIrregular` among them, carries none. -/
def unixType (t : FileMode) : Mode :=
  if t = 0 then Mode.reg
  else if t = FileMode.dir then Mode.dir
  else if t = FileMode.symlink then Mode.symlink
  else if t = FileMode.device ||| FileMode.charDevice then Mode.chrdev
  else if t = FileMode.device then Mode.blkdev
  else if t = FileMode.namedPipe then Mode.fifo
  else if t = FileMode.socket then Mode.sock
  else 0

/-- `goModeToUnixMode`. -/
def goModeToUnixMode (m : FileMode) : Mode :=
  (m &&& FileMode.perm).truncate 16
    ||| (if m.has FileMode.setuid then Mode.isUID else 0)
    ||| (if m.has FileMode.setgid then Mode.isGID else 0)
    ||| (if m.has FileMode.sticky then Mode.isVTX else 0)
    ||| unixType m.typ

/-- `EroFSModeToGoFileMode`; an unknown type is irregular. -/
def eroFSModeToGoFileMode (m : Mode) : FileMode :=
  (m.setWidth 32 &&& FileMode.perm)
    ||| (if m.typ = Mode.reg then 0
      else if m.typ = Mode.dir then FileMode.dir
      else if m.typ = Mode.chrdev then FileMode.device ||| FileMode.charDevice
      else if m.typ = Mode.blkdev then FileMode.device
      else if m.typ = Mode.fifo then FileMode.namedPipe
      else if m.typ = Mode.sock then FileMode.socket
      else if m.typ = Mode.symlink then FileMode.symlink
      else FileMode.irregular)
    ||| (if m &&& Mode.isUID != 0 then FileMode.setuid else 0)
    ||| (if m &&& Mode.isGID != 0 then FileMode.setgid else 0)
    ||| (if m &&& Mode.isVTX != 0 then FileMode.sticky else 0)

/-- Only a symlink has the Go mode's symlink bit. -/
theorem has_symlink_of_ne {m : Mode} (h : m.typ ≠ Mode.symlink) :
    (eroFSModeToGoFileMode m).has FileMode.symlink = false := by
  have hperm : (m.setWidth 32 &&& FileMode.perm) &&& FileMode.symlink = 0 := by
    rw [BitVec.and_assoc, show FileMode.perm &&& FileMode.symlink = 0 from rfl]
    exact BitVec.and_zero
  have hzero : ∀ (p : Prop) [Decidable p] (b : FileMode), b &&& FileMode.symlink = 0 →
      (if p then b else 0) &&& FileMode.symlink = 0 := by
    intro p _ b hb
    split_ifs
    · exact hb
    · rfl
  have hor : ∀ a b : FileMode, a &&& FileMode.symlink = 0 → b &&& FileMode.symlink = 0 →
      (a ||| b) &&& FileMode.symlink = 0 := by
    intro a b ha hb
    rw [BitVec.and_comm, BitVec.and_or_distrib_left, BitVec.and_comm, ha, BitVec.and_comm, hb]
    rfl
  rw [FileMode.has, bne_eq_false_iff_eq, eroFSModeToGoFileMode]
  refine hor _ _ (hor _ _ (hor _ _ (hor _ _ hperm ?_) (hzero _ _ rfl)) (hzero _ _ rfl))
    (hzero _ _ rfl)
  rw [if_neg h]
  split_ifs <;> rfl

/-- `EroFSFtypeToFileMode`: the type bits of a dirent's file type. -/
def eroFSFtypeToFileMode (ftype : ℕ) : FileMode :=
  match ftype with
  | 2 => FileMode.dir
  | 3 => FileMode.device ||| FileMode.charDevice
  | 4 => FileMode.device
  | 5 => FileMode.namedPipe
  | 6 => FileMode.socket
  | 7 => FileMode.symlink
  | _ => 0

/-- `RdevFromMode`: only a device node stores a device number in `i_u`. -/
def rdevFromMode (m : Mode) (inodeData : ℕ) : ℕ :=
  if m.typ = Mode.chrdev ∨ m.typ = Mode.blkdev then inodeData else 0

/-- `modeToFileType`: the dirent file type of a mode, zero for a type the format lacks. -/
def modeToFileType (m : Mode) : ℕ :=
  if m.typ = Mode.reg then 1
  else if m.typ = Mode.dir then 2
  else if m.typ = Mode.chrdev then 3
  else if m.typ = Mode.blkdev then 4
  else if m.typ = Mode.fifo then 5
  else if m.typ = Mode.sock then 6
  else if m.typ = Mode.symlink then 7
  else 0

end Erofs
