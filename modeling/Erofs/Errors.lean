import Erofs.GoPath

/-!
# Errors

The errors of the package (`erofs.go`, `mkfs.go`).  An error is kept as the
source writes it, its format text and the values put into it, together with the
sentinel at the end of its `%w` chain, which is what `errors.Is` looks for.
-/

namespace Erofs

open GoPath

/-- The sentinels `errors.Is` is asked about.  `external` stands for an error that a
reader, a writer or the operating system handed in and that is passed through. -/
inductive Sentinel
  | exist | notExist | invalid | closed | corrupt | notImplemented | notDirectory
  | isDirectory | loop | dirNotEmpty | fileOpen | eof | unexpectedEOF | metaOverrun | external
  deriving DecidableEq, Repr

/-- A value formatted into an error text. -/
inductive Arg
  | path (p : Path)
  | bytes (b : Bytes)
  | int (n : Int)
  | text (s : String)
  deriving DecidableEq

/-- An error: the text of its `fmt.Errorf`, the values in it and the wrapped sentinel. -/
structure GoError where
  format : String
  args : List Arg
  sentinel : Sentinel
  deriving DecidableEq

/-- `fmt.Errorf(format, args..., sentinel)`. -/
def errorf (format : String) (args : List Arg) (s : Sentinel) : GoError := ⟨format, args, s⟩

/-- `&fs.PathError{Op: op, Path: p, Err: s}`. -/
def pathError (op : String) (p : Path) (s : Sentinel) : GoError := ⟨op, [.path p], s⟩

/-- `fmt.Errorf(format, args..., err)`: the chain of `err` is kept. -/
def GoError.wrap (err : GoError) (format : String) (args : List Arg) : GoError :=
  ⟨format, args, err.sentinel⟩

/-- `errors.Is`: `ErrCorrupt`, `ErrLoop` and `ErrInvalid` form one chain. -/
def GoError.is (err : GoError) (s : Sentinel) : Bool :=
  err.sentinel == s || (s == .invalid && (err.sentinel == .corrupt || err.sentinel == .loop))

@[simp] theorem GoError.sentinel_wrap (err : GoError) (f : String) (args : List Arg) :
    (err.wrap f args).sentinel = err.sentinel := rfl

@[simp] theorem GoError.is_wrap (err : GoError) (f : String) (args : List Arg) (s : Sentinel) :
    (err.wrap f args).is s = err.is s := rfl

@[simp] theorem sentinel_errorf (f : String) (args : List Arg) (s : Sentinel) :
    (errorf f args s).sentinel = s := rfl

end Erofs
