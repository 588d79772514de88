import Erofs.Errors

/-!
# Extended attribute names

The name prefixes of `xattr.go` and the checks `format.go` makes before an attribute is
accepted.
-/

namespace Erofs

open GoPath

/-- The strings `xattrIndex.String` gives the indexes 1 to 6. -/
def xattrPrefixes : List Bytes :=
  [ ascii ['u', 's', 'e', 'r', '.'],
    ascii ['s', 'y', 's', 't', 'e', 'm', '.', 'p', 'o', 's', 'i', 'x', '_', 'a', 'c', 'l', '_',
      'a', 'c', 'c', 'e', 's', 's'],
    ascii ['s', 'y', 's', 't', 'e', 'm', '.', 'p', 'o', 's', 'i', 'x', '_', 'a', 'c', 'l', '_',
      'd', 'e', 'f', 'a', 'u', 'l', 't'],
    ascii ['t', 'r', 'u', 's', 't', 'e', 'd', '.'],
    ascii ['l', 'u', 's', 't', 'r', 'e', '.'],
    ascii ['s', 'e', 'c', 'u', 'r', 'i', 't', 'y', '.'] ]

/-- `xattrIndex.String`. -/
def xattrIndexString (idx : ℕ) : Bytes :=
  match idx with
  | 0 => []
  | i + 1 => xattrPrefixes.getD i []

/-- `xattrSplit`: the index of the first prefix the name starts with, and the rest. -/
def xattrSplit (name : Bytes) : ℕ × Bytes :=
  match xattrPrefixes.findIdx? fun p => p.isPrefixOf name with
  | some i => (i + 1, name.drop (xattrIndexString (i + 1)).length)
  | none => (0, name)

/-- `maxXattrNameLen`. -/
def maxXattrNameLen : ℕ := 255

/-- `maxXattrValueLen`. -/
def maxXattrValueLen : ℕ := 65535

/-- `validateXattr`. -/
def validateXattr (name value : Bytes) : Except GoError Unit :=
  let idx := (xattrSplit name).1
  let suffix := (xattrSplit name).2
  if suffix = [] ∧ (idx = 0 ∨ (xattrIndexString idx).getLast? = some dotByte) then
    .error (errorf "xattr name %q has nothing after its prefix: %w" [.bytes name] .invalid)
  else if suffix.length > maxXattrNameLen then
    .error (errorf "xattr name %q is %d bytes after its prefix, over the %d byte on-disk limit: %w"
      [.bytes name, .int suffix.length, .int maxXattrNameLen] .invalid)
  else if value.length > maxXattrValueLen then
    .error (errorf "xattr %q has a %d byte value, over the %d byte on-disk limit: %w"
      [.bytes name, .int value.length, .int maxXattrValueLen] .invalid)
  else .ok ()

end Erofs
