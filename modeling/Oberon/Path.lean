/-!
# Paths

A path is a text with slashes between its components.  Its file name is its last component, where
slashes and components `.` at the end do not count; a path that ends in `..`, or that has no named
component, has no file name.  The extension of a name is what follows its last dot, unless that dot
is the first character.

**Output names.**  `Path.replaceExtension` replaces the extension of a path.  A path without a file
name stays as it is.  An extension of `n` bytes is taken off as the last `n` bytes of the whole
path, slashes behind the name included, before the rest of the name's extension and all that follows
it gives way to the new one.
-/

namespace Oberon
namespace Path

/-- A path cut at its file name. -/
structure Parts where
  before : List Char
  name : List Char
  deriving DecidableEq, Repr

/-- Drops slashes, and dots behind slashes, from the front of a path read backwards. -/
def dropSeparators : List Char → List Char
  | '/' :: rest => dropSeparators rest
  | '.' :: '/' :: rest => dropSeparators rest
  | rest => rest

/-- The text up to the file name and the file name. -/
def parts? (path : List Char) : Option Parts :=
  let backwards := dropSeparators path.reverse
  let name := (backwards.takeWhile (· != '/')).reverse
  if name = [] ∨ name = ['.'] ∨ name = ['.', '.'] then none
  else some ⟨(backwards.dropWhile (· != '/')).reverse, name⟩

/-- A file name cut at its last dot, unless that is its first character. -/
def extension? (name : List Char) : Option (List Char × List Char) :=
  match name.reverse.dropWhile (· != '.') with
  | '.' :: c :: rest => some ((c :: rest).reverse, (name.reverse.takeWhile (· != '.')).reverse)
  | _ => none

/-- A file name without its extension. -/
def stem (name : List Char) : List Char :=
  match extension? name with
  | some (stem, _) => stem
  | none => name

/-- Drops the characters that lie wholly in the first `bytes` bytes. -/
def dropBytes : Nat → List Char → List Char
  | _, [] => []
  | bytes, c :: rest =>
    if c.utf8Size ≤ bytes then dropBytes (bytes - c.utf8Size) rest else c :: rest

/-- The number of bytes of a text. -/
def byteCount : List Char → Nat
  | [] => 0
  | c :: rest => c.utf8Size + byteCount rest

/-- Drops as many bytes from the end of a path as the extension of its file name has. -/
def dropExtension (path : List Char) : List Char :=
  match (parts? path).bind fun parts => extension? parts.name with
  | some (_, extension) => (dropBytes (byteCount extension) path.reverse).reverse
  | none => path

/-- The path with another extension. -/
def replaceExtension (path : String) (extension : String) : String :=
  let cut := dropExtension path.toList
  match parts? cut with
  | none => String.ofList cut
  | some parts => String.ofList (parts.before ++ stem parts.name) ++ "." ++ extension

/-- The file name of a path; a path without one gives the empty text. -/
def name (path : String) : String :=
  match parts? path.toList with
  | some parts => String.ofList parts.name
  | none => ""

/-- Where the implementation of a source goes. -/
def implementation (source : String) : String := replaceExtension source "c"

/-- Where the interface of a source goes. -/
def interface (source : String) : String := replaceExtension source "h"

end Path
end Oberon
