import Isaforge.Error

/-!
# Paths

A path is a text.  It is read as a sequence of names, cut at the slashes, several slashes
counting as one; it starts at the root when the text does with a slash, and else at a working
directory.  The names `.` and `..` stay, for they mean something only when the path is
followed.  A slash at the end says that the path is meant to lead to a directory.
-/

namespace Isaforge.Storage

/-- A path, as it is written. -/
structure Path where
  text : String
deriving DecidableEq, Repr

namespace Path

/-- The parts of a text between slashes, without the empty ones; `part` is the part so far, in
reverse. -/
def partsFrom (part : List Char) : List Char → List (List Char)
  | [] => if part.isEmpty then [] else [part.reverse]
  | c :: cs =>
    if c = '/' then
      (if part.isEmpty then [] else [part.reverse]) ++ partsFrom [] cs
    else partsFrom (c :: part) cs

/-- The names to follow. -/
def names (p : Path) : List String :=
  (partsFrom [] p.text.toList).map String.ofList

/-- The path starts at the root. -/
def isAbsolute (p : Path) : Bool :=
  p.text.toList.head? = some '/'

/-- The path is meant to lead to a directory. -/
def ofDirectory (p : Path) : Bool :=
  p.text.toList.getLast? = some '/'

/-- The path names neither a file nor a directory. -/
def isEmpty (p : Path) : Bool :=
  p.text = ""

/-- The path that follows the names, from the root or from the working directory. -/
def ofNames (isAbsolute : Bool) (names : List String) : Path :=
  ⟨(if isAbsolute then "/" else "") ++ "/".intercalate names⟩

/-- The path with another below it, with a slash between them where there is none. -/
def join (p : Path) (below : Path) : Path :=
  if below.isAbsolute then below
  else ⟨p.text ++ (if p.isEmpty || p.ofDirectory then "" else "/") ++ below.text⟩

/-- The names without the dots they end in. -/
def withoutLastDots (names : List String) : List String :=
  (names.reverse.dropWhile (· = ".")).reverse

/-- The path without its last name, and without the dots around that. -/
def parent (p : Path) : Path :=
  ofNames p.isAbsolute (withoutLastDots (withoutLastDots p.names).dropLast)

/-- The path and those above it that end in a name, `n` at most. -/
def upwards : (n : Nat) → Path → List Path
  | 0, _ => []
  | n + 1, p => if p.names.isEmpty then [] else p :: upwards n p.parent

/-- The path and all above it that end in a name. -/
def chain (p : Path) : List Path :=
  upwards p.names.length p

/-- The largest number of bytes in a name. -/
def maxNameBytes : Nat := 255

/-- The largest number of bytes in a path. -/
def maxPathBytes : Nat := 4095

/-- Why the system refuses the path before it follows any name. -/
def fault? (p : Path) : Option FileFault :=
  if p.text.toList.contains (Char.ofNat 0) then some .nulInName
  else if maxPathBytes < p.text.utf8ByteSize then some .nameTooLong
  else if p.isEmpty then some .notFound
  else none

end Path

end Isaforge.Storage
