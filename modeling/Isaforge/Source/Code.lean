import Isaforge.Error
import Isaforge.Text.Blank

/-!
# Lines of generated source

Code is a list of lines, each with its depth, the number of blocks around it.  Comments, blocks
and documentation comments are made of lines; a documentation text is written line by line,
trimmed, from its first line that is not blank to its last.

Generation may break off: an `Emission` is code with an error at the place where it does.
-/

namespace Isaforge.Source

/-- A line of source at the depth of the blocks around it. -/
structure Line where
  depth : Nat
  text : String
deriving DecidableEq, Repr

/-- The line one block deeper. -/
def Line.nested (l : Line) : Line :=
  { l with depth := l.depth + 1 }

/-- Lines of source, in order. -/
abbrev Code := List Line

namespace Code

/-- A line at depth 0. -/
def line (s : String) : Code :=
  [⟨0, s⟩]

/-- An empty line. -/
def blank : Code :=
  line ""

/-- A comment. -/
def comment (s : String) : Code :=
  line ("// " ++ s)

/-- A line of a documentation comment. -/
def docLine (s : String) : String :=
  if s = "" then "///" else "/// " ++ s

/-- The lines of a documentation text, trimmed, without the blank ones at its two ends. -/
def docLines (s : String) : List String :=
  let lines := (Text.trimmedLines s).dropWhile (· = "")
  (lines.reverse.dropWhile (· = "")).reverse

/-- A documentation comment. -/
def doc (s : String) : Code :=
  (docLines s).map fun l => ⟨0, docLine l⟩

/-- The code one block deeper. -/
def nested (c : Code) : Code :=
  c.map (·.nested)

/-- A block between its opening and its closing line. -/
def block (opening : String) (body : Code) (closing : String) : Code :=
  line opening ++ nested body ++ line closing

end Code

/-- Lines of source, in order, with an error wherever generation breaks off; what follows the
first error is not generated. -/
abbrev Emission := List (Except Error Line)

namespace Emission

/-- Code that does not break off. -/
def ofCode (c : Code) : Emission :=
  c.map .ok

/-- The emission one block deeper. -/
def nested (e : Emission) : Emission :=
  e.map (·.map (·.nested))

/-- A block between its opening and its closing line. -/
def block (opening : String) (body : Emission) (closing : String) : Emission :=
  ofCode (Code.line opening) ++ nested body ++ ofCode (Code.line closing)

/-- The lines before the first error. -/
def lines : Emission → Code
  | [] => []
  | .error _ :: _ => []
  | .ok l :: rest => l :: lines rest

/-- The first error. -/
def error? : Emission → Option Error
  | [] => none
  | .error e :: _ => some e
  | .ok _ :: rest => error? rest

end Emission

end Isaforge.Source
