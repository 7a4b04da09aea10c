import Isaforge.Source.Code

/-!
# Pages of generated source

A page collects lines below one another, each indented by the blocks around it.  An empty line
carries no indentation.  Code is written at the current indentation of the page, and `deeper`
writes a part of a page one block deeper.
-/

namespace Isaforge.Source

/-- The columns that a block is indented by. -/
def indentWidth : Nat := 4

/-- The lines of a page so far, and the depth that the next ones are written at. -/
structure Page where
  depth : Nat := 0
  lines : List String := []
deriving DecidableEq, Repr

namespace Page

/-- A line of source as text, inside `depth` more blocks. -/
def indented (depth : Nat) (l : Line) : String :=
  if l.text = "" then ""
  else String.ofList (List.replicate (indentWidth * (depth + l.depth)) ' ') ++ l.text

/-- The page with the code written below. -/
def write (p : Page) (c : Code) : Page :=
  { p with lines := p.lines ++ c.map (indented p.depth) }

/-- The page with what is emitted before the first error written below, and that error. -/
def emit (p : Page) (e : Emission) : Page × Except Error Unit :=
  (p.write e.lines, match e.error? with
    | some e => .error e
    | none => .ok ())

/-- The page with the part that `f` writes one block deeper. -/
def deeper (p : Page) (f : Page → Page) : Page :=
  { f { p with depth := p.depth + 1 } with depth := p.depth }

/-- The number of lines. -/
def lineCount (p : Page) : Nat :=
  p.lines.length

/-- The page as text, each line ended by a line feed. -/
def text (p : Page) : String :=
  String.join (p.lines.map (· ++ "\n"))

end Page

end Isaforge.Source
