/-!
# Text — white space and lines

`isBlank` is Unicode's property `White_Space`; `trim` takes it off both ends.  `lines` cuts a
text at its line feeds: a line feed ends a line, a carriage return right before it belongs to
the break, and a last line without a line feed counts when it holds anything, a carriage
return included.

`blurb` is the first line of a text that is not blank, trimmed: the short form of a
documentation text.
-/

namespace Isaforge.Text

/-- `c` has Unicode's property `White_Space`. -/
def isBlank (c : Char) : Bool :=
  let n := c.toNat
  (9 ≤ n && n ≤ 13) || n == 0x20 || n == 0x85 || n == 0xA0 || n == 0x1680 ||
    (0x2000 ≤ n && n ≤ 0x200A) || n == 0x2028 || n == 0x2029 || n == 0x202F || n == 0x205F ||
    n == 0x3000

/-- `cs` without the blank characters it ends with. -/
def trimRight (cs : List Char) : List Char :=
  (cs.reverse.dropWhile isBlank).reverse

/-- `cs` without the blank characters at its two ends. -/
def trimChars (cs : List Char) : List Char :=
  trimRight (cs.dropWhile isBlank)

/-- The lines of `cs`, without their breaks. -/
def splitLines : List Char → List (List Char)
  | [] => []
  | '\n' :: cs => [] :: splitLines cs
  | '\r' :: '\n' :: cs => [] :: splitLines cs
  | c :: cs =>
    match splitLines cs with
    | [] => [[c]]
    | line :: rest => (c :: line) :: rest

/-- `s` without the blank characters at its two ends. -/
def trim (s : String) : String :=
  String.ofList (trimChars s.toList)

/-- The lines of `s`, without their breaks. -/
def lines (s : String) : List String :=
  (splitLines s.toList).map String.ofList

/-- The lines of `s`, each trimmed. -/
def trimmedLines (s : String) : List String :=
  (lines s).map trim

/-- The first line of `doc` that is not blank, trimmed; empty when there is none. -/
def blurb (doc : String) : String :=
  ((trimmedLines doc).find? (· ≠ "")).getD ""

end Isaforge.Text
