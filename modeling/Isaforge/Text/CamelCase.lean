import Isaforge.Text.Capital

/-!
# Text — camel case

`camelCase` joins the words of a text that are parted by underscores and writes the first
character of each as a capital.  The other characters stay as they are, so `iADD_cOUT` becomes
`IADDCOUT`.
-/

namespace Isaforge.Text

/-- `cs` in camel case; `start` says that the next character begins a word. -/
def camelChars (start : Bool) : List Char → List Char
  | [] => []
  | c :: cs =>
    if c = '_' then camelChars true cs
    else (if start then capital c else [c]) ++ camelChars false cs

/-- The words of `s`, parted by underscores, joined with a capital first character each. -/
def camelCase (s : String) : String :=
  String.ofList (camelChars true s.toList)

end Isaforge.Text
