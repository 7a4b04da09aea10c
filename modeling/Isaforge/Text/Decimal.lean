/-!
# Text — decimal numbers of bounded size

`readNat limit` reads an unsigned decimal number of at most `limit`: one or more ASCII digits,
with a plus sign before them or not.  Leading zeros do not count; any other character, an empty
text, a sign alone and a larger number are refused.
-/

namespace Isaforge.Text

/-- The number that the decimal digits `cs` write. -/
def digitsValue (cs : List Char) : Nat :=
  cs.foldl (fun n c => 10 * n + (c.toNat - '0'.toNat)) 0

/-- The number that `cs` writes, when `cs` is digits only and there is at least one. -/
def readDigits (cs : List Char) : Option Nat :=
  if cs.isEmpty || !cs.all Char.isDigit then none else some (digitsValue cs)

/-- The number up to `limit` that `cs` writes, with or without a plus sign. -/
def readNat (limit : Nat) (cs : List Char) : Option Nat :=
  let digits :=
    match cs with
    | '+' :: rest => rest
    | _ => cs
  (readDigits digits).filter (· ≤ limit)

end Isaforge.Text
