import Isaforge.Error
import Isaforge.Text.Decimal

/-!
# Value types

A value type is a lane, an integer, a float or a boolean of some width, repeated over a number
of lanes; a scalar has one lane.  `ValueType.text` writes a type as the IR does, `i32`, `b1`,
`i32x4`, and `ValueType.parse` reads it back.  The reader is more liberal than the writer: it
takes both numbers with leading zeros and with a plus sign.

`ValueType.times` multiplies the lanes.  It refuses a factor that is not a power of two and a
product over `maxLanes`, so types that it and the reader make stay valid (`ValueType.Valid`).
-/

namespace Isaforge

/-- What a lane holds. -/
inductive LaneKind where
  | int
  | float
  | bool
deriving DecidableEq, Repr

/-- The letter a lane kind is written with. -/
def LaneKind.letter : LaneKind → Char
  | .int => 'i'
  | .float => 'f'
  | .bool => 'b'

/-- The lane kind written with the letter `c`. -/
def LaneKind.ofLetter? : Char → Option LaneKind
  | 'i' => some .int
  | 'f' => some .float
  | 'b' => some .bool
  | _ => none

/-- The widths in bits that lanes of each kind come in. -/
def LaneKind.widths : LaneKind → List Nat
  | .int => [8, 16, 32, 64]
  | .float => [32, 64]
  | .bool => [1, 8, 16, 32, 64]

/-- The type of one lane. -/
structure Lane where
  kind : LaneKind
  bits : Nat
deriving DecidableEq, Repr

/-- The lane has one of the widths of its kind. -/
def Lane.Valid (l : Lane) : Prop :=
  l.bits ∈ l.kind.widths

instance (l : Lane) : Decidable l.Valid :=
  inferInstanceAs (Decidable (l.bits ∈ l.kind.widths))

/-- A lane repeated over `lanes` lanes. -/
structure ValueType where
  lane : Lane
  lanes : Nat
deriving DecidableEq, Repr

/-- The largest number of lanes. -/
def maxLanes : Nat := 256

/-- `n` is a power of two.  Zero is none. -/
def isPowerOfTwo (n : Nat) : Bool :=
  n != 0 && n &&& (n - 1) == 0

namespace ValueType

/-- The scalar of a lane. -/
def scalar (l : Lane) : ValueType :=
  ⟨l, 1⟩

/-- The type has more than one lane. -/
def isVector (t : ValueType) : Bool :=
  1 < t.lanes

/-- The lane is valid, and the lanes are a power of two of at most `maxLanes`. -/
def Valid (t : ValueType) : Prop :=
  t.lane.Valid ∧ isPowerOfTwo t.lanes = true ∧ t.lanes ≤ maxLanes

instance (t : ValueType) : Decidable t.Valid :=
  inferInstanceAs (Decidable (_ ∧ _ ∧ _))

/-- The type as the IR writes it. -/
def text (t : ValueType) : String :=
  t.lane.kind.letter.toString ++ toString t.lane.bits ++
    (if t.isVector then "x" ++ toString t.lanes else "")

/-- The constant that names the type in generated code. -/
def constant (t : ValueType) : String :=
  "ir::types::" ++ t.text.toUpper

/-- `t` with `n` times its lanes. -/
def times (t : ValueType) (n : Nat) : Except Error ValueType :=
  if isPowerOfTwo n && t.lanes * n ≤ maxLanes then
    .ok { t with lanes := t.lanes * n }
  else
    .error (.unknownType (t.text ++ "x" ++ toString n))

/-- The largest number the reader takes for a width or a number of lanes. -/
def maxNumber : Nat := 65535

/-- The scalar that `cs` writes: a letter and a width. -/
def readScalar : List Char → Option ValueType
  | [] => none
  | letter :: digits => do
    let bits ← Text.readNat maxNumber digits
    let lane : Lane := ⟨← LaneKind.ofLetter? letter, bits⟩
    if lane.Valid then some (scalar lane) else none

/-- The number of lanes that `cs` writes; one lane is written by leaving it out. -/
def readLanes (cs : List Char) : Option Nat :=
  (Text.readNat maxNumber cs).filter (2 ≤ ·)

/-- The type that `s` writes. -/
def parse (s : String) : Except Error ValueType :=
  let unknown := Error.unknownType s
  let cs := s.toList
  match readScalar (cs.takeWhile (· ≠ 'x')), cs.dropWhile (· ≠ 'x') with
  | none, _ => .error unknown
  | some t, [] => .ok t
  | some t, _ :: lanes =>
    match readLanes lanes with
    | none => .error unknown
    | some n => t.times n

end ValueType

end Isaforge
