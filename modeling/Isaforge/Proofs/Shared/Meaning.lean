import Isaforge.Proofs.Evaluation
import Isaforge.Proofs.Shared.Halves
import Isaforge.Shared.Instructions

/-!
# The meaning of the shared instructions

`meaning B` is what the shared instructions compute, by their names, where the controlling type of
the matched instruction has `B` bits.  An instruction that is given something else than its
operands has no results.

Integers carry their width, so that an operation on integers of two widths has no results either;
only `iconst` takes its width from the controlling type.  `isplit_lohi` halves an even width, and
`iconcat_lohi` doubles a width.
-/

namespace Isaforge.Shared

/-- A value of the IR: an integer of some width, a carry or borrow flag, or an immediate. -/
inductive Value where
  | int (width : Nat) (bits : BitVec width)
  | flag (set : Bool)
  | immediate (n : Int)
  | undefined
deriving DecidableEq

namespace Value

instance : Inhabited Value := ⟨.undefined⟩

/-- The results of an operation on two integers of one width. -/
def onInts (f : (w : Nat) → BitVec w → BitVec w → List Value) : List Value → List Value
  | [.int w x, .int w' y] => if h : w' = w then f w x (y.cast h) else []
  | _ => []

/-- The results of an operation on two integers of one width and a flag. -/
def onIntsAndFlag (f : (w : Nat) → BitVec w → BitVec w → Bool → List Value) :
    List Value → List Value
  | [x, y, .flag c] => onInts (fun w x y => f w x y c) [x, y]
  | _ => []

/-- The results of an operation on an integer and an immediate. -/
def onIntAndImmediate (f : (w : Nat) → BitVec w → BitVec w → List Value) :
    List Value → List Value
  | [.int w x, .immediate n] => f w x (.ofInt w n)
  | _ => []

@[simp] theorem onInts_int (f : (w : Nat) → BitVec w → BitVec w → List Value) {w : Nat}
    (x y : BitVec w) : onInts f [.int w x, .int w y] = f w x y := by
  simp [onInts]

@[simp] theorem onIntsAndFlag_int (f : (w : Nat) → BitVec w → BitVec w → Bool → List Value)
    {w : Nat} (x y : BitVec w) (c : Bool) :
    onIntsAndFlag f [.int w x, .int w y, .flag c] = f w x y c := by
  simp [onIntsAndFlag]

@[simp] theorem onIntAndImmediate_int (f : (w : Nat) → BitVec w → BitVec w → List Value)
    {w : Nat} (x : BitVec w) (n : Int) :
    onIntAndImmediate f [.int w x, .immediate n] = f w x (.ofInt w n) :=
  rfl

/-- The two parts of an integer, of `w` bits each. -/
def parts (w : Nat) {n : Nat} (x : BitVec n) : List Value :=
  [.int w (x.setWidth w), .int w ((x >>> w).setWidth w)]

/-- The value is one that the operand admits at `B` bits: an integer for a value operand, and an
immediate for an immediate operand. -/
def Admitted (B : Nat) (o : Operand) (v : Value) : Prop :=
  match o.kind with
  | .value _ | .typeVar _ => ∃ x : BitVec B, v = .int B x
  | .immediate _ => ∃ n, v = .immediate n
  | .entity _ => False

end Value

open Value

/-- An immediate as an integer of `B` bits. -/
def constant (B : Nat) : List Value → List Value
  | [.immediate n] => [.int B (.ofInt B n)]
  | _ => []

/-- The complement of an integer. -/
def complement : List Value → List Value
  | [.int w x] => [.int w (~~~x)]
  | _ => []

/-- The halves of an integer of even width. -/
def split : List Value → List Value
  | [.int n x] => if n % 2 = 0 then parts (n / 2) x else []
  | _ => []

/-- The results of the instruction of the name, where the controlling type has `B` bits. -/
def meaningOf (B : Nat) (name : String) : List Value → List Value :=
  match name with
  | "iconst" => constant B
  | "iadd" => onInts fun w x y => [.int w (x + y)]
  | "isub" => onInts fun w x y => [.int w (x - y)]
  | "imul" => onInts fun w x y => [.int w (x * y)]
  | "iadd_imm" => onIntAndImmediate fun w x n => [.int w (x + n)]
  | "imul_imm" => onIntAndImmediate fun w x n => [.int w (x * n)]
  | "iadd_cin" => onIntsAndFlag fun w x y c => [.int w (x + y + ofFlag c)]
  | "iadd_cout" => onInts fun w x y => [.int w (x + y), .flag (carry x y)]
  | "isub_bin" => onIntsAndFlag fun w x y b => [.int w (x - y - ofFlag b)]
  | "isub_bout" => onInts fun w x y => [.int w (x - y), .flag (borrow x y)]
  | "band" => onInts fun w x y => [.int w (x &&& y)]
  | "bor" => onInts fun w x y => [.int w (x ||| y)]
  | "bxor" => onInts fun w x y => [.int w (x ^^^ y)]
  | "bnot" => complement
  | "band_not" => onInts fun w x y => [.int w (x &&& ~~~y)]
  | "bor_not" => onInts fun w x y => [.int w (x ||| ~~~y)]
  | "bxor_not" => onInts fun w x y => [.int w (x ^^^ ~~~y)]
  | "isplit_lohi" => split
  | "iconcat_lohi" => onInts fun w lo hi => [.int (2 * w) (join lo hi)]
  | _ => fun _ => []

/-- The shared instructions as a semantics. -/
def meaning (B : Nat) : Semantics Value :=
  fun head args => meaningOf B head.name args

/-- Splitting an integer of twice a width gives its halves. -/
@[simp] theorem split_int (w : Nat) (x : BitVec (2 * w)) :
    split [.int (2 * w) x] = [.int w (low x), .int w (high x)] := by
  have hhalf : 2 * w / 2 = w := Nat.mul_div_cancel_left w Nat.two_pos
  simp only [split, Nat.mul_mod_right, if_true, hhalf]
  rfl

end Isaforge.Shared
