import Isaforge.Catalog.Growing

/-!
# The shared instructions

Every target starts from these instructions; legalization replaces those that a target cannot
execute.  `define` adds them to a group, in a fixed order, and collects the ids that they are given
in `Opcodes`; it stops at the first name that the group has already and keeps what it added before.
-/

namespace Isaforge.Shared

/-! ### Operands -/

/-- The integers, scalar or vector. -/
def int : TypeVar :=
  ⟨"Int", "A scalar or vector integer type", TypeSet.scalarInts.withSimd⟩

/-- The integers and booleans, scalar or vector. -/
def intOrBool : TypeVar :=
  ⟨"iB", "A scalar or vector integer or boolean type", ⟨true, false, true, true⟩⟩

/-- The integers that can be split. -/
def wideInt : TypeVar :=
  ⟨"WideInt", "A scalar integer type wider than 8 bits", TypeSet.scalarInts⟩

/-- The halves of a split integer. -/
def halfInt : TypeVar :=
  ⟨"HalfInt", "Half the width of the split integer", TypeSet.scalarInts⟩

/-- A value of the type of a type variable. -/
def valueOf (name : String) (var : TypeVar) (doc? : Option String := none) : Operand :=
  ⟨name, .typeVar var, doc?⟩

/-- A carry or borrow flag. -/
def flag (name doc : String) : Operand :=
  ⟨name, .value (.scalar ⟨.bool, 1⟩), some doc⟩

/-- A 64-bit immediate. -/
def immediate (name : String) : Operand :=
  ⟨name, .immediate "imm64", none⟩

/-! ### Instructions -/

/-- An instruction from two values to one, of one type. -/
def binary (name doc : String) (var : TypeVar) : Instruction where
  name := name
  doc := doc
  ins := [valueOf "x" var, valueOf "y" var]
  outs := [valueOf "a" var]

/-- An instruction from a value and an immediate to a value, of one type. -/
def binaryImmediate (name doc : String) (var : TypeVar) : Instruction where
  name := name
  doc := doc
  ins := [valueOf "x" var, immediate "Y"]
  outs := [valueOf "a" var]

/-- Jump to a block. -/
def jump : Instruction where
  name := "jump"
  doc := "
            Jump.

            Unconditionally jump to an extended basic block.
            "
  ins := [⟨"EBB", .entity "ebb", some "Destination extended basic block"⟩]
  outs := []
  isTerminator := true

/-- Return from the function. -/
def ret : Instruction where
  name := "return"
  doc := "
            Return from the function.

            Unconditionally transfer control to the calling function.
            "
  ins := []
  outs := []
  isTerminator := true

/-- An integer constant. -/
def iconst : Instruction where
  name := "iconst"
  doc := "
            Integer constant.

            Create a scalar integer SSA value with an immediate constant value.
            "
  ins := [immediate "N"]
  outs := [valueOf "a" int "A constant integer scalar or vector value"]

/-- Addition. -/
def iadd : Instruction :=
  binary "iadd" "Wrapping integer addition: a := x + y mod 2^B." int

/-- Subtraction. -/
def isub : Instruction :=
  binary "isub" "Wrapping integer subtraction: a := x - y mod 2^B." int

/-- Multiplication. -/
def imul : Instruction :=
  binary "imul" "Wrapping integer multiplication: a := x y mod 2^B." int

/-- Addition of an immediate. -/
def iaddImm : Instruction :=
  binaryImmediate "iadd_imm"
    "Add immediate integer.\n\nSame as `iadd`, but one operand is an immediate constant." int

/-- Multiplication by an immediate. -/
def imulImm : Instruction :=
  binaryImmediate "imul_imm" "Integer multiplication by immediate constant." int

/-- Addition with a carry that comes in. -/
def iaddCin : Instruction where
  name := "iadd_cin"
  doc := "Add integers with carry in.\n\nSame as `iadd` with an additional carry input."
  ins := [valueOf "x" intOrBool, valueOf "y" intOrBool, flag "c_in" "Input carry flag"]
  outs := [valueOf "a" intOrBool]

/-- Addition with a carry that goes out. -/
def iaddCout : Instruction where
  name := "iadd_cout"
  doc := "Add integers with carry out.\n\nSame as `iadd` with an additional carry output."
  ins := [valueOf "x" intOrBool, valueOf "y" intOrBool]
  outs := [valueOf "a" intOrBool, flag "c_out" "Output carry flag"]

/-- Subtraction with a borrow that comes in. -/
def isubBin : Instruction where
  name := "isub_bin"
  doc := "Subtract integers with borrow in.\n\nSame as `isub` with an additional borrow input."
  ins := [valueOf "x" intOrBool, valueOf "y" intOrBool, flag "b_in" "Input borrow flag"]
  outs := [valueOf "a" intOrBool]

/-- Subtraction with a borrow that goes out. -/
def isubBout : Instruction where
  name := "isub_bout"
  doc := "Subtract integers with borrow out.\n\nSame as `isub` with an additional borrow output."
  ins := [valueOf "x" intOrBool, valueOf "y" intOrBool]
  outs := [valueOf "a" intOrBool, flag "b_out" "Output borrow flag"]

/-- Bitwise conjunction. -/
def band : Instruction :=
  binary "band" "Bitwise and." intOrBool

/-- Bitwise disjunction. -/
def bor : Instruction :=
  binary "bor" "Bitwise or." intOrBool

/-- Bitwise exclusive disjunction. -/
def bxor : Instruction :=
  binary "bxor" "Bitwise xor." intOrBool

/-- Bitwise negation. -/
def bnot : Instruction where
  name := "bnot"
  doc := "Bitwise not."
  ins := [valueOf "x" intOrBool]
  outs := [valueOf "a" intOrBool]

/-- Bitwise conjunction with the second operand negated. -/
def bandNot : Instruction :=
  binary "band_not" "Bitwise and not.\n\nComputes `x & ~y`." intOrBool

/-- Bitwise disjunction with the second operand negated. -/
def borNot : Instruction :=
  binary "bor_not" "Bitwise or not.\n\nComputes `x | ~y`." intOrBool

/-- Bitwise exclusive disjunction with the second operand negated. -/
def bxorNot : Instruction :=
  binary "bxor_not" "Bitwise xor not.\n\nComputes `x ^ ~y`." intOrBool

/-- The two halves of an integer. -/
def isplitLohi : Instruction where
  name := "isplit_lohi"
  doc := "
            Split a scalar integer into low and high parts.

            Returns the low half of `x` and the high half of `x` as two independent
            values.
            "
  ins := [valueOf "x" wideInt]
  outs := [valueOf "lo" halfInt "The low bits of `x`", valueOf "hi" halfInt "The high bits of `x`"]

/-- The integer of two halves. -/
def iconcatLohi : Instruction where
  name := "iconcat_lohi"
  doc := "
            Concatenate low and high bits to form a larger integer type.
            "
  ins := [valueOf "lo" halfInt, valueOf "hi" halfInt]
  outs := [valueOf "a" wideInt "The concatenation of `lo` and `hi`"]

/-- The shared instructions, in the order of their definition. -/
def instructions : List Instruction := [
  jump, ret, iconst, iadd, isub, imul, iaddImm, imulImm, iaddCin, iaddCout, isubBin, isubBout,
  band, bor, bxor, bnot, bandNot, borNot, bxorNot, isplitLohi, iconcatLohi]

/-! ### Their ids -/

/-- The ids of the shared instructions in a group. -/
structure Opcodes where
  jump : InstId
  ret : InstId
  iconst : InstId
  iadd : InstId
  isub : InstId
  imul : InstId
  iaddImm : InstId
  imulImm : InstId
  iaddCin : InstId
  iaddCout : InstId
  isubBin : InstId
  isubBout : InstId
  band : InstId
  bor : InstId
  bxor : InstId
  bnot : InstId
  bandNot : InstId
  borNot : InstId
  bxorNot : InstId
  isplitLohi : InstId
  iconcatLohi : InstId
deriving DecidableEq, Repr

/-- The ids of the shared instructions when they were added to a group of `n` instructions. -/
def Opcodes.startingAt (n : Nat) : Opcodes where
  jump := ⟨n⟩
  ret := ⟨n + 1⟩
  iconst := ⟨n + 2⟩
  iadd := ⟨n + 3⟩
  isub := ⟨n + 4⟩
  imul := ⟨n + 5⟩
  iaddImm := ⟨n + 6⟩
  imulImm := ⟨n + 7⟩
  iaddCin := ⟨n + 8⟩
  iaddCout := ⟨n + 9⟩
  isubBin := ⟨n + 10⟩
  isubBout := ⟨n + 11⟩
  band := ⟨n + 12⟩
  bor := ⟨n + 13⟩
  bxor := ⟨n + 14⟩
  bnot := ⟨n + 15⟩
  bandNot := ⟨n + 16⟩
  borNot := ⟨n + 17⟩
  bxorNot := ⟨n + 18⟩
  isplitLohi := ⟨n + 19⟩
  iconcatLohi := ⟨n + 20⟩

/-- The ids with that of the instruction called `name` replaced. -/
def Opcodes.withId (ops : Opcodes) (name : String) (id : InstId) : Option Opcodes :=
  match name with
  | "jump" => some { ops with jump := id }
  | "return" => some { ops with ret := id }
  | "iconst" => some { ops with iconst := id }
  | "iadd" => some { ops with iadd := id }
  | "isub" => some { ops with isub := id }
  | "imul" => some { ops with imul := id }
  | "iadd_imm" => some { ops with iaddImm := id }
  | "imul_imm" => some { ops with imulImm := id }
  | "iadd_cin" => some { ops with iaddCin := id }
  | "iadd_cout" => some { ops with iaddCout := id }
  | "isub_bin" => some { ops with isubBin := id }
  | "isub_bout" => some { ops with isubBout := id }
  | "band" => some { ops with band := id }
  | "bor" => some { ops with bor := id }
  | "bxor" => some { ops with bxor := id }
  | "bnot" => some { ops with bnot := id }
  | "band_not" => some { ops with bandNot := id }
  | "bor_not" => some { ops with borNot := id }
  | "bxor_not" => some { ops with bxorNot := id }
  | "isplit_lohi" => some { ops with isplitLohi := id }
  | "iconcat_lohi" => some { ops with iconcatLohi := id }
  | _ => none

/-- The ids, in the order of the instructions. -/
def Opcodes.ids (ops : Opcodes) : List InstId := [
  ops.jump, ops.ret, ops.iconst, ops.iadd, ops.isub, ops.imul, ops.iaddImm, ops.imulImm,
  ops.iaddCin, ops.iaddCout, ops.isubBin, ops.isubBout, ops.band, ops.bor, ops.bxor, ops.bnot,
  ops.bandNot, ops.borNot, ops.bxorNot, ops.isplitLohi, ops.iconcatLohi]

/-! ### Their definition -/

section

open GrowingGroup

/-- Add the shared instructions, up to the first whose name is taken, and give their ids when none
is. -/
def define : Change Opcodes := do
  let jump ← push jump
  let ret ← push ret
  let iconst ← push iconst
  let iadd ← push iadd
  let isub ← push isub
  let imul ← push imul
  let iaddImm ← push iaddImm
  let imulImm ← push imulImm
  let iaddCin ← push iaddCin
  let iaddCout ← push iaddCout
  let isubBin ← push isubBin
  let isubBout ← push isubBout
  let band ← push band
  let bor ← push bor
  let bxor ← push bxor
  let bnot ← push bnot
  let bandNot ← push bandNot
  let borNot ← push borNot
  let bxorNot ← push bxorNot
  let isplitLohi ← push isplitLohi
  let iconcatLohi ← push iconcatLohi
  return {
    jump, ret, iconst, iadd, isub, imul, iaddImm, imulImm, iaddCin, iaddCout, isubBin, isubBout,
    band, bor, bxor, bnot, bandNot, borNot, bxorNot, isplitLohi, iconcatLohi }

end

/-- The group of the shared instructions. -/
def group : InstructionGroup :=
  ⟨"base", "Shared base instruction set", instructions⟩

end Isaforge.Shared
