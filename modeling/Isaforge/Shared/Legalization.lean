import Isaforge.Rule
import Isaforge.Shared.Instructions

/-!
# The shared legalization rules

The rules of `narrow` split an operation on integers that are too wide for the target into
operations on their halves, and pass a carry or borrow from the low to the high one.  The rules
of `expand` express an instruction by others on the same type: an immediate becomes a constant,
and a bitwise operation with a negated operand a negation and the plain operation.

A rule is written as an `Outline`, a list of steps; the shared rules are the same for every
catalog and depend on it only through the ids of the instructions.
-/

namespace Isaforge.Shared

/-- A definition of a rule in outline: an instruction applied to variables. -/
structure Step where
  side : Side
  outputs : List Var
  inst : InstId
  args : List Var
deriving DecidableEq, Repr

/-- A rule in outline: its definitions in the order they are put together. -/
abbrev Outline := List Step

/-- Put the definition of a step together and add it to its side. -/
def Step.script (insts : InstructionGroup) (s : Step) : Rule.Script := do
  let a ← Application.make insts.catalog (.unbound s.inst) [] (s.args.map .var)
  match s.side with
  | .source => Rule.source s.outputs a.expr
  | .destination => Rule.destination s.outputs a.expr

/-- Put the definitions of an outline together, in order. -/
def Outline.script (insts : InstructionGroup) : Outline → Rule.Script
  | [] => pure ()
  | s :: rest => do
    s.script insts
    Outline.script insts rest

/-! ### Variables -/

/-- The first operand. -/
def x : Var := ⟨0, "x"⟩

/-- The second operand. -/
def y : Var := ⟨1, "y"⟩

/-- The result. -/
def a : Var := ⟨2, "a"⟩

/-- The low half of the first operand. -/
def xl : Var := ⟨3, "xl"⟩

/-- The high half of the first operand. -/
def xh : Var := ⟨4, "xh"⟩

/-- The low half of the second operand. -/
def yl : Var := ⟨5, "yl"⟩

/-- The high half of the second operand. -/
def yh : Var := ⟨6, "yh"⟩

/-- The low half of the result. -/
def al : Var := ⟨7, "al"⟩

/-- The high half of the result. -/
def ah : Var := ⟨8, "ah"⟩

/-- The carry or borrow between the halves, or the second operand made ready. -/
def c : Var := ⟨9, "c"⟩

/-! ### Outlines -/

/-- Split `a << op(x, y)` and pass a carry or borrow from `lowOp` to `highOp`. -/
def narrowWithCarry (ops : Opcodes) (op lowOp highOp : InstId) : Outline := [
  ⟨.source, [a], op, [x, y]⟩,
  ⟨.destination, [xl, xh], ops.isplitLohi, [x]⟩,
  ⟨.destination, [yl, yh], ops.isplitLohi, [y]⟩,
  ⟨.destination, [al, c], lowOp, [xl, yl]⟩,
  ⟨.destination, [ah], highOp, [xh, yh, c]⟩,
  ⟨.destination, [a], ops.iconcatLohi, [al, ah]⟩]

/-- Split `a << op(x, y)` into the operations on the two halves. -/
def narrowBitwise (ops : Opcodes) (op : InstId) : Outline := [
  ⟨.source, [a], op, [x, y]⟩,
  ⟨.destination, [xl, xh], ops.isplitLohi, [x]⟩,
  ⟨.destination, [yl, yh], ops.isplitLohi, [y]⟩,
  ⟨.destination, [al], op, [xl, yl]⟩,
  ⟨.destination, [ah], op, [xh, yh]⟩,
  ⟨.destination, [a], ops.iconcatLohi, [al, ah]⟩]

/-- Express `a << op(x, y)` as `plainOp` of `x` and `unaryOp(y)`. -/
def expandSecond (op unaryOp plainOp : InstId) : Outline := [
  ⟨.source, [a], op, [x, y]⟩,
  ⟨.destination, [c], unaryOp, [y]⟩,
  ⟨.destination, [a], plainOp, [x, c]⟩]

/-- The outlines of the rules of `narrow`. -/
def narrowOutlines (ops : Opcodes) : List Outline := [
  narrowWithCarry ops ops.iadd ops.iaddCout ops.iaddCin,
  narrowWithCarry ops ops.isub ops.isubBout ops.isubBin,
  narrowBitwise ops ops.band,
  narrowBitwise ops ops.bor,
  narrowBitwise ops ops.bxor]

/-- The outlines of the rules of `expand`. -/
def expandOutlines (ops : Opcodes) : List Outline := [
  expandSecond ops.iaddImm ops.iconst ops.iadd,
  expandSecond ops.imulImm ops.iconst ops.imul,
  expandSecond ops.bandNot ops.bnot ops.band,
  expandSecond ops.borNot ops.bnot ops.bor,
  expandSecond ops.bxorNot ops.bnot ops.bxor]

/-! ### Groups -/

/-- The places where the shared rules are declared.  One declaration splits all three of the bitwise
operations; every other rule has its own. -/
structure Sites where
  narrowIadd : String
  narrowIsub : String
  narrowBitwise : String
  expandIaddImm : String
  expandImulImm : String
  expandBandNot : String
  expandBorNot : String
  expandBxorNot : String
deriving DecidableEq, Repr

/-- The place of each rule of `narrow`. -/
def Sites.narrow (sites : Sites) : List String := [
  sites.narrowIadd, sites.narrowIsub,
  sites.narrowBitwise, sites.narrowBitwise, sites.narrowBitwise]

/-- The place of each rule of `expand`. -/
def Sites.expand (sites : Sites) : List String := [
  sites.expandIaddImm, sites.expandImulImm,
  sites.expandBandNot, sites.expandBorNot, sites.expandBxorNot]

/-- The group with the rules of the outlines added, in order, each with its place. -/
def legalizeAll (insts : InstructionGroup) (g : RuleGroup) (outlines : List (String × Outline)) :
    Except Error RuleGroup :=
  outlines.foldlM (fun g (site, o) => g.legalize site (o.script insts)) g

/-- The rules that split operations into halves. -/
def narrow (sites : Sites) (insts : InstructionGroup) (ops : Opcodes) : Except Error RuleGroup :=
  legalizeAll insts
    { name := "narrow"
      doc := "
        Legalize instructions by narrowing.

        The transformations in the 'narrow' group work by expressing
        instructions in terms of smaller types. Operations on vector types are
        expressed in terms of vector types with fewer lanes, and integer
        operations are expressed in terms of smaller integer types.
        " }
    (sites.narrow.zip (narrowOutlines ops))

/-- The rules that express instructions by others on the same type. -/
def expand (sites : Sites) (insts : InstructionGroup) (ops : Opcodes) : Except Error RuleGroup :=
  legalizeAll insts
    { name := "expand"
      doc := "
        Legalize instructions by expansion.

        Rewrite instructions in terms of other instructions, generally
        operating on the same types as the original instructions.
        " }
    (sites.expand.zip (expandOutlines ops))

end Isaforge.Shared
