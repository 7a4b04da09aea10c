import Isaforge.Operand
import Isaforge.Repetition
import Isaforge.Text.Blank
import Isaforge.Text.CamelCase

/-!
# Instructions

An instruction is declared with its input and output operands.  What else there is to know
about it is derived: it is polymorphic when an operand has a type variable, and its type
variables are the distinct ones of its operands, by name, in the order of inputs and then
outputs.  The controlling one comes first: that of the first input with a type variable, and
where no input has one, that of the first output.
-/

namespace Isaforge

/-- An instruction of the IR. -/
structure Instruction where
  name : String
  doc : String
  ins : List Operand
  outs : List Operand
  isTerminator : Bool := false
deriving DecidableEq, Repr

namespace Instruction

/-- Names of instructions that the generated language keeps for itself, so that no method may
have them. -/
def reservedWords : List String :=
  ["return", "break", "continue", "loop", "match"]

/-- The first type variable of an input. -/
def inputTypeVar? (i : Instruction) : Option TypeVar :=
  i.ins.findSome? (·.typeVar?)

/-- An input fixes the controlling type. -/
def hasTypeVarInput (i : Instruction) : Bool :=
  i.inputTypeVar?.isSome

/-- The type variable whose type selects the instance of the instruction. -/
def controlling? (i : Instruction) : Option TypeVar :=
  i.inputTypeVar? <|> i.outs.findSome? (·.typeVar?)

/-- The distinct type variables of the operands, the controlling one first. -/
def typeVars (i : Instruction) : List TypeVar :=
  distinctBy (·.name)
    (i.controlling?.toList ++ i.ins.filterMap (·.typeVar?) ++ i.outs.filterMap (·.typeVar?))

/-- The instruction has type variables. -/
def isPolymorphic (i : Instruction) : Bool :=
  !i.typeVars.isEmpty

/-- The number of input operands. -/
def arity (i : Instruction) : Nat :=
  i.ins.length

/-- A call of the instruction has to say its controlling type: it has one, and no input fixes
it. -/
def needsType (i : Instruction) : Bool :=
  i.isPolymorphic && !i.hasTypeVarInput

/-- The name of the opcode in generated code. -/
def camelName (i : Instruction) : String :=
  Text.camelCase i.name

/-- The name of the builder method in generated code: a reserved word gets an underscore. -/
def methodName (i : Instruction) : String :=
  if i.name ∈ reservedWords then i.name ++ "_" else i.name

/-- The short form of the documentation. -/
def blurb (i : Instruction) : String :=
  Text.blurb i.doc

/-- The instruction with its operands, as documentation writes it: `a = iadd x, y`. -/
def text (i : Instruction) : String :=
  let names (os : List Operand) := ", ".intercalate (os.map (·.name))
  (if i.outs.isEmpty then "" else names i.outs ++ " = ") ++ i.name ++ " " ++ names i.ins

end Instruction

end Isaforge
