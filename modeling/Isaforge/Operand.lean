import Isaforge.TypeSet

/-!
# Operands of instructions

An operand is a value, of a fixed type or of the type a type variable stands for, an immediate,
or a reference to an entity of the IR such as a block.
-/

namespace Isaforge

/-- What an operand is. -/
inductive OperandKind where
  | value (type : ValueType)
  | typeVar (var : TypeVar)
  | immediate (kind : String)
  | entity (kind : String)
deriving DecidableEq, Repr

/-- A named operand, with a documentation text of its own or not. -/
structure Operand where
  name : String
  kind : OperandKind
  ownDoc? : Option String := none
deriving DecidableEq, Repr

namespace Operand

/-- The type variable of the operand. -/
def typeVar? (o : Operand) : Option TypeVar :=
  match o.kind with
  | .typeVar var => some var
  | _ => none

/-- The documentation of the operand: its own, or else that of its type variable. -/
def doc? (o : Operand) : Option String :=
  o.ownDoc? <|> o.typeVar?.map (·.doc)

/-- The operand as documentation texts write it. -/
def text (o : Operand) : String :=
  "`" ++ o.name ++ "`"

/-- A value operand: of a fixed type or of the type of a type variable. -/
def isValue (o : Operand) : Bool :=
  match o.kind with
  | .value _ | .typeVar _ => true
  | .immediate _ | .entity _ => false

end Operand

end Isaforge
