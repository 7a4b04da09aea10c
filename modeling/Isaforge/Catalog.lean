import Isaforge.Instruction

/-!
# Catalogs of instructions

Rules refer to instructions by `InstId` and are put together against a `Catalog`: for each
instruction it knows a signature, and it decides which type arguments may be bound to it.  The
usual catalog is an `InstructionGroup`, which hands out its ids in the order its instructions
are added and holds no two of one name; it also checks that each type argument is in the type
set of its type variable.  A catalog that offers signatures alone checks the number of type
arguments and no more (`Catalog.ofSignatures`).
-/

namespace Isaforge

/-- The handle of an instruction: its place in its group.  Handles are stored in 32 bits, which is
enough for a group of fewer than `2 ^ 32` instructions; the number itself has no bound here. -/
structure InstId where
  index : Nat
deriving DecidableEq, Repr

/-- A reference to an instruction, bound to type arguments or not. -/
inductive InstRef where
  | unbound (id : InstId)
  | bound (id : InstId) (types : List ValueType)
deriving DecidableEq, Repr

namespace InstRef

/-- The instruction referred to. -/
def id : InstRef → InstId
  | .unbound id | .bound id _ => id

/-- The type arguments the reference carries. -/
def types : InstRef → List ValueType
  | .unbound _ => []
  | .bound _ types => types

end InstRef

/-- What the application of an instruction has to respect. -/
structure Signature where
  name : String
  arity : Nat
  isPolymorphic : Bool
  typeVarCount : Nat
deriving DecidableEq, Repr

/-- The signature of an instruction. -/
def Instruction.signature (i : Instruction) : Signature :=
  ⟨i.name, i.arity, i.isPolymorphic, i.typeVars.length⟩

/-- What a rule is put together against: the signatures of instructions, and which type
arguments may be bound to one. -/
structure Catalog where
  signature? : InstId → Option Signature
  checkBinding : InstId → List ValueType → Except Error Unit

namespace Catalog

/-- Type arguments are for polymorphic instructions, one for each type variable at most. -/
def checkCount (signature? : InstId → Option Signature) (id : InstId) (types : List ValueType) :
    Except Error Unit :=
  match signature? id with
  | none => .error (.unknownInstruction id.index)
  | some s =>
    if types.isEmpty then .ok ()
    else if !s.isPolymorphic then .error (.notPolymorphic s.name)
    else if s.typeVarCount < types.length then
      .error (.tooManyTypeArguments s.name s.typeVarCount types.length)
    else .ok ()

/-- The catalog of which only the signatures are known. -/
def ofSignatures (signature? : InstId → Option Signature) : Catalog :=
  ⟨signature?, checkCount signature?⟩

end Catalog

/-- A named set of instructions, in the order of their ids. -/
structure InstructionGroup where
  name : String
  doc : String
  instructions : List Instruction := []
deriving Repr

namespace InstructionGroup

/-- The number of instructions. -/
def size (g : InstructionGroup) : Nat :=
  g.instructions.length

/-- The group has no instruction. -/
def isEmpty (g : InstructionGroup) : Bool :=
  g.instructions.isEmpty

/-- The instruction `id`. -/
def get? (g : InstructionGroup) (id : InstId) : Option Instruction :=
  g.instructions[id.index]?

/-- The id of the instruction called `name`. -/
def find? (g : InstructionGroup) (name : String) : Option InstId :=
  (g.instructions.findIdx? (·.name = name)).map InstId.mk

/-- The group with the instruction added, and its id; refused when the name is taken. -/
def push (g : InstructionGroup) (i : Instruction) : Except Error (InstructionGroup × InstId) :=
  if (g.find? i.name).isSome then .error (.duplicateInstruction g.name i.name)
  else .ok ({ g with instructions := g.instructions ++ [i] }, ⟨g.size⟩)

/-- The signature of the instruction `id`. -/
def signature? (g : InstructionGroup) (id : InstId) : Option Signature :=
  (g.get? id).map (·.signature)

/-- The first type argument that is outside the type set of its type variable, with that
variable. -/
def misfit? (i : Instruction) (types : List ValueType) : Option (TypeVar × ValueType) :=
  (i.typeVars.zip types).find? fun (var, type) => !var.types.contains type

/-- The type arguments may be bound to the instruction `id`: not too many, and each in the type
set of its type variable. -/
def checkBinding (g : InstructionGroup) (id : InstId) (types : List ValueType) :
    Except Error Unit :=
  match g.get? id with
  | none => .error (.unknownInstruction id.index)
  | some i =>
    if types.isEmpty then .ok ()
    else if !i.isPolymorphic then .error (.notPolymorphic i.name)
    else if i.typeVars.length < types.length then
      .error (.tooManyTypeArguments i.name i.typeVars.length types.length)
    else
      match misfit? i types with
      | some (var, type) => .error (.typeNotAllowed i.name var.name type.text)
      | none => .ok ()

/-- The group as a catalog. -/
def catalog (g : InstructionGroup) : Catalog :=
  ⟨g.signature?, g.checkBinding⟩

/-- The group as a catalog of signatures alone. -/
def signatures (g : InstructionGroup) : Catalog :=
  .ofSignatures g.signature?

/-- The reference with further type arguments bound to it. -/
def bind (g : InstructionGroup) (ref : InstRef) (types : List ValueType) :
    Except Error InstRef := do
  let all := ref.types ++ types
  g.checkBinding ref.id all
  return .bound ref.id all

end InstructionGroup

end Isaforge
