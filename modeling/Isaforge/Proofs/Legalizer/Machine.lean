import Isaforge.Legalizer.Pass
import Isaforge.Proofs.Flattening

/-!
# Machine — what the statements of an arm do

`exec` runs a statement of an arm on the instruction that is replaced.  The state of a run is what
the names of the arm stand for, the values that the results of the instruction have been given,
whether it is removed, and the calls made so far, in order.

Nothing is taken for granted about names: the data flow graph, the cursor, the matched instruction,
its controlling type and its detached results are looked up under the names the generator gives
them, a builder's method under its name in the catalog, and every argument of a call under its own.
A statement that finds something else there is stuck, as is a call with the wrong number of
arguments, or with a type where the method takes none.

What an instruction computes is an `Interpretation`: from the instruction, the controlling type its
method was given and the values of its arguments to its results.  `operations` is what it makes of
the calls of a rule: a call without type arguments has the controlling type of the matched
instruction.
-/

namespace Isaforge.Legalizer

variable {V : Type}

/-! ### States -/

/-- What the generator names itself. -/
inductive Builtin where
  /-- The data flow graph. -/
  | graph
  | cursor
  /-- The matched instruction. -/
  | matched
  /-- The detached results of the matched instruction. -/
  | detached
deriving DecidableEq

/-- The name in generated code. -/
def Builtin.name : Builtin → String
  | .graph => "dfg"
  | .cursor => "pos"
  | .matched => "inst"
  | .detached => "results"

/-- The names that the generator keeps for itself. -/
def reservedNames : List String :=
  [Builtin.graph.name, Builtin.cursor.name, Builtin.matched.name, Builtin.detached.name,
    matchedTypeName]

/-- What a name stands for. -/
inductive Referent (V : Type) where
  | builtin (b : Builtin)
  /-- A controlling type. -/
  | type (t : ValueType)
  /-- A detached result of the matched instruction, which has no value yet. -/
  | result (index : Nat)
  | value (x : V)

/-- A call that was made: the instruction, the controlling type its method was given, and the
values of its arguments. -/
structure Performed (V : Type) where
  inst : InstId
  type? : Option ValueType
  args : List V

/-- What instructions compute. -/
abbrev Interpretation (V : Type) := Performed V → List V

/-- The matched instruction: its controlling type, and its operands with their values. -/
structure Instance (V : Type) where
  type : ValueType
  operands : List (Operand × V)

/-- The state of a run. -/
structure State (V : Type) where
  names : String → Option (Referent V)
  results : Nat → Option V
  removed : Bool
  log : List (Performed V)

/-- Where an arm starts: with the graph, the cursor and the matched instruction. -/
def State.start : State V where
  names := fun n =>
    if n = Builtin.graph.name then some (.builtin .graph)
    else if n = Builtin.cursor.name then some (.builtin .cursor)
    else if n = Builtin.matched.name then some (.builtin .matched)
    else none
  results := fun _ => none
  removed := false
  log := []

namespace State

/-- The name of `b` stands for it. -/
def sees (st : State V) (b : Builtin) : Bool :=
  match st.names b.name with
  | some (.builtin b') => b' = b
  | _ => false

/-- The value that the name stands for. -/
def value? (st : State V) (n : String) : Option V :=
  match st.names n with
  | some (.value x) => some x
  | _ => none

/-- The controlling type that the argument stands for. -/
def type? (st : State V) : TypeArgument → Option ValueType
  | .constant t => some t
  | .matched =>
    match st.names matchedTypeName with
    | some (.type t) => some t
    | _ => none

/-- The detached result that is attached to a result: for one that is not reused, there is none. -/
def slot? (st : State V) (r : Result) : Option (Option Nat) :=
  if r.reused then
    match st.names r.name with
    | some (.result index) => some (some index)
    | _ => none
  else some none

/-- The state with a name bound. -/
def bind (st : State V) (n : String) (d : Referent V) : State V :=
  { st with names := Function.update st.names n (some d) }

/-- The state after a call. -/
def made (st : State V) (p : Performed V) : State V :=
  { st with log := st.log ++ [p] }

end State

/-! ### Runs -/

/-- The value of an operand. -/
def Instance.read (k : Instance V) : OperandPlace → Option V
  | .value index => ((k.operands.filter (·.1.isValue)).map (·.2))[index]?
  | .immediate position =>
    k.operands[position]?.bind fun (o, x) =>
      match o.kind with
      | .immediate _ => some x
      | _ => none
  | .entity position =>
    k.operands[position]?.bind fun (o, x) =>
      match o.kind with
      | .entity _ => some x
      | _ => none

/-- The instruction that the builder's method inserts. -/
def resolve (insts : InstructionGroup) (method : String) : Option (InstId × Instruction) :=
  (insts.instructions.findIdx? (·.methodName = method)).bind fun n =>
    insts.instructions[n]?.map fun i => (⟨n⟩, i)

/-- The controlling type that the builder's method is given, if it is given one. -/
def State.given? (st : State V) : Option TypeArgument → Option (Option ValueType)
  | none => some none
  | some t => (st.type? t).map some

/-- The call that the builder is asked for. -/
def State.perform (insts : InstructionGroup) (st : State V) (c : BuilderCall) :
    Option (Performed V) :=
  (resolve insts c.method).bind fun (id, i) =>
    if c.type?.isSome = i.needsType ∧ c.args.length = i.arity then do
      return ⟨id, ← st.given? c.type?, ← c.args.mapM st.value?⟩
    else none

variable [Inhabited V]

/-- The results of the matched instruction, after they were attached to those of a call. -/
def attach (results : Nat → Option V) (slots : List (Option Nat)) (zs : List V) :
    Nat → Option V :=
  fun index => bindAs some (fun slot => slot.bind results) slots zs (some index)

/-- Run a statement. -/
def exec (insts : InstructionGroup) (I : Interpretation V) (k : Instance V) (st : State V) :
    Statement → Option (State V)
  | .remark _ | .gap | .done => some st
  | .bindType =>
    if st.sees .graph && st.sees .matched then some (st.bind matchedTypeName (.type k.type))
    else none
  | .bindOperand name place =>
    if st.sees .graph && st.sees .matched then
      (k.read place).map fun x => st.bind name (.value x)
    else none
  | .detach =>
    if st.sees .graph && st.sees .matched then
      some (st.bind Builtin.detached.name (.builtin .detached))
    else none
  | .bindResult name index =>
    if st.sees .detached then some (st.bind name (.result index)) else none
  | .hoisted name call =>
    if st.sees .graph && st.sees .cursor then
      (st.perform insts call).map fun p =>
        (st.made p).bind name (.value ((I p).headD default))
    else none
  | .define results call =>
    if st.sees .graph && st.sees .cursor then do
      let slots ← results.mapM st.slot?
      let p ← st.perform insts call
      return { st.made p with
        names := bindAs (fun x => some (.value x)) st.names (results.map (·.name)) (I p)
        results := attach st.results slots (I p) }
    else none
  | .replace call =>
    if st.sees .graph && st.sees .matched then
      (st.perform insts call).map fun p =>
        { st.made p with results := fun index => some ((I p).getD index default) }
    else none
  | .remove =>
    if st.sees .cursor && st.sees .matched then some { st with removed := true } else none

/-- Run statements, in order. -/
def run (insts : InstructionGroup) (I : Interpretation V) (k : Instance V) (st : State V)
    (ss : List Statement) : Option (State V) :=
  ss.foldlM (exec insts I k) st

/-- Run statements as they are generated; an error is stuck. -/
def runEmitted (insts : InstructionGroup) (I : Interpretation V) (k : Instance V) (st : State V)
    (es : List (Except Error Statement)) : Option (State V) :=
  es.foldlM (fun st e => e.toOption.bind (exec insts I k st)) st

/-! ### Calls of rules -/

/-- The controlling type that the method of an instruction is given, for a call with the type
arguments `types`, where `type` is the controlling type of the matched instruction. -/
def explicitType? (insts : InstructionGroup) (type : ValueType) (inst : InstId)
    (types : List ValueType) : Option ValueType :=
  (insts.get? inst).bind fun i => if i.needsType then some (types.headD type) else none

/-- The call of an operation. -/
def performed (insts : InstructionGroup) (type : ValueType) (op : Operation) (xs : List V) :
    Performed V :=
  ⟨op.inst, explicitType? insts type op.inst op.types, xs⟩

/-- What operations compute. -/
def operations (insts : InstructionGroup) (I : Interpretation V) (type : ValueType) :
    Operations V :=
  fun op xs => I (performed insts type op xs)

end Isaforge.Legalizer
