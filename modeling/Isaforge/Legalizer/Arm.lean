import Isaforge.Fresh
import Isaforge.Legalizer.Statement

/-!
# The arm of a rule

A rule can be used for legalization when its source is one definition whose arguments are
variables; `Matcher.ofRule` takes it apart.  `Matcher.statements` is the arm that replaces a
matched instruction: the arguments of the source are bound to the operands of the instruction,
and the definitions of the destination are built in order, nested applications hoisted under
fresh names.

When the last definition of the destination has exactly the outputs of the source, its call
replaces the matched instruction in place.  Otherwise the results that are outputs of the rule
are detached first and attached to the calls that define them, and the instruction is removed
at the end.

A statement whose instruction the catalog does not know is an error at its place, and so is one
that a variable without a role or a nested call would go into.
-/

namespace Isaforge.Legalizer

/-- A rule whose source is one definition with variables for arguments. -/
structure Matcher where
  rule : Rule
  outputs : List Var
  head : Head
  args : List Var
deriving Repr

/-- The error of a rule that cannot be used for legalization. -/
def refusal (r : Rule) (reason : String) : Error :=
  .codeGeneration ("transform at " ++ r.site ++ ": " ++ reason)

namespace Matcher

/-- The variables that the expressions are, when all are variables. -/
def vars? : List Expr → Option (List Var)
  | [] => some []
  | e :: es => do return (← e.var?) :: (← vars? es)

/-- The rule as a matcher. -/
def ofRule (r : Rule) : Except Error Matcher :=
  match r.src.defs with
  | [d] =>
    match vars? d.value.args with
    | some args => .ok ⟨r, d.outputs, d.value.head, args⟩
    | none => .error (refusal r "source arguments must be variables")
  | _ => .error (refusal r "legalization needs exactly one source definition")

/-- The source of the rule as text. -/
def sourceText (m : Matcher) : String :=
  m.rule.src.text

/-- The last definition of the destination has exactly the outputs of the source, so its call
can replace the matched instruction. -/
def replaces (m : Matcher) : Bool :=
  m.rule.dst.defs.getLast?.any (·.outputs = m.outputs)

/-- The names that a hoisted call must not get. -/
def taken (m : Matcher) : List String :=
  m.rule.roles.vars.map (·.name)

/-- The definitions with their calls flattened, one supply serving all. -/
def flattenAll {σ : Type} (next : Supply σ) : List Definition → σ → List (Definition × FlatSequence)
  | [], _ => []
  | d :: ds, s =>
    let (calls, s) := (Call.ofApplication d.value).flatten next s
    (d, calls) :: flattenAll next ds s

/-- The definitions of the destination with their calls flattened. -/
def destination (m : Matcher) : List (Definition × FlatSequence) :=
  flattenAll (Fresh.supply m.taken) m.rule.dst.defs 0

end Matcher

/-- The controlling type that a call with the type arguments `types` is given: the first of
them, or that of the matched instruction. -/
def typeArgument : List ValueType → TypeArgument
  | [] => .matched
  | type :: _ => .constant type

/-- The builder's call of an instruction: it is given the controlling type when no input fixes
it. -/
def builderCallOf (i : Instruction) (c : FlatCall) : BuilderCall :=
  ⟨i.methodName, if i.needsType then some (typeArgument c.op.types) else none, c.args⟩

/-- The error of a call with a nested call among its arguments, which no builder takes. -/
def notHoisted (c : Call) : Error :=
  .codeGeneration ("nested call in `" ++ c.text ++ "` was not hoisted")

/-- The name that an argument of the call `c` is. -/
def argumentName (c : Call) : CallArg → Except Error String
  | .name n => .ok n
  | .call _ _ => .error (notHoisted c)

/-- The builder's call of a call, whose arguments have to be names. -/
def builderCall (insts : InstructionGroup) (c : Call) : Except Error BuilderCall :=
  match insts.get? c.op.inst with
  | none => .error (.unknownInstruction c.op.inst.index)
  | some i => do return builderCallOf i ⟨c.op, ← c.args.mapM (argumentName c)⟩

/-- The call is given the controlling type of the matched instruction. -/
def usesMatchedType (insts : InstructionGroup) (c : FlatCall) : Bool :=
  (insts.get? c.op.inst).any fun i => i.needsType && c.op.types.isEmpty

/-- The statements that bind variables to the operands of the matched instruction, from
operand `position` on, `values` value operands having come before. -/
def bindOperands (position values : Nat) : List Operand → List Var → List Statement
  | [], _ | _, [] => []
  | o :: os, v :: vs =>
    match o.kind with
    | .value _ | .typeVar _ =>
      .bindOperand v.name (.value values) :: bindOperands (position + 1) (values + 1) os vs
    | .immediate _ =>
      .bindOperand v.name (.immediate position) :: bindOperands (position + 1) values os vs
    | .entity _ =>
      .bindOperand v.name (.entity position) :: bindOperands (position + 1) values os vs

/-- The outputs of a definition as results; those that are outputs of the rule are reused. -/
def resultsOf (r : Rule) (outputs : List Var) : Except Error (List Result) :=
  outputs.mapM fun v => do return ⟨v.name, ← r.expectOutput v⟩

/-- The statements that detach the results of the matched instruction and bind those that are
reused. -/
def bindResults (results : List Result) : List Statement :=
  let reused := results.zipIdx.filter fun (result, _) => result.reused
  if reused.isEmpty then []
  else .detach :: reused.map fun (result, index) => .bindResult result.name index

/-- The statements for the results of the matched instruction, which stay where they are when the
instruction is replaced in place. -/
def Matcher.resultStatements (m : Matcher) : List (Except Error Statement) :=
  match resultsOf m.rule m.outputs with
  | .error e => [.error e]
  | .ok results => if m.replaces then [] else (bindResults results).map .ok

/-- The statements of the calls hoisted out of a definition. -/
def hoistedStatements (insts : InstructionGroup) (calls : FlatSequence) :
    List (Except Error Statement) :=
  calls.hoisted.map fun c => (builderCall insts c.call.asCall).map (.hoisted c.name)

/-- The statement of a definition itself. -/
def defineStatement (insts : InstructionGroup) (r : Rule) (d : Definition) (c : FlatCall) :
    Except Error Statement := do
  let call ← builderCall insts c.asCall
  return .define (← resultsOf r d.outputs) call

/-- The statements that build the definitions of a destination; the call of the last one
replaces the matched instruction when `replaces` holds. -/
def buildStatements (insts : InstructionGroup) (r : Rule) (replaces : Bool) :
    List (Definition × FlatSequence) → List (Except Error Statement)
  | [] => []
  | [(d, calls)] =>
    hoistedStatements insts calls ++
      [if replaces then (builderCall insts calls.top.asCall).map .replace
        else defineStatement insts r d calls.top]
  | (d, calls) :: rest =>
    hoistedStatements insts calls ++ [defineStatement insts r d calls.top] ++
      buildStatements insts r replaces rest

/-- The arm that replaces an instruction `i` that the rule matches. -/
def Matcher.statements (insts : InstructionGroup) (m : Matcher) (i : Instruction) :
    List (Except Error Statement) :=
  let destination := m.destination
  let calls := destination.flatMap (·.2.calls)
  let opening : List Statement :=
    [.remark ("Unwrap " ++ m.sourceText)] ++
    (if calls.any (usesMatchedType insts) then [.bindType] else []) ++
    bindOperands 0 0 i.ins m.args
  let closing : List Statement :=
    (if m.replaces then [] else [.remove]) ++ [.done]
  opening.map .ok ++ m.resultStatements ++ [.ok .gap] ++
    buildStatements insts m.rule m.replaces destination ++ closing.map .ok

end Isaforge.Legalizer
