import Isaforge.Pattern

/-!
# The statements of an arm

The arm that replaces an instruction is a sequence of statements.  The first ones bind what the
matched instruction has to names: its controlling type, its operands, and its results when they
are detached to be attached again.  Then the replacement is built call by call, and at the end
either the matched instruction was replaced in place by the last call, or it is removed.

`Statement.text` writes a statement.  The generated code calls the function's data flow graph
`dfg`, the cursor `pos` and the matched instruction `inst`.
-/

namespace Isaforge.Legalizer

/-- Where an operand of the matched instruction is read from: value operands are counted among
themselves, immediates and entities among all operands. -/
inductive OperandPlace where
  | value (index : Nat)
  | immediate (position : Nat)
  | entity (position : Nat)
deriving DecidableEq, Repr

/-- The expression that reads an operand. -/
def OperandPlace.text : OperandPlace → String
  | .value index => "dfg.inst_args(inst)[" ++ toString index ++ "]"
  | .immediate position => "dfg[inst].imm_operand(" ++ toString position ++ ")"
  | .entity position => "dfg[inst].entity_operand(" ++ toString position ++ ")"

/-- The controlling type that a call is given: a constant, or that of the matched
instruction. -/
inductive TypeArgument where
  | constant (type : ValueType)
  | matched
deriving DecidableEq, Repr

/-- The name of the controlling type of the matched instruction. -/
def matchedTypeName : String := "ctrl_type"

/-- The controlling type as an argument. -/
def TypeArgument.text : TypeArgument → String
  | .constant type => type.constant
  | .matched => matchedTypeName

/-- A call of a method of the instruction builder. -/
structure BuilderCall where
  method : String
  type? : Option TypeArgument
  args : List String
deriving DecidableEq, Repr

/-- The call as text. -/
def BuilderCall.text (c : BuilderCall) : String :=
  c.method ++ "(" ++ ", ".intercalate ((c.type?.map (·.text)).toList ++ c.args) ++ ")"

/-- A result that a definition binds to a name; it is reused when the detached result of that
name is attached to it. -/
structure Result where
  name : String
  reused : Bool
deriving DecidableEq, Repr

/-- The result as an element of the list of results to attach. -/
def Result.slot (r : Result) : String :=
  if r.reused then "Some(" ++ r.name ++ ")" else "None"

/-- A statement of an arm. -/
inductive Statement where
  /-- A comment. -/
  | remark (text : String)
  /-- Bind the controlling type of the matched instruction. -/
  | bindType
  /-- Bind an operand of the matched instruction. -/
  | bindOperand (name : String) (place : OperandPlace)
  /-- Detach the results of the matched instruction. -/
  | detach
  /-- Bind a detached result. -/
  | bindResult (name : String) (index : Nat)
  /-- An empty line. -/
  | gap
  /-- Insert a call that was hoisted out of another. -/
  | hoisted (name : String) (call : BuilderCall)
  /-- Insert the call of a definition. -/
  | define (results : List Result) (call : BuilderCall)
  /-- Replace the matched instruction by a call. -/
  | replace (call : BuilderCall)
  /-- Remove the matched instruction. -/
  | remove
  /-- Answer that a rule was applied. -/
  | done
deriving DecidableEq, Repr

/-- The builder that inserts a call with the results: it is handed the list of results to attach
when one of them is reused. -/
def builderText (results : List Result) : String :=
  if results.any (·.reused) then
    "dfg.ins(pos).with_results([" ++ ", ".intercalate (results.map (·.slot)) ++ "])"
  else "dfg.ins(pos)"

/-- The statement as a line of source. -/
def Statement.text : Statement → String
  | .remark text => "// " ++ text
  | .bindType => "let " ++ matchedTypeName ++ " = dfg.ctrl_typevar(inst);"
  | .bindOperand name place => "let " ++ name ++ " = " ++ place.text ++ ";"
  | .detach => "let results = dfg.detach_results(inst);"
  | .bindResult name index => "let " ++ name ++ " = results[" ++ toString index ++ "];"
  | .gap => ""
  | .hoisted name call => "let " ++ name ++ " = dfg.ins(pos)." ++ call.text ++ ";"
  | .define results call =>
    "let " ++ Definition.bindingText (results.map (·.name)) ++ " = " ++ builderText results ++
      "." ++ call.text ++ ";"
  | .replace call => "dfg.replace(inst)." ++ call.text ++ ";"
  | .remove => "assert_eq!(pos.remove_inst(), inst);"
  | .done => "true"

end Isaforge.Legalizer
