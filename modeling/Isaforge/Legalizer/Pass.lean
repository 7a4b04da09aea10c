import Isaforge.Legalizer.Arm
import Isaforge.Source.Page

/-!
# The function of a legalization pass

A group of rules becomes a function that looks at the instruction under the cursor and, when a
rule of the group matches its opcode, replaces it.  The rules have to be usable for
legalization and to match distinct instructions; when they are not, nothing is generated.
-/

namespace Isaforge.Legalizer

open Source

/-- The rules as matchers of distinct instructions, none of them in `matched`. -/
def matchersFrom (group : String) (matched : List InstId) : List Rule → Except Error (List Matcher)
  | [] => .ok []
  | r :: rs => do
    let m ← Matcher.ofRule r
    if m.head.inst ∈ matched then
      throw (refusal r ("second transform for `" ++ m.head.name ++ "` in group `" ++ group ++ "`"))
    return m :: (← matchersFrom group (m.head.inst :: matched) rs)

/-- The rules of a group as matchers of distinct instructions. -/
def matchers (g : RuleGroup) : Except Error (List Matcher) :=
  matchersFrom g.name [] g.rules

/-- The arm of a rule: the opcode it matches and the statements that replace the
instruction. -/
def armEmission (insts : InstructionGroup) (m : Matcher) : Emission :=
  match insts.get? m.head.inst with
  | none => [.error (.unknownInstruction m.head.inst.index)]
  | some i =>
    .block ("ir::Opcode::" ++ i.camelName ++ " => \x7b")
      ((m.statements insts i).map fun s => s.map fun s => ⟨0, s.text⟩)
      "\x7d"

/-- The function that applies the rules of the matchers. -/
def functionEmission (insts : InstructionGroup) (g : RuleGroup) (ms : List Matcher) : Emission :=
  let cursor : Code :=
    Code.line "use ir::InstBuilder;" ++
    Code.block "let inst = match pos.current_inst() \x7b"
      (Code.line "Some(inst) => inst," ++ Code.line "None => return false,")
      "\x7d;"
  let dispatch : Emission :=
    .block "match dfg[inst].opcode() \x7b"
      (ms.flatMap (armEmission insts) ++ .ofCode (Code.line "_ => false,"))
      "\x7d"
  .ofCode (Code.doc g.doc ++ Code.line "#[allow(unused_variables, unused_assignments)]") ++
  .block
    ("pub fn " ++ g.name ++ "(dfg: &mut ir::DataFlowGraph, pos: &mut ir::Cursor) -> bool \x7b")
    (.ofCode cursor ++ dispatch)
    "\x7d"

/-- The function of a group, or the error of the first rule that cannot be used. -/
def groupEmission (insts : InstructionGroup) (g : RuleGroup) : Emission :=
  match matchers g with
  | .error e => [.error e]
  | .ok ms => functionEmission insts g ms

end Isaforge.Legalizer
