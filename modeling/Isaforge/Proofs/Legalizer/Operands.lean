import Isaforge.Proofs.Legalizer.Opening
import Isaforge.Proofs.Legalizer.Scope

/-!
# Operands — each argument of the source is bound to the operand at its position

Binding the operands of the matched instruction counts twice: immediates and entities are read by
their position among all operands, values by their position among values.  Both counts are what
they should be because those of a position follow from the operands before it (`placeAfter`), so
that the lines are known position by position (`getElem?_bindOperands`).

* `valueIndices_bindOperands`: the values are read one after the other, none twice and none left
  out.
* `operands_unwrapped`: the lines of an arm that bind operands.  The rule was closed over the
  instructions it is generated with, so that its source has an argument for each operand.
-/

namespace Isaforge.Legalizer

open Source

variable {insts : InstructionGroup} {g : RuleGroup} {r : Rule} {i : Instruction}

/-! ### What a line reads -/

/-- The line binds the name to the operand at position `p`: values are read by their number among
themselves, immediates and entities by their position. -/
inductive Unwraps (os : List Operand) (p : Nat) (name : String) : String → Prop where
  | value {o : Operand} : os[p]? = some o → o.isValue → Unwraps os p name
      ("let " ++ name ++ " = dfg.inst_args(inst)[" ++ toString ((os.take p).countP (·.isValue)) ++
        "];")
  | immediate {o : Operand} {kind : String} : os[p]? = some o → o.kind = .immediate kind →
      Unwraps os p name
        ("let " ++ name ++ " = dfg[inst].imm_operand(" ++ toString p ++ ");")
  | entity {o : Operand} {kind : String} : os[p]? = some o → o.kind = .entity kind →
      Unwraps os p name
        ("let " ++ name ++ " = dfg[inst].entity_operand(" ++ toString p ++ ");")

/-- The number of the value that the line reads. -/
def Statement.valueIndex? (s : Statement) : Option Nat :=
  match s.operand? with
  | some (_, .value index) => some index
  | _ => none

theorem text_bindOperand_value (name : String) (n : Nat) :
    (Statement.bindOperand name (.value n)).text =
      "let " ++ name ++ " = dfg.inst_args(inst)[" ++ toString n ++ "];" := by
  simp [Statement.text_bindOperand, OperandPlace.text_value, ← String.toList_inj,
    String.toList_append]

theorem text_bindOperand_immediate (name : String) (p : Nat) :
    (Statement.bindOperand name (.immediate p)).text =
      "let " ++ name ++ " = dfg[inst].imm_operand(" ++ toString p ++ ");" := by
  simp [Statement.text_bindOperand, OperandPlace.text_immediate, ← String.toList_inj,
    String.toList_append]

theorem text_bindOperand_entity (name : String) (p : Nat) :
    (Statement.bindOperand name (.entity p)).text =
      "let " ++ name ++ " = dfg[inst].entity_operand(" ++ toString p ++ ");" := by
  simp [Statement.text_bindOperand, OperandPlace.text_entity, ← String.toList_inj,
    String.toList_append]

/-- The line that reads the operand at a position binds it. -/
theorem unwraps_placeAfter {os : List Operand} {vs : List Var} (hlength : vs.length = os.length)
    {p : Nat} {o : Operand} (ho : os[p]? = some o) (name : String) :
    Unwraps os p name
      (Statement.bindOperand name (placeAfter ((os.zip vs).take p) o)).text := by
  have hp : p < os.length := (List.getElem?_eq_some_iff.mp ho).1
  have hposition : ((os.zip vs).take p).length = p := by
    rw [List.length_take, List.length_zip]
    omega
  have hvalues : (((os.zip vs).take p).filter (·.1.isValue)).length =
      (os.take p).countP (·.isValue) := by
    have hfst : ((os.zip vs).take p).map (·.1) = os.take p := by
      rw [List.map_take, List.map_fst_zip hlength.ge]
    rw [← hfst, List.countP_map, List.countP_eq_length_filter]
    rfl
  cases hkind : o.kind with
  | value t | typeVar t =>
      rw [placeAfter, hkind]
      simp only [text_bindOperand_value, hvalues]
      exact .value ho (by simp [Operand.isValue, hkind])
  | immediate t =>
      rw [placeAfter, hkind]
      simp only [text_bindOperand_immediate, hposition]
      exact .immediate ho hkind
  | entity t =>
      rw [placeAfter, hkind]
      simp only [text_bindOperand_entity, hposition]
      exact .entity ho hkind

/-! ### The lines in order -/

/-- The line at a position, after operands that were bound before. -/
theorem getElem?_bindOperands (pre : List (Operand × Var)) (os : List Operand) (vs : List Var)
    (p : Nat) :
    (bindOperands pre.length (pre.filter (·.1.isValue)).length os vs)[p]? =
      (os.zip vs)[p]?.map fun q =>
        .bindOperand q.2.name (placeAfter (pre ++ (os.zip vs).take p) q.1) := by
  induction os generalizing pre vs p with
  | nil => simp [bindOperands]
  | cons o os ih =>
      cases vs with
      | nil => simp [bindOperands]
      | cons v vs =>
          rw [bindOperands_cons pre o v]
          cases p with
          | zero => simp
          | succ p =>
              rw [List.getElem?_cons_succ, ih]
              simp

theorem length_bindOperands (position values : Nat) (os : List Operand) (vs : List Var) :
    (bindOperands position values os vs).length = min os.length vs.length := by
  induction os generalizing position values vs with
  | nil => simp [bindOperands]
  | cons o os ih =>
      cases vs with
      | nil => simp [bindOperands]
      | cons v vs =>
          obtain ⟨place, position', values', hcons⟩ :=
            exists_bindOperands_cons position values o os v vs
          rw [hcons, List.length_cons, ih, List.length_cons, List.length_cons,
            Nat.add_min_add_right]

/-- The values are read in order. -/
theorem valueIndices_bindOperands (position values : Nat) {os : List Operand} {vs : List Var}
    (hlength : vs.length = os.length) :
    (bindOperands position values os vs).filterMap (·.valueIndex?) =
      List.range' values (os.countP (·.isValue)) := by
  induction os generalizing position values vs with
  | nil =>
      obtain rfl : vs = [] := List.eq_nil_of_length_eq_zero hlength
      rfl
  | cons o os ih =>
      obtain ⟨v, vs, rfl⟩ := List.exists_cons_of_length_eq_add_one hlength
      have hrest : vs.length = os.length := by simpa using hlength
      cases hkind : o.kind with
      | value t | typeVar t =>
          have hvalue : o.isValue = true := by simp [Operand.isValue, hkind]
          simp only [bindOperands, hkind]
          rw [List.countP_cons_of_pos hvalue, List.range'_succ, List.filterMap_cons, ih _ _ hrest]
          rfl
      | immediate t | entity t =>
          have hvalue : ¬ o.isValue = true := by simp [Operand.isValue, hkind]
          simp only [bindOperands, hkind]
          rw [List.countP_cons_of_neg hvalue, List.filterMap_cons, ih _ _ hrest]
          rfl

/-! ### The lines of an arm -/

/-- The lines of an arm that bind operands, for an instruction that the arguments are the operands
of. -/
structure OperandsUnwrapped (r : Rule) (i : Instruction) (args : List Var) (arm : List Statement) :
    Prop where
  /-- There is one for each operand. -/
  one_each : (operandLines arm).length = i.ins.length
  /-- They stand in the order of the operands, and bind the argument at the same position. -/
  unwraps : ∀ p s, (operandLines arm)[p]? = some s →
    ∃ v, args[p]? = some v ∧ Unwraps i.ins p v.name s.text
  /-- They read every value once, one after the other. -/
  value_indices : (operandLines arm).filterMap (·.valueIndex?) =
    List.range (i.ins.countP (·.isValue))
  /-- No line of the arm reads a value that the instruction does not have. -/
  value_index_lt : ∀ s ∈ arm, ∀ index, s.valueIndex? = some index →
    index < i.ins.countP (·.isValue)
  /-- Every input of the rule is bound to an operand. -/
  inputs_bound : ∀ v ∈ r.inputs, ∃ p s, args[p]? = some v ∧ (operandLines arm)[p]? = some s ∧
    Unwraps i.ins p v.name s.text

theorem mem_operandLines_of_valueIndex? {arm : List Statement} {s : Statement} (hs : s ∈ arm)
    {index : Nat} (h : s.valueIndex? = some index) : s ∈ operandLines arm := by
  refine List.mem_filter.mpr ⟨hs, ?_⟩
  cases hoperand : s.operand? with
  | none => simp [Statement.valueIndex?, hoperand] at h
  | some q => rfl

/-- The inputs of a rule with one source definition are its arguments. -/
theorem mem_inputs_iff {m : Matcher} {c : Catalog}
    (hsrc : m.rule.src.defs = [⟨m.outputs, ⟨m.head, m.args.map .var⟩⟩]) (hsound : m.rule.Sound c)
    {v : Var} : v ∈ m.rule.inputs ↔ v ∈ m.args := by
  obtain ⟨-, -, -, hinputs⟩ := Rule.checkInputs_eq_ok_iff.mp hsound.inputs_eq
  rw [hinputs, mem_distinct, mem_openUses_source hsrc]

/-- The arm of a sound rule unwraps the operands. -/
theorem operandsUnwrapped_of_sound {m : Matcher} {arm : List Statement}
    (hsrc : m.rule.src.defs = [⟨m.outputs, ⟨m.head, m.args.map .var⟩⟩])
    (hsound : m.rule.Sound insts.catalog) (hi : insts.get? m.head.inst = some i)
    (harm : m.statements insts i = arm.map .ok) : OperandsUnwrapped m.rule i m.args arm := by
  have hlength : m.args.length = i.ins.length := length_args_of_sound hsrc hsound hi
  have hlines := operandLines_arm hsrc hsound.roles_eq harm
  have hone : (operandLines arm).length = i.ins.length := by
    rw [hlines, length_bindOperands, hlength, Nat.min_self]
  have hunwraps : ∀ p s, (operandLines arm)[p]? = some s →
      ∃ v, m.args[p]? = some v ∧ Unwraps i.ins p v.name s.text := by
    intro p s hs
    have hat := getElem?_bindOperands [] i.ins m.args p
    rw [hlines] at hs
    obtain ⟨⟨o, v⟩, hq, rfl⟩ := Option.map_eq_some_iff.mp (hat.symm.trans hs)
    obtain ⟨ho, hv⟩ := List.getElem?_zip_eq_some.mp hq
    exact ⟨v, hv, unwraps_placeAfter hlength ho v.name⟩
  have hindices : (operandLines arm).filterMap (·.valueIndex?) =
      List.range (i.ins.countP (·.isValue)) := by
    rw [hlines, valueIndices_bindOperands 0 0 hlength, List.range_eq_range']
  refine ⟨hone, hunwraps, hindices, ?_, ?_⟩
  · intro s hs index hindex
    have hmem : index ∈ (operandLines arm).filterMap (·.valueIndex?) :=
      List.mem_filterMap.mpr ⟨s, mem_operandLines_of_valueIndex? hs hindex, hindex⟩
    rw [hindices] at hmem
    exact List.mem_range.mp hmem
  · intro v hv
    obtain ⟨p, hp⟩ := List.getElem?_of_mem ((mem_inputs_iff hsrc hsound).mp hv)
    have hlt : p < (operandLines arm).length := by
      rw [hone, ← hlength]
      exact (List.getElem?_eq_some_iff.mp hp).1
    have hs := List.getElem?_eq_getElem hlt
    obtain ⟨w, hw, hunwrap⟩ := hunwraps p _ hs
    obtain rfl : v = w := Option.some.inj (hp.symm.trans hw)
    exact ⟨p, _, hp, hs, hunwrap⟩

/-- **Operands are unwrapped.**  Take a rule of a group that a function is generated for, closed
over the catalog of its instructions.  Its arm binds each argument of the source to the operand at
the same position, and every input of the rule is such an argument. -/
theorem operands_unwrapped (hgen : (groupEmission insts g).error? = none) (hr : r ∈ g.rules)
    (hclosed : r.ClosedOver insts.catalog) :
    ∃ (m : Matcher) (i : Instruction) (arm : List Statement),
      Matcher.ofRule r = .ok m ∧ insts.get? m.head.inst = some i ∧
      m.statements insts i = arm.map .ok ∧
      (armCode i arm).nested.nested <:+: (groupEmission insts g).lines ∧
      r.src.defs = [⟨m.outputs, ⟨m.head, m.args.map .var⟩⟩] ∧
      OperandsUnwrapped r i m.args arm := by
  obtain ⟨m, i, arm, hof, hi, harm, hcode⟩ := exists_arm hgen hr
  obtain ⟨hsrc, rfl⟩ := Matcher.ofRule_eq_ok_iff.mp hof
  exact ⟨m, i, arm, hof, hi, harm, hcode, hsrc,
    operandsUnwrapped_of_sound hsrc hclosed.sound hi harm⟩

/-- Store a lane of a value in a stack slot, under a condition. -/
def spillLane : Instruction where
  name := "spill_lane"
  doc := "Store a lane of a value in a stack slot, under a condition."
  ins := [Shared.immediate "Lane", Shared.valueOf "x" Shared.int,
    ⟨"SS", .entity "stack_slot", none⟩, Shared.flag "c" "Condition"]
  outs := [Shared.valueOf "a" Shared.int]

/-- Store a value in a stack slot, under a condition. -/
def spillValue : Instruction where
  name := "spill_value"
  doc := "Store a value in a stack slot, under a condition."
  ins := [Shared.valueOf "x" Shared.int, ⟨"SS", .entity "stack_slot", none⟩,
    Shared.flag "c" "Condition"]
  outs := [Shared.valueOf "a" Shared.int]

/-- The rule `a << spill_lane(n, x, s, c) => a << spill_value(x, s, c)`. -/
def wholeSpill : Rule where
  site := "spill"
  src := ⟨.source, [⟨[⟨0, "a"⟩], ⟨⟨⟨0⟩, "spill_lane", []⟩,
    [.var ⟨1, "n"⟩, .var ⟨2, "x"⟩, .var ⟨3, "s"⟩, .var ⟨4, "c"⟩]⟩⟩]⟩
  dst := ⟨.destination, [⟨[⟨0, "a"⟩], ⟨⟨⟨1⟩, "spill_value", []⟩,
    [.var ⟨2, "x"⟩, .var ⟨3, "s"⟩, .var ⟨4, "c"⟩]⟩⟩]⟩
  inputs := [⟨1, "n"⟩, ⟨2, "x"⟩, ⟨3, "s"⟩, ⟨4, "c"⟩]
  roles := ⟨[(⟨0, "a"⟩, .output), (⟨1, "n"⟩, .input), (⟨2, "x"⟩, .input), (⟨3, "s"⟩, .input),
    (⟨4, "c"⟩, .input)]⟩

/-- The instructions of `wholeSpill`. -/
def spills : InstructionGroup :=
  ⟨"spills", "", [spillLane, spillValue]⟩

theorem wholeSpill_accepted : wholeSpill.Accepted spills.catalog := by
  refine Rule.accepted_of_close rfl rfl (.unbound rfl rfl rfl ?_) (.unbound rfl rfl rfl ?_)
    (by decide) (by decide) rfl
  · simp [Expr.Made.var]
  · simp [Expr.Made.var]

/-- The two values among the operands of `spillLane` are read as the first and the second value, the
others by their positions. -/
theorem wholeSpill_unwrapped :
    ∃ (m : Matcher) (i : Instruction) (arm : List Statement),
      Matcher.ofRule wholeSpill = .ok m ∧ spills.get? m.head.inst = some i ∧
      m.statements spills i = arm.map .ok ∧
      (armCode i arm).nested.nested <:+:
        (groupEmission spills ⟨"spill", "", [wholeSpill]⟩).lines ∧
      OperandsUnwrapped wholeSpill i m.args arm ∧
      (operandLines arm).map (·.text) =
        ["let n = dfg[inst].imm_operand(0);", "let x = dfg.inst_args(inst)[0];",
          "let s = dfg[inst].entity_operand(2);", "let c = dfg.inst_args(inst)[1];"] := by
  have hgen : (groupEmission spills ⟨"spill", "", [wholeSpill]⟩).error? = none := rfl
  obtain ⟨m, i, arm, hof, hi, harm, hcode, -, hunwrapped⟩ :=
    operands_unwrapped hgen List.mem_cons_self wholeSpill_accepted.closedOver
  refine ⟨m, i, arm, hof, hi, harm, hcode, hunwrapped, ?_⟩
  have hm : Matcher.ofRule wholeSpill = .ok ⟨wholeSpill, [⟨0, "a"⟩], ⟨⟨0⟩, "spill_lane", []⟩,
    [⟨1, "n"⟩, ⟨2, "x"⟩, ⟨3, "s"⟩, ⟨4, "c"⟩]⟩ := rfl
  obtain rfl := Except.ok.inj (hm.symm.trans hof)
  cases hi
  rw [eq_filterMap_of_map_ok harm]
  rfl

end Isaforge.Legalizer
