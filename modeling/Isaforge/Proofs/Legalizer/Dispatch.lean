import Isaforge.Proofs.Legalizer.Scope

/-!
# Dispatch — which instructions an arm fires on

The generated function takes the first arm for the opcode under the cursor (`reached?`), and the
lines of an arm have no branches.  So an arm fires on all instructions of its opcode, whatever their
operands and controlling types are.

The source of a rule may say more than an opcode.  A variable that it repeats stands for equal
operands, and type arguments for controlling types.  Nothing tests that, so a rule is only applied
to what its source matches when the source is `Linear`, and then always is (`arms_fire`).
`selfDifference` is a rule that is not linear: its arm fires on differences of unequal operands
(`selfDifference_fires_unmatched`).
-/

namespace Isaforge.Legalizer

open Source

variable {insts : InstructionGroup} {g : RuleGroup} {r : Rule} {m : Matcher} {i : Instruction}

/-! ### The arms of a function -/

/-- An arm of a function: the instruction that it is for, and its statements. -/
structure FunctionArm where
  inst : Instruction
  statements : List Statement

/-- The arm is that of the rule. -/
def FunctionArm.IsOf (insts : InstructionGroup) (r : Rule) (a : FunctionArm) : Prop :=
  ∃ m, Matcher.ofRule r = .ok m ∧ insts.get? m.head.inst = some a.inst ∧
    m.statements insts a.inst = a.statements.map .ok

/-- The function of a group with the arms. -/
def functionCode (g : RuleGroup) (arms : List FunctionArm) : Code :=
  Code.doc g.doc ++ Code.line "#[allow(unused_variables, unused_assignments)]" ++
  Code.block
    ("pub fn " ++ g.name ++ "(dfg: &mut ir::DataFlowGraph, pos: &mut ir::Cursor) -> bool \x7b")
    (Code.line "use ir::InstBuilder;" ++
      Code.block "let inst = match pos.current_inst() \x7b"
        (Code.line "Some(inst) => inst," ++ Code.line "None => return false,") "\x7d;" ++
      Code.block "match dfg[inst].opcode() \x7b"
        (arms.flatMap (fun a => armCode a.inst a.statements) ++ Code.line "_ => false,") "\x7d")
    "\x7d"

/-- The arms that matchers emit are those of their rules. -/
theorem exists_arms_of_emissions {ms : List Matcher}
    (h : ∀ m ∈ ms, ∃ a : FunctionArm, a.IsOf insts m.rule ∧
      armEmission insts m = .ofCode (armCode a.inst a.statements)) :
    ∃ arms : List FunctionArm, List.Forall₂ (FunctionArm.IsOf insts) (ms.map (·.rule)) arms ∧
      ms.flatMap (armEmission insts) =
        Emission.ofCode (arms.flatMap fun a => armCode a.inst a.statements) := by
  induction ms with
  | nil => exact ⟨[], .nil, rfl⟩
  | cons m ms ih =>
      obtain ⟨a, ha, hcode⟩ := h m List.mem_cons_self
      obtain ⟨arms, hforall, harms⟩ := ih fun m' hm' => h m' (List.mem_cons_of_mem _ hm')
      refine ⟨a :: arms, .cons ha hforall, ?_⟩
      rw [List.flatMap_cons, hcode, harms, List.flatMap_cons, Emission.ofCode_append]

theorem functionEmission_eq {ms : List Matcher} {arms : List FunctionArm}
    (harms : ms.flatMap (armEmission insts) =
      Emission.ofCode (arms.flatMap fun a => armCode a.inst a.statements)) :
    functionEmission insts g ms = .ofCode (functionCode g arms) := by
  rw [functionEmission, harms, functionCode]
  simp only [← Emission.ofCode_append, Emission.block_ofCode]

/-- **The arms of a function.**  A generated function has one arm for each rule, in order. -/
theorem exists_arms (hgen : (groupEmission insts g).error? = none) :
    ∃ arms : List FunctionArm, List.Forall₂ (FunctionArm.IsOf insts) g.rules arms ∧
      (groupEmission insts g).lines = functionCode g arms := by
  cases hms : matchers g with
  | error cause =>
      rw [groupEmission, hms] at hgen
      cases hgen
  | ok ms =>
      obtain ⟨hrules, hof⟩ := rules_of_matchersFrom hms
      have harm : ∀ m ∈ ms, ∃ a : FunctionArm, a.IsOf insts m.rule ∧
          armEmission insts m = .ofCode (armCode a.inst a.statements) := by
        intro m hm
        obtain ⟨m', i, arm, hof', hi, harm, -⟩ :=
          exists_arm hgen (hrules ▸ List.mem_map_of_mem hm)
        obtain rfl := Except.ok.inj ((hof m hm).symm.trans hof')
        exact ⟨⟨i, arm⟩, ⟨m, hof', hi, harm⟩, armEmission_eq hi harm⟩
      obtain ⟨arms, hforall, harms⟩ := exists_arms_of_emissions harm
      refine ⟨arms, hrules ▸ hforall, ?_⟩
      have hgroup : groupEmission insts g = functionEmission insts g ms := by
        rw [groupEmission, hms]
      rw [hgroup, functionEmission_eq harms, Emission.lines_ofCode]

/-- The place of the arm that the function takes for an opcode: the first that is for it.  For an
opcode that none is for, the function does nothing. -/
def reached? (arms : List FunctionArm) (opcode : String) : Option Nat :=
  arms.findIdx? fun a => a.inst.camelName = opcode

theorem opcode_of_reached {arms : List FunctionArm} {opcode : String} {n : Nat} {a : FunctionArm}
    (ha : arms[n]? = some a) (h : reached? arms opcode = some n) : a.inst.camelName = opcode := by
  obtain ⟨hlt, hopcode, -⟩ := List.findIdx?_eq_some_iff_getElem.mp h
  rw [List.getElem?_eq_getElem hlt] at ha
  rw [← Option.some.inj ha]
  simpa using hopcode

/-! ### Candidates -/

section

variable {V : Type}

/-- An instruction that a function may find under the cursor: its opcode, its controlling types and
the values of its operands. -/
structure Candidate (V : Type) where
  opcode : String
  types : List ValueType
  operands : List V

/-- The candidate is an instance of the instruction. -/
structure Candidate.Of (i : Instruction) (c : Candidate V) : Prop where
  opcode : c.opcode = i.camelName
  types_length : c.types.length = i.typeVars.length
  operands_length : c.operands.length = i.arity

/-- The application describes the candidate: it has the instruction, a variable that is repeated
stands for equal operands, and type arguments are those of the candidate. -/
structure Candidate.Matches (insts : InstructionGroup) (a : Application) (c : Candidate V) :
    Prop where
  inst : ∃ i, insts.get? a.head.inst = some i ∧ i.camelName = c.opcode
  repeated : ∀ (j k : Nat) (v : Var), a.args[j]? = some (.var v) → a.args[k]? = some (.var v) →
    c.operands[j]? = c.operands[k]?
  types : a.head.types <+: c.types

end

/-- The application says no more than its instruction: it repeats no variable, and is bound to no
types. -/
def Linear (a : Application) : Prop :=
  a.vars.Nodup ∧ a.head.types = []

/-- The names that the line binds to operands. -/
def Statement.operandNames : Statement → List String
  | .bindOperand name _ => [name]
  | .remark _ | .bindType | .detach | .bindResult _ _ | .gap | .hoisted _ _ | .define _ _
  | .replace _ | .remove | .done => []

/-! ### What the source says -/

theorem vars_map_var (head : Head) (vs : List Var) :
    (Application.mk head (vs.map .var)).vars = vs := by
  simp [Application.vars, Application.expr, Expr.vars, Expr.varsAll_eq_flatMap, List.flatMap_map]

/-- A linear application describes every candidate of its instruction. -/
theorem Linear.matches {V : Type} {head : Head} {vs : List Var}
    (h : Linear ⟨head, vs.map .var⟩) (hi : insts.get? head.inst = some i) {c : Candidate V}
    (hc : i.camelName = c.opcode) : c.Matches insts ⟨head, vs.map .var⟩ where
  inst := ⟨i, hi, hc⟩
  repeated := by
    intro j k v hj hk
    have hnodup : vs.Nodup := vars_map_var head vs ▸ h.1
    have hget : ∀ j : Nat, (vs.map Expr.var)[j]? = some (Expr.var v) → vs[j]? = some v := by
      intro j hj
      rw [List.getElem?_map, Option.map_eq_some_iff] at hj
      obtain ⟨w, hw, hwv⟩ := hj
      rw [hw, Expr.var.inj hwv]
    have hlt : j < vs.length := (List.getElem?_eq_some_iff.mp (hget j hj)).1
    obtain rfl : j = k := (List.getElem?_inj hlt hnodup).mp ((hget j hj).trans (hget k hk).symm)
    rfl
  types := by
    rw [show head.types = [] from h.2]
    exact List.nil_prefix

/-- An application that is not linear does not describe some candidate of its instruction. -/
theorem exists_not_matches {head : Head} {vs : List Var} (h : ¬ Linear ⟨head, vs.map .var⟩)
    (hlength : vs.length = i.arity) :
    ∃ c : Candidate Bool, c.Of i ∧ ¬ c.Matches insts ⟨head, vs.map .var⟩ := by
  cases htypes : head.types with
  | nil =>
      have hrepeated : ¬ vs.Nodup := fun hnodup => h ⟨(vars_map_var head vs).symm ▸ hnodup, htypes⟩
      simp only [List.nodup_iff_getElem?_ne_getElem?, not_forall, not_not] at hrepeated
      obtain ⟨j, k, hjk, hk, heq⟩ := hrepeated
      -- the repeated variable stands for two operands that are not equal
      refine ⟨⟨i.camelName, List.replicate i.typeVars.length (.scalar ⟨.bool, 1⟩),
        (List.range i.arity).map (· == j)⟩, ⟨rfl, by simp, by simp⟩, fun hmatches => ?_⟩
      have hj : j < i.arity := by omega
      have hv : vs[k]? = some vs[k] := List.getElem?_eq_getElem hk
      have hequal := hmatches.repeated j k vs[k]
        (by rw [List.getElem?_map, heq, hv]; rfl) (by rw [List.getElem?_map, hv]; rfl)
      have hk' : k < i.arity := by omega
      simp [hj, hk'] at hequal
      omega
  | cons t ts =>
      obtain ⟨t', hne⟩ : ∃ t' : ValueType, t' ≠ t := by
        by_cases ht : t = .scalar ⟨.bool, 1⟩
        · exact ⟨.scalar ⟨.int, 32⟩, by rw [ht]; decide⟩
        · exact ⟨_, fun heq => ht heq.symm⟩
      refine ⟨⟨i.camelName, List.replicate i.typeVars.length t', List.replicate i.arity false⟩,
        ⟨rfl, by simp, by simp⟩, fun hmatches => ?_⟩
      have hmem : t ∈ List.replicate i.typeVars.length t' :=
        hmatches.types.subset (htypes ▸ List.mem_cons_self)
      exact hne (List.eq_of_mem_replicate hmem).symm

/-! ### The operands of an arm -/

theorem operandNames_bindOperands (position values : Nat) (os : List Operand) (vs : List Var) :
    (bindOperands position values os vs).flatMap Statement.operandNames =
      (vs.take os.length).map (·.name) := by
  rw [← binds_bindOperands position values]
  refine List.flatMap_congr fun s hs => ?_
  obtain ⟨v, -, place, rfl⟩ := exists_of_mem_bindOperands hs
  rfl

theorem operandNames_operandLines (arm : List Statement) :
    (operandLines arm).flatMap Statement.operandNames = arm.flatMap Statement.operandNames := by
  induction arm with
  | nil => rfl
  | cons s ss ih =>
      simp only [operandLines] at ih ⊢
      cases s <;> simpa [Statement.operand?, Statement.operandNames] using ih

/-- The operand lines of an arm bind the arguments of the source, in order. -/
theorem operandNames_arm {arm : List Statement}
    (hsrc : m.rule.src.defs = [⟨m.outputs, ⟨m.head, m.args.map .var⟩⟩])
    (hroles : m.rule.roles = .classify m.rule.src.defs m.rule.dst.defs)
    (harm : m.statements insts i = arm.map .ok) :
    arm.flatMap Statement.operandNames = (m.args.take i.arity).map (·.name) := by
  rw [← operandNames_operandLines, operandLines_arm hsrc hroles harm, operandNames_bindOperands]
  rfl

/-! ### Firing -/

/-- What the arm `a` at place `n`, of the rule `r` with the source application `src`, fires on. -/
structure Fires (insts : InstructionGroup) (arms : List FunctionArm) (n : Nat) (r : Rule)
    (a : FunctionArm) (src : Application) : Prop where
  /-- Only instructions of the opcode of the source reach it. -/
  opcode : ∀ opcode, reached? arms opcode = some n →
    insts.get? src.head.inst = some a.inst ∧ a.inst.camelName = opcode
  /-- When the source is linear, it describes what reaches the arm. -/
  described : Linear src → ∀ (V : Type) (c : Candidate V), reached? arms c.opcode = some n →
    c.Matches insts src
  /-- Otherwise it does not describe all that reaches the arm. -/
  undescribed : r.Accepted insts.catalog → ¬ Linear src → ∀ opcode, reached? arms opcode = some n →
    ∃ c : Candidate Bool, c.Of a.inst ∧ c.opcode = opcode ∧ ¬ c.Matches insts src
  /-- The operands of a source that repeats no variable have distinct names. -/
  unshadowed : src.vars.Nodup → (a.statements.flatMap Statement.operandNames).Nodup
  /-- The operands of a source that repeats a variable do not. -/
  shadowed : r.Accepted insts.catalog → ¬ src.vars.Nodup →
    ¬ (a.statements.flatMap Statement.operandNames).Nodup

/-- The arm of a rule that was built fires on the instructions of its opcode. -/
theorem fires_of_isOf {arms : List FunctionArm} {n : Nat} {a : FunctionArm} (hbuilt : r.Built)
    (ha : arms[n]? = some a) (hof : a.IsOf insts r) :
    ∃ outputs src, r.src.defs = [⟨outputs, src⟩] ∧ Fires insts arms n r a src := by
  obtain ⟨m, hof, hi, harm⟩ := hof
  obtain ⟨hsrc, rfl⟩ := Matcher.ofRule_eq_ok_iff.mp hof
  obtain ⟨hroles, hdistinct⟩ := hbuilt.close_eq
  have hnames := operandNames_arm hsrc hroles harm
  have hargs : ∀ v ∈ m.args, Roles.Mentioned (m.rule.src.defs ++ m.rule.dst.defs) v := fun v hv =>
    ⟨_, List.mem_append_left _ (mem_source hsrc), .inr (uses_source_iff.mpr hv)⟩
  refine ⟨m.outputs, ⟨m.head, m.args.map .var⟩, hsrc, ?_⟩
  exact {
    opcode := fun opcode h => ⟨hi, opcode_of_reached ha h⟩
    described := fun hlinear V c h => hlinear.matches hi (opcode_of_reached ha h)
    undescribed := by
      intro haccepted hlinear opcode h
      obtain ⟨c, hc, hno⟩ :=
        exists_not_matches hlinear (length_args_of_sound hsrc haccepted.sound hi)
      exact ⟨c, hc, hc.opcode.trans (opcode_of_reached ha h), hno⟩
    unshadowed := by
      intro hnodup
      rw [vars_map_var] at hnodup
      rw [hnames]
      refine (hnodup.sublist (List.take_sublist _ _)).map_on fun v hv w hw => ?_
      exact hdistinct v w (hargs v (List.mem_of_mem_take hv)) (hargs w (List.mem_of_mem_take hw))
    shadowed := by
      intro haccepted hrepeated hnodup
      have hlength := length_args_of_sound hsrc haccepted.sound hi
      rw [hnames, List.take_of_length_le hlength.le] at hnodup
      exact hrepeated ((vars_map_var m.head m.args).symm ▸ hnodup.of_map) }

/-- **Arms fire on opcodes.**  A function that is generated for a group of rules that were built has
an arm for each of them.  The arm of a rule fires only on the instructions of its source, and tests
nothing else about them: it fires only on what the source describes when the source is linear, and
then binds no operand over another, and not when it is not. -/
theorem arms_fire (hgen : (groupEmission insts g).error? = none) (hbuilt : ∀ r ∈ g.rules, r.Built) :
    ∃ arms : List FunctionArm, (groupEmission insts g).lines = functionCode g arms ∧
      List.Forall₂ (FunctionArm.IsOf insts) g.rules arms ∧
      ∀ n r a, g.rules[n]? = some r → arms[n]? = some a →
        ∃ outputs src, r.src.defs = [⟨outputs, src⟩] ∧ Fires insts arms n r a src := by
  obtain ⟨arms, hforall, hlines⟩ := exists_arms hgen
  refine ⟨arms, hlines, hforall, ?_⟩
  intro n r a hr ha
  obtain ⟨hn, rfl⟩ := List.getElem?_eq_some_iff.mp hr
  obtain ⟨hn', rfl⟩ := List.getElem?_eq_some_iff.mp ha
  exact fires_of_isOf (hbuilt _ (List.getElem_mem hn)) ha
    ((List.forall₂_iff_get.mp hforall).2 n hn hn')

/-- The arm of `nestedExpansion` fires on the additions of an immediate, and all of them are what
its source describes. -/
theorem nestedExpansion_fires :
    ∃ arms : List FunctionArm,
      (groupEmission Shared.group ⟨"expand", "", [nestedExpansion]⟩).lines =
        functionCode ⟨"expand", "", [nestedExpansion]⟩ arms ∧
      reached? arms "IaddImm" = some 0 ∧
      ∀ c : Candidate Nat, c.opcode = "IaddImm" →
        c.Matches Shared.group ⟨⟨⟨6⟩, "iadd_imm", []⟩, [.var Shared.x, .var Shared.y]⟩ := by
  have hgen : (groupEmission Shared.group ⟨"expand", "", [nestedExpansion]⟩).error? = none := rfl
  have hbuilt : ∀ r ∈ [nestedExpansion], r.Built := by
    simpa using nestedExpansion_accepted.built
  obtain ⟨arms, hlines, hforall, hfires⟩ := arms_fire hgen hbuilt
  obtain ⟨a, arms, ⟨m, hof, hi, -⟩, hrest, rfl⟩ := List.forall₂_cons_left_iff.mp hforall
  obtain rfl := List.forall₂_nil_left_iff.mp hrest
  have hm : Matcher.ofRule nestedExpansion = .ok ⟨nestedExpansion, [Shared.a],
    ⟨⟨6⟩, "iadd_imm", []⟩, [Shared.x, Shared.y]⟩ := rfl
  obtain rfl := Except.ok.inj (hm.symm.trans hof)
  have hopcode : a.inst.camelName = "IaddImm" := by
    rw [← Option.some.inj hi]
    rfl
  have hreached : reached? [a] "IaddImm" = some 0 := by
    simp [reached?, hopcode]
  refine ⟨[a], hlines, hreached, fun c hc => ?_⟩
  obtain ⟨outputs, src, hsrc, h⟩ := hfires 0 _ a rfl rfl
  cases hsrc
  exact h.described ⟨by decide, rfl⟩ Nat c (hc ▸ hreached)

/-- The rule `a << isub(x, x) => a << bxor(x, x)`. -/
def selfDifference : Rule where
  site := "expand"
  src := ⟨.source, [⟨[Shared.a], ⟨⟨⟨4⟩, "isub", []⟩, [.var Shared.x, .var Shared.x]⟩⟩]⟩
  dst := ⟨.destination, [⟨[Shared.a], ⟨⟨⟨14⟩, "bxor", []⟩, [.var Shared.x, .var Shared.x]⟩⟩]⟩
  inputs := [Shared.x]
  roles := ⟨[(Shared.a, .output), (Shared.x, .input)]⟩

/-- The rule `a << iadd.i32(x, y) => a << iadd(y, x)`. -/
def boundSum : Rule where
  site := "expand"
  src := ⟨.source, [⟨[Shared.a],
    ⟨⟨⟨3⟩, "iadd", [.scalar ⟨.int, 32⟩]⟩, [.var Shared.x, .var Shared.y]⟩⟩]⟩
  dst := ⟨.destination, [⟨[Shared.a], ⟨⟨⟨3⟩, "iadd", []⟩, [.var Shared.y, .var Shared.x]⟩⟩]⟩
  inputs := [Shared.x, Shared.y]
  roles := ⟨[(Shared.a, .output), (Shared.x, .input), (Shared.y, .input)]⟩

theorem selfDifference_accepted : selfDifference.Accepted Shared.group.catalog := by
  have hvars : ∀ e ∈ [Expr.var Shared.x, .var Shared.x], e.Made Shared.group.catalog := by
    simp [Expr.Made.var]
  exact Rule.accepted_of_close rfl rfl (.unbound rfl rfl rfl hvars) (.unbound rfl rfl rfl hvars)
    (by decide) (by decide) rfl

theorem boundSum_accepted : boundSum.Accepted Shared.group.catalog := by
  have hvars : ∀ v w : Var, ∀ e ∈ [Expr.var v, .var w], e.Made Shared.group.catalog := by
    simp [Expr.Made.var]
  have hsource : (Expr.app ⟨⟨3⟩, "iadd", [.scalar ⟨.int, 32⟩]⟩ [.var Shared.x, .var Shared.y]).Made
      Shared.group.catalog := by
    have hmake : Application.make Shared.group.catalog (.unbound ⟨3⟩) [.scalar ⟨.int, 32⟩]
        [.var Shared.x, .var Shared.y] =
        .ok ⟨⟨⟨3⟩, "iadd", [.scalar ⟨.int, 32⟩]⟩, [.var Shared.x, .var Shared.y]⟩ := rfl
    exact .app (hvars _ _) hmake
  exact Rule.accepted_of_close rfl rfl hsource (.unbound rfl rfl rfl (hvars _ _))
    (by decide) (by decide) rfl

/-- The difference of the 32-bit integers `5` and `3`. -/
def unequalDifference : Candidate Nat :=
  ⟨"Isub", [.scalar ⟨.int, 32⟩], [5, 3]⟩

/-- The sum of the 64-bit integers `5` and `3`. -/
def wideSum : Candidate Nat :=
  ⟨"Iadd", [.scalar ⟨.int, 64⟩], [5, 3]⟩

/-- Rules that are not linear are accepted, and a function generated for them.  The arm of
`selfDifference` fires on the difference of unequal operands, and binds the second over the first;
that of `boundSum` fires on a sum of wider integers. -/
theorem selfDifference_fires_unmatched :
    (∀ r ∈ [selfDifference, boundSum], r.Accepted Shared.group.catalog) ∧
      (groupEmission Shared.group ⟨"expand", "", [selfDifference, boundSum]⟩).error? = none ∧
      ∃ a a' : FunctionArm, a.IsOf Shared.group selfDifference ∧ a'.IsOf Shared.group boundSum ∧
        (groupEmission Shared.group ⟨"expand", "", [selfDifference, boundSum]⟩).lines =
          functionCode ⟨"expand", "", [selfDifference, boundSum]⟩ [a, a'] ∧
        unequalDifference.Of a.inst ∧
        reached? [a, a'] unequalDifference.opcode = some 0 ∧
        ¬ unequalDifference.Matches Shared.group
          ⟨⟨⟨4⟩, "isub", []⟩, [.var Shared.x, .var Shared.x]⟩ ∧
        a.statements.flatMap Statement.operandNames = ["x", "x"] ∧
        wideSum.Of a'.inst ∧
        reached? [a, a'] wideSum.opcode = some 1 ∧
        ¬ wideSum.Matches Shared.group
          ⟨⟨⟨3⟩, "iadd", [.scalar ⟨.int, 32⟩]⟩, [.var Shared.x, .var Shared.y]⟩ := by
  have hgen :
      (groupEmission Shared.group ⟨"expand", "", [selfDifference, boundSum]⟩).error? = none := rfl
  obtain ⟨arms, hforall, hlines⟩ := exists_arms hgen
  obtain ⟨a, arms, ha, hrest, rfl⟩ := List.forall₂_cons_left_iff.mp hforall
  obtain ⟨a', arms, ha', hnil, rfl⟩ := List.forall₂_cons_left_iff.mp hrest
  obtain rfl := List.forall₂_nil_left_iff.mp hnil
  refine ⟨by simp [selfDifference_accepted, boundSum_accepted], hgen, a, a', ha, ha', hlines, ?_⟩
  obtain ⟨m, hof, hi, harm⟩ := ha
  have hm : Matcher.ofRule selfDifference = .ok ⟨selfDifference, [Shared.a],
    ⟨⟨4⟩, "isub", []⟩, [Shared.x, Shared.x]⟩ := rfl
  obtain rfl := Except.ok.inj (hm.symm.trans hof)
  obtain ⟨m', hof', hi', -⟩ := ha'
  have hm' : Matcher.ofRule boundSum = .ok ⟨boundSum, [Shared.a],
    ⟨⟨3⟩, "iadd", [.scalar ⟨.int, 32⟩]⟩, [Shared.x, Shared.y]⟩ := rfl
  obtain rfl := Except.ok.inj (hm'.symm.trans hof')
  have hdifference : unequalDifference.Of a.inst := by
    rw [← Option.some.inj hi]
    exact ⟨rfl, rfl, rfl⟩
  have hsum : wideSum.Of a'.inst := by
    rw [← Option.some.inj hi']
    exact ⟨rfl, rfl, rfl⟩
  refine ⟨hdifference, ?_, fun hmatches => ?_, ?_, hsum, ?_, fun hmatches => ?_⟩
  · simp [reached?, List.findIdx?_cons, hdifference.opcode]
  · exact absurd (hmatches.repeated 0 1 Shared.x rfl rfl) (by decide)
  · rw [← Option.some.inj hi] at harm
    rw [eq_filterMap_of_map_ok harm]
    rfl
  · have hne : a.inst.camelName ≠ a'.inst.camelName := by
      rw [← hdifference.opcode, ← hsum.opcode]
      decide
    simp [reached?, List.findIdx?_cons, hne, hsum.opcode]
  · exact absurd hmatches.types (by decide)

end Isaforge.Legalizer
