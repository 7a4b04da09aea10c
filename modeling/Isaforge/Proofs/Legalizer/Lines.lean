import Isaforge.Proofs.Legalizer.Refusal

/-!
# Lines — what an arm is made of

An arm opens, makes the calls of the destination, and closes (`exists_arm_lines`).  Which lines open
it, and which make calls, is said by `Opens` and `Makes`.  Only the opening binds operands, and
nothing else in it does (`operandLines_arm`).
-/

namespace Isaforge.Legalizer

variable {insts : InstructionGroup} {r : Rule} {m : Matcher} {i : Instruction}

/-! ### The opening -/

/-- The first operand is bound to the first argument. -/
theorem exists_bindOperands_cons (position values : Nat) (o : Operand) (os : List Operand) (v : Var)
    (vs : List Var) :
    ∃ place position' values', bindOperands position values (o :: os) (v :: vs) =
      .bindOperand v.name place :: bindOperands position' values' os vs := by
  cases hkind : o.kind with
  | value t | typeVar t | immediate t | entity t =>
      exact ⟨_, _, _, by rw [bindOperands, hkind]⟩

theorem exists_of_mem_bindOperands {position values : Nat} {os : List Operand} {vs : List Var}
    {s : Statement} (h : s ∈ bindOperands position values os vs) :
    ∃ v ∈ vs, ∃ place, s = .bindOperand v.name place := by
  induction os generalizing position values vs with
  | nil => cases h
  | cons o os ih =>
      cases vs with
      | nil => cases h
      | cons v vs =>
          obtain ⟨place, position', values', hcons⟩ :=
            exists_bindOperands_cons position values o os v vs
          rw [hcons] at h
          rcases List.mem_cons.mp h with rfl | h
          · exact ⟨v, List.mem_cons_self, place, rfl⟩
          · obtain ⟨w, hw, place', hs⟩ := ih h
            exact ⟨w, List.mem_cons_of_mem _ hw, place', hs⟩

theorem of_mem_detachStatements {s : Statement} (h : s ∈ detachStatements m) :
    s = .detach ∨ ∃ v ∈ m.outputs, ∃ index, s = .bindResult v.name index := by
  rw [detachStatements] at h
  split at h
  · cases h
  · refine (List.mem_cons.mp h).imp_right fun h => ?_
    obtain ⟨p, hp, rfl⟩ := List.mem_map.mp h
    exact ⟨p.1, (of_mem_reusedOutputs hp).1, p.2, rfl⟩

/-- The line opens an arm of the matcher. -/
inductive Opens (m : Matcher) : Statement → Prop where
  | remark : Opens m (.remark ("Unwrap " ++ m.sourceText))
  | type : Opens m .bindType
  | operand {v : Var} {place : OperandPlace} : v ∈ m.args → Opens m (.bindOperand v.name place)
  | detach : Opens m .detach
  | result {v : Var} {index : Nat} : v ∈ m.outputs → Opens m (.bindResult v.name index)
  | gap : Opens m .gap

theorem opens_of_mem {s : Statement} (hs : s ∈ m.opening insts i) : Opens m s := by
  simp only [Matcher.opening, List.mem_append, List.mem_singleton] at hs
  rcases hs with (((rfl | hs) | hs) | hs) | rfl
  · exact .remark
  · obtain rfl : s = .bindType := by
      cases htyped : m.typed insts <;> simp [htyped] at hs
      exact hs
    exact .type
  · obtain ⟨v, hv, place, rfl⟩ := exists_of_mem_bindOperands hs
    exact .operand hv
  · have hdetach : s ∈ detachStatements m := by
      cases hreplaces : m.replaces <;> simp [hreplaces] at hs
      exact hs
    rcases of_mem_detachStatements hdetach with rfl | ⟨v, hv, index, rfl⟩
    · exact .detach
    · exact .result hv
  · exact .gap

/-! ### The calls -/

/-- The line makes a call of the destination. -/
inductive Makes (insts : InstructionGroup) (m : Matcher) : Statement → Prop where
  | hoisted {p : Definition × FlatSequence} {c : NamedCall} {call : BuilderCall} :
      p ∈ m.destination → c ∈ p.2.hoisted → builderCall insts c.call.asCall = .ok call →
      Makes insts m (.hoisted c.name call)
  | define {p : Definition × FlatSequence} {results : List Result} {call : BuilderCall} :
      p ∈ m.destination → results.map (·.name) = p.1.outputs.map (·.name) →
      builderCall insts p.2.top.asCall = .ok call → Makes insts m (.define results call)
  | replace {p : Definition × FlatSequence} {call : BuilderCall} :
      p ∈ m.destination → builderCall insts p.2.top.asCall = .ok call →
      Makes insts m (.replace call)

theorem mem_buildStatements {replaces : Bool} {l : List (Definition × FlatSequence)}
    {e : Except Error Statement} (h : e ∈ buildStatements insts r replaces l) :
    ∃ p ∈ l, e ∈ hoistedStatements insts p.2 ∨ e = defineStatement insts r p.1 p.2.top ∨
      e = (builderCall insts p.2.top.asCall).map .replace := by
  induction l with
  | nil => cases h
  | cons p l ih =>
      cases l with
      | nil =>
          rw [buildStatements, List.mem_append, List.mem_singleton] at h
          refine ⟨p, List.mem_cons_self, h.imp_right fun h => ?_⟩
          cases replaces with
          | false => exact .inl h
          | true => exact .inr h
      | cons q l =>
          rw [buildStatements_cons_cons, definitionStatements, List.mem_append, List.mem_append,
            List.mem_singleton] at h
          rcases h with (h | h) | h
          · exact ⟨p, List.mem_cons_self, .inl h⟩
          · exact ⟨p, List.mem_cons_self, .inr (.inl h)⟩
          · obtain ⟨p', hp', h⟩ := ih h
            exact ⟨p', List.mem_cons_of_mem _ hp', h⟩

/-- Every line between the opening and the closing makes a call of the destination. -/
theorem makes_of_mem {built : List Statement}
    (hroles : m.rule.roles = .classify m.rule.src.defs m.rule.dst.defs)
    (hbuilt : buildStatements insts m.rule m.replaces m.destination = built.map .ok)
    {s : Statement} (hs : s ∈ built) : Makes insts m s := by
  have hmem : .ok s ∈ buildStatements insts m.rule m.replaces m.destination := by
    rw [hbuilt]
    exact List.mem_map_of_mem hs
  obtain ⟨p, hp, h⟩ := mem_buildStatements hmem
  have houtputs := outputs_subset_of_mem_destination hroles hp
  rcases h with h | h | h
  · obtain ⟨c, hc, h⟩ := List.mem_map.mp h
    obtain ⟨call, hcall, rfl⟩ := map_eq_ok_iff.mp h
    exact .hoisted hp hc hcall
  · rw [defineStatement_eq houtputs] at h
    obtain ⟨call, hcall, rfl⟩ := map_eq_ok_iff.mp h.symm
    exact .define hp (by rw [List.map_map]; rfl) hcall
  · obtain ⟨call, hcall, rfl⟩ := map_eq_ok_iff.mp h.symm
    exact .replace hp hcall

/-! ### The closing -/

theorem of_mem_closing {s : Statement} (hs : s ∈ m.closing) : s = .remove ∨ s = .done := by
  rw [Matcher.closing, List.mem_append, List.mem_singleton] at hs
  refine hs.imp_left fun hs => ?_
  cases hreplaces : m.replaces with
  | true => simp [hreplaces] at hs
  | false => simpa [hreplaces] using hs

/-! ### The whole arm -/

/-- An arm opens, builds the destination, and closes. -/
theorem exists_arm_parts {arm : List Statement} (houtputs : m.outputs ⊆ m.rule.roles.vars)
    (harm : m.statements insts i = arm.map .ok) :
    ∃ built, arm = m.opening insts i ++ built ++ m.closing ∧
      buildStatements insts m.rule m.replaces m.destination = built.map .ok := by
  have hinjective : Function.Injective (Except.ok : Statement → Except Error Statement) :=
    fun _ _ h => Except.ok.inj h
  rw [Matcher.statements_eq insts i houtputs] at harm
  obtain ⟨front, closing, rfl, hfront, hclosing⟩ := List.map_eq_append_iff.mp harm.symm
  obtain ⟨opening, built, rfl, hopening, hbuilt⟩ := List.map_eq_append_iff.mp hfront
  rw [List.map_injective_iff.mpr hinjective hopening,
    List.map_injective_iff.mpr hinjective hclosing]
  exact ⟨built, rfl, hbuilt.symm⟩

/-- **The lines of an arm**: those that open it, those that make the calls of the destination, and
those that close it. -/
theorem exists_arm_lines {arm : List Statement}
    (hsrc : m.rule.src.defs = [⟨m.outputs, ⟨m.head, m.args.map .var⟩⟩])
    (hroles : m.rule.roles = .classify m.rule.src.defs m.rule.dst.defs)
    (harm : m.statements insts i = arm.map .ok) :
    ∃ built, arm = m.opening insts i ++ built ++ m.closing ∧ ∀ s ∈ built, Makes insts m s := by
  obtain ⟨built, harm, hbuilt⟩ := exists_arm_parts (outputs_subset_vars hsrc hroles) harm
  exact ⟨built, harm, fun s hs => makes_of_mem hroles hbuilt hs⟩

/-- The only remark of an arm says what the source is. -/
theorem text_of_remark_mem_arm {arm : List Statement}
    (hsrc : m.rule.src.defs = [⟨m.outputs, ⟨m.head, m.args.map .var⟩⟩])
    (hroles : m.rule.roles = .classify m.rule.src.defs m.rule.dst.defs)
    (harm : m.statements insts i = arm.map .ok) {text : String} (h : .remark text ∈ arm) :
    text = "Unwrap " ++ m.sourceText := by
  obtain ⟨built, rfl, hmakes⟩ := exists_arm_lines hsrc hroles harm
  rcases List.mem_append.mp h with h | h
  · rcases List.mem_append.mp h with h | h
    · cases opens_of_mem h with
      | remark => rfl
    · cases hmakes _ h
  · rcases of_mem_closing h with h | h
    · cases h
    · cases h

/-! ### The operands -/

/-- The name that the line binds to an operand, and where the operand is read from. -/
def Statement.operand? : Statement → Option (String × OperandPlace)
  | .bindOperand name place => some (name, place)
  | .remark _ | .bindType | .detach | .bindResult _ _ | .gap | .hoisted _ _ | .define _ _
  | .replace _ | .remove | .done => none

/-- The lines of an arm that bind operands. -/
def operandLines (arm : List Statement) : List Statement :=
  arm.filter (·.operand?.isSome)

theorem operandLines_eq_nil {ss : List Statement} (h : ∀ s ∈ ss, s.operand? = none) :
    operandLines ss = [] :=
  List.filter_eq_nil_iff.mpr fun s hs => by simp [h s hs]

theorem operandLines_bindOperands (position values : Nat) (os : List Operand) (vs : List Var) :
    operandLines (bindOperands position values os vs) = bindOperands position values os vs := by
  refine List.filter_eq_self.mpr fun s hs => ?_
  obtain ⟨v, -, place, rfl⟩ := exists_of_mem_bindOperands hs
  rfl

/-- Only the opening of an arm binds operands. -/
theorem operandLines_arm {arm : List Statement}
    (hsrc : m.rule.src.defs = [⟨m.outputs, ⟨m.head, m.args.map .var⟩⟩])
    (hroles : m.rule.roles = .classify m.rule.src.defs m.rule.dst.defs)
    (harm : m.statements insts i = arm.map .ok) :
    operandLines arm = bindOperands 0 0 i.ins m.args := by
  obtain ⟨built, rfl, hmakes⟩ := exists_arm_lines hsrc hroles harm
  have hbuilt : operandLines built = [] := by
    refine operandLines_eq_nil fun s hs => ?_
    cases hmakes s hs with
    | hoisted _ _ _ | define _ _ _ | replace _ _ => rfl
  have hclosing : operandLines m.closing = [] := by
    refine operandLines_eq_nil fun s hs => ?_
    rcases of_mem_closing hs with rfl | rfl
    · rfl
    · rfl
  have htype : operandLines (if m.typed insts then [.bindType] else []) = [] := by
    cases m.typed insts <;> rfl
  have hdetached : operandLines (if m.replaces then [] else detachStatements m) = [] := by
    refine operandLines_eq_nil fun s hs => ?_
    have hdetach : s ∈ detachStatements m := by
      cases hreplaces : m.replaces <;> simp [hreplaces] at hs
      exact hs
    rcases of_mem_detachStatements hdetach with rfl | ⟨v, -, index, rfl⟩
    · rfl
    · rfl
  have hoperands := operandLines_bindOperands 0 0 i.ins m.args
  simp only [operandLines] at hbuilt hclosing htype hdetached hoperands ⊢
  simp only [Matcher.opening, List.filter_append, hbuilt, hclosing, htype, hdetached, hoperands]
  simp [Statement.operand?]

end Isaforge.Legalizer
