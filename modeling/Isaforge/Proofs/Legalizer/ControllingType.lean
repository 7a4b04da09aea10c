import Isaforge.Proofs.Legalizer.Blocks
import Isaforge.Proofs.TypeVariables

/-!
# Controlling type — it is bound exactly when a call uses it

Whether an arm binds the controlling type of the matched instruction is decided before its calls are
written, by a search through the flattened calls of the destination.  Whether a call is given it is
decided again when the call is written, be it hoisted, inserted or put in place of the instruction.
The two agree because the calls written are the flattened ones, one by one (`calls_arm`), and these
are those of the applications of the destination (`callsFor_heads`).

* `text_eq_typeLine_iff`: no other statement is written like the one that binds the type.
* `exists_arm_rest`: that one comes second in an arm, after the remark, or not at all.
* `type_bound_iff_used`: **the type is bound when a call uses it**, once and before all calls.
-/

namespace Isaforge.Legalizer

open Source

variable {insts : InstructionGroup} {g : RuleGroup} {r : Rule} {m : Matcher} {i : Instruction}

/-! ### The line -/

/-- The line that binds the controlling type of the matched instruction. -/
def typeLine : String := "let ctrl_type = dfg.ctrl_typevar(inst);"

/-- A text with a character that the line does not have is another one. -/
theorem ne_typeLine {text : String} {c : Char} (hno : c ∉ typeLine.toList)
    (hc : c ∈ text.toList) : text ≠ typeLine :=
  fun h => hno (h ▸ hc)

theorem bracket_mem_place (place : OperandPlace) : '[' ∈ place.text.toList := by
  cases place with
  | value n => simp [OperandPlace.text_value, String.toList_append]
  | immediate n => simp [OperandPlace.text_immediate, String.toList_append]
  | entity n => simp [OperandPlace.text_entity, String.toList_append]

/-- The cursor `pos` is written with a letter that the line does not have. -/
theorem cursor_mem_builderText (results : List Result) : 'o' ∈ (builderText results).toList := by
  rw [builderText]
  split <;> simp [String.toList_append]

/-- No other statement is written like the one that binds the controlling type. -/
theorem text_eq_typeLine_iff {s : Statement} : s.text = typeLine ↔ s = .bindType := by
  have hslash : '/' ∉ typeLine.toList := by decide
  have hbracket : '[' ∉ typeLine.toList := by decide
  have hcursor : 'o' ∉ typeLine.toList := by decide
  constructor
  · contrapose!
    intro hne
    cases s with
    | bindType => exact absurd rfl hne
    | remark text =>
        refine ne_typeLine hslash ?_
        simp [Statement.text_remark, String.toList_append]
    | bindOperand name place =>
        refine ne_typeLine hbracket ?_
        simp [Statement.text_bindOperand, String.toList_append, bracket_mem_place]
    | bindResult name index =>
        refine ne_typeLine hbracket ?_
        simp [Statement.text_bindResult, String.toList_append]
    | hoisted name call =>
        refine ne_typeLine hcursor ?_
        simp [Statement.text_hoisted, String.toList_append]
    | define results call =>
        refine ne_typeLine hcursor ?_
        simp [Statement.text_define, String.toList_append, cursor_mem_builderText]
    | replace call =>
        -- it begins with another letter
        intro h
        have hhead := congrArg (fun t => t.toList.head?) h
        simp [Statement.text_replace, typeLine, String.toList_append] at hhead
    | detach | gap | remove | done => decide
  · rintro rfl
    decide

/-! ### The calls of an arm -/

/-- The line makes the builder's call of the call. -/
def Statement.IsCallOf (insts : InstructionGroup) (c : FlatCall) (s : Statement) : Prop :=
  ∃ call, builderCall insts c.asCall = .ok call ∧ s.call? = some call

/-- The lines of a definition make its flattened calls: those hoisted out of it, and its own. -/
theorem calls_block {p : Definition × FlatSequence} {ss : List Statement} (h : Block insts m p ss) :
    List.Forall₂ (Statement.IsCallOf insts) p.2.calls ss := by
  have hhoisted : ∀ {hoisted : List Statement}, List.Forall₂ (Hoists insts) p.2.hoisted hoisted →
      List.Forall₂ (Statement.IsCallOf insts) (p.2.hoisted.map (·.call)) hoisted := by
    refine fun h => List.forall₂_map_left_iff.mpr (h.imp fun c s hc => ?_)
    obtain ⟨call, hcall, rfl⟩ := hc
    exact ⟨call, hcall, rfl⟩
  cases h with
  | define hh hcall => exact List.rel_append (hhoisted hh) (.cons ⟨_, hcall, rfl⟩ .nil)
  | replace _ hh hcall => exact List.rel_append (hhoisted hh) (.cons ⟨_, hcall, rfl⟩ .nil)

/-- Of lists that correspond, one has an element of a kind when the other has. -/
theorem exists_mem_iff_of_forall₂ {α β : Type} {R : α → β → Prop} {p : α → Prop} {q : β → Prop}
    {as : List α} {bs : List β} (h : List.Forall₂ R as bs) (hpq : ∀ a b, R a b → (p a ↔ q b)) :
    (∃ a ∈ as, p a) ↔ ∃ b ∈ bs, q b := by
  induction h with
  | nil => simp
  | cons hab _ ih =>
      simp only [List.mem_cons, or_and_right, exists_or, exists_eq_left, hpq _ _ hab, ih]

/-- The calls that the lines make. -/
theorem calls_of_lines {cs : List FlatCall} {ss : List Statement}
    (h : List.Forall₂ (Statement.IsCallOf insts) cs ss) :
    List.Forall₂ (fun c call => builderCall insts c.asCall = .ok call) cs
      (ss.filterMap (·.call?)) := by
  rw [← @List.filterMap_some _ cs]
  refine List.rel_filterMap (fun c s hs => ?_) h
  obtain ⟨call, hcall, hs⟩ := hs
  rw [hs]
  exact .some hcall

theorem Opens.call?_eq_none {s : Statement} (h : Opens m s) : s.call? = none := by
  cases h with
  | remark | type | operand _ | detach | result _ | gap => rfl

section

variable {arm : List Statement}
  (hsrc : m.rule.src.defs = [⟨m.outputs, ⟨m.head, m.args.map .var⟩⟩])
  (hroles : m.rule.roles = .classify m.rule.src.defs m.rule.dst.defs)
  (harm : m.statements insts i = arm.map .ok)

include hsrc hroles harm

/-- The calls of an arm are the builder's calls of the flattened calls of the destination. -/
theorem calls_arm :
    List.Forall₂ (fun c call => builderCall insts c.asCall = .ok call)
      (m.destination.flatMap (·.2.calls)) (arm.filterMap (·.call?)) := by
  obtain ⟨blocks, rfl, hblocks⟩ := exists_arm_blocks hsrc hroles harm
  have hopening : (m.opening insts i).filterMap (·.call?) = [] :=
    List.filterMap_eq_nil_iff.mpr fun s hs => (opens_of_mem hs).call?_eq_none
  have hclosing : m.closing.filterMap (·.call?) = [] := by
    refine List.filterMap_eq_nil_iff.mpr fun s hs => ?_
    rcases of_mem_closing hs with rfl | rfl
    · rfl
    · rfl
  rw [List.filterMap_append, List.filterMap_append, hopening, hclosing, List.nil_append,
    List.append_nil]
  exact calls_of_lines (forall₂_flatten_of_blocks hblocks fun p _ ss h => calls_block h)

/-- An arm begins with the remark and the line that binds the controlling type, if it has this
line; it does not have it a second time. -/
theorem exists_arm_rest :
    ∃ rest, arm = .remark ("Unwrap " ++ m.sourceText) ::
        ((if m.typed insts then [.bindType] else []) ++ rest) ∧ .bindType ∉ rest := by
  obtain ⟨built, rfl, hmakes⟩ := exists_arm_lines hsrc hroles harm
  refine ⟨bindOperands 0 0 i.ins m.args ++ (if m.replaces then [] else detachStatements m) ++
    [.gap] ++ built ++ m.closing, ?_, ?_⟩
  · simp only [Matcher.opening, List.append_assoc, List.cons_append, List.nil_append]
  · simp only [List.mem_append, List.mem_singleton, not_or]
    refine ⟨⟨⟨⟨fun h => ?_, fun h => ?_⟩, by decide⟩, fun h => ?_⟩, fun h => ?_⟩
    · obtain ⟨v, -, place, h⟩ := exists_of_mem_bindOperands h
      cases h
    · split at h
      · cases h
      · rcases of_mem_detachStatements h with h | ⟨v, -, index, h⟩
        · cases h
        · cases h
    · cases hmakes _ h
    · rcases of_mem_closing h with h | h
      · cases h
      · cases h

theorem bindType_mem_arm_iff : .bindType ∈ arm ↔ m.typed insts = true := by
  obtain ⟨rest, rfl, hrest⟩ := exists_arm_rest hsrc hroles harm
  cases m.typed insts <;> simp [hrest]

/-- The search ahead of the calls finds a need exactly when a call that is written has it. -/
theorem typed_iff_used :
    m.typed insts = true ↔ ∃ call ∈ arm.filterMap (·.call?), call.type? = some .matched := by
  rw [Matcher.typed, List.any_eq_true]
  refine exists_mem_iff_of_forall₂ (calls_arm hsrc hroles harm) fun c call hcall => ?_
  obtain ⟨i, hi, rfl⟩ := builderCall_eq_ok_iff.mp hcall
  rw [usesMatchedType_iff, type?_eq_matched_iff, hi]
  simp

end

/-! ### The applications of a destination -/

/-- The builder's call of an instruction with the type arguments: it is given a controlling type
when the inputs leave it open, the first type argument if there is one, and else that of the matched
instruction. -/
def CallsFor (insts : InstructionGroup) (head : Head) (call : BuilderCall) : Prop :=
  ∃ i, insts.get? head.inst = some i ∧ call.method = i.methodName ∧
    (call.type? = some .matched ↔ i.TypeOpen ∧ head.types = []) ∧
    ∀ t, call.type? = some (.constant t) ↔ i.TypeOpen ∧ head.types.head? = some t

/-- The application needs the controlling type of the matched instruction. -/
def NeedsMatched (insts : InstructionGroup) (head : Head) : Prop :=
  ∃ i, insts.get? head.inst = some i ∧ i.TypeOpen ∧ head.types = []

theorem CallsFor.matched_iff {head : Head} {call : BuilderCall} (h : CallsFor insts head call) :
    NeedsMatched insts head ↔ call.type? = some .matched := by
  obtain ⟨i, hi, -, hmatched, -⟩ := h
  rw [hmatched, NeedsMatched, hi]
  simp

/-- The builder's call of a flat call is that of the application it comes from. -/
theorem callsFor_of_builderCall {c : FlatCall} {head : Head} {call : BuilderCall}
    (hop : c.op = head.operation) (h : builderCall insts c.asCall = .ok call) :
    CallsFor insts head call := by
  obtain ⟨i, hi, rfl⟩ := builderCall_eq_ok_iff.mp h
  have hinst : c.op.inst = head.inst := congrArg (·.inst) hop
  have htypes : c.op.types = head.types := congrArg (·.types) hop
  refine ⟨i, hinst ▸ hi, rfl, ?_, fun t => ?_⟩
  · rw [type?_eq_matched_iff, Instruction.needsType_iff, htypes]
  · rw [type?_eq_constant_iff, Instruction.needsType_iff, htypes]

/-- **The calls of an arm** are those of the applications of the destination. -/
theorem callsFor_heads {arm : List Statement}
    (hsrc : m.rule.src.defs = [⟨m.outputs, ⟨m.head, m.args.map .var⟩⟩])
    (hroles : m.rule.roles = .classify m.rule.src.defs m.rule.dst.defs)
    (harm : m.statements insts i = arm.map .ok) :
    List.Forall₂ (CallsFor insts) (m.rule.dst.defs.flatMap (·.value.expr.heads))
      (arm.filterMap (·.call?)) := by
  have hflat : List.Forall₂
      (fun op call => ∃ c : FlatCall, c.op = op ∧ builderCall insts c.asCall = .ok call)
      ((m.destination.flatMap (·.2.calls)).map (·.op)) (arm.filterMap (·.call?)) :=
    List.forall₂_map_left_iff.mpr
      ((calls_arm hsrc hroles harm).imp fun c _ hcall => ⟨c, rfl, hcall⟩)
  -- hoisting keeps the operations and their order
  rw [Matcher.destination, ops_flattenAll, List.forall₂_map_left_iff] at hflat
  refine hflat.imp fun head call hcall => ?_
  obtain ⟨c, hop, hcall⟩ := hcall
  exact callsFor_of_builderCall hop hcall

theorem mem_heads_definitions_iff {ds : List Definition} {head : Head} :
    head ∈ ds.flatMap (·.value.expr.heads) ↔
      ∃ d ∈ ds, ∃ a : Application, a.Within d.value.expr ∧ a.head = head := by
  simp only [List.mem_flatMap, Expr.mem_heads_iff]

/-- The controlling type in the arm of a rule: which calls are given it, and where it is bound. -/
structure TypeBound (insts : InstructionGroup) (r : Rule) (arm : List Statement) : Prop where
  /-- The calls of the arm are those of the applications of the destination, from the inside out
  and from left to right. -/
  calls : List.Forall₂ (CallsFor insts) (r.dst.defs.flatMap (·.value.expr.heads))
    (arm.filterMap (·.call?))
  bound_iff : (∃ s ∈ arm, s.text = typeLine) ↔
    ∃ call ∈ arm.filterMap (·.call?), call.type? = some .matched
  used_iff : (∃ call ∈ arm.filterMap (·.call?), call.type? = some .matched) ↔
    ∃ d ∈ r.dst.defs, ∃ a : Application, a.Within d.value.expr ∧ NeedsMatched insts a.head
  /-- The line that binds it stands once, before all calls. -/
  once : ∀ s ∈ arm, s.text = typeLine → ∃ before after, arm = before ++ s :: after ∧
    (∀ s' ∈ before, s'.call? = none ∧ s'.text ≠ typeLine) ∧ ∀ s' ∈ after, s'.text ≠ typeLine

/-- **The controlling type is bound exactly when a call uses it.**  Take a rule of a group that a
function is generated for, with whatever catalog.  Its arm has the line that binds the type of the
matched instruction, once and before all calls, when one of its calls is given this type.  That is
when the destination applies, at any depth and without type arguments, an instruction whose inputs
leave the type open; with type arguments the call is given the first of them. -/
theorem type_bound_iff_used (hgen : (groupEmission insts g).error? = none) (hr : r ∈ g.rules)
    (hbuilt : r.Built) :
    ∃ (m : Matcher) (i : Instruction) (arm : List Statement),
      Matcher.ofRule r = .ok m ∧ insts.get? m.head.inst = some i ∧
      m.statements insts i = arm.map .ok ∧
      (armCode i arm).nested.nested <:+: (groupEmission insts g).lines ∧
      TypeBound insts r arm := by
  obtain ⟨m, i, arm, hof, hi, harm, hcode⟩ := exists_arm hgen hr
  obtain ⟨hsrc, rfl⟩ := Matcher.ofRule_eq_ok_iff.mp hof
  have hroles := hbuilt.close_eq.1
  have hcalls := callsFor_heads hsrc hroles harm
  refine ⟨m, i, arm, hof, hi, harm, hcode, hcalls, ?_, ?_, ?_⟩
  · simp only [text_eq_typeLine_iff, exists_eq_right]
    rw [bindType_mem_arm_iff hsrc hroles harm, typed_iff_used hsrc hroles harm]
  · rw [← exists_mem_iff_of_forall₂ hcalls fun head call h => h.matched_iff]
    constructor
    · rintro ⟨head, hhead, hneeds⟩
      obtain ⟨d, hd, a, ha, rfl⟩ := mem_heads_definitions_iff.mp hhead
      exact ⟨d, hd, a, ha, hneeds⟩
    · rintro ⟨d, hd, a, ha, hneeds⟩
      exact ⟨a.head, mem_heads_definitions_iff.mpr ⟨d, hd, a, ha, rfl⟩, hneeds⟩
  · intro s hs htext
    obtain rfl := text_eq_typeLine_iff.mp htext
    have htyped := (bindType_mem_arm_iff hsrc hroles harm).mp hs
    obtain ⟨rest, rfl, hrest⟩ := exists_arm_rest hsrc hroles harm
    rw [if_pos htyped]
    refine ⟨[.remark ("Unwrap " ++ m.sourceText)], rest, rfl, fun s' hs' => ?_, ?_⟩
    · obtain rfl := List.mem_singleton.mp hs'
      refine ⟨rfl, fun htext' => ?_⟩
      cases text_eq_typeLine_iff.mp htext'
    · exact fun s' hs' htext' => hrest (text_eq_typeLine_iff.mp htext' ▸ hs')

/-- The arm of `nestedExpansion` binds the controlling type, for the constant that it hoists. -/
theorem nestedExpansion_binds_type :
    ∃ (i : Instruction) (arm : List Statement),
      (armCode i arm).nested.nested <:+:
        (groupEmission Shared.group ⟨"expand", "", [nestedExpansion]⟩).lines ∧
      TypeBound Shared.group nestedExpansion arm ∧ ∃ s ∈ arm, s.text = typeLine := by
  have hgen : (groupEmission Shared.group ⟨"expand", "", [nestedExpansion]⟩).error? = none := rfl
  obtain ⟨m, i, arm, -, -, -, hcode, hbound⟩ :=
    type_bound_iff_used hgen List.mem_cons_self nestedExpansion_accepted.built
  have hneeds : NeedsMatched Shared.group ⟨⟨2⟩, "iconst", []⟩ :=
    ⟨Shared.iconst, rfl, ⟨by decide, by decide⟩, rfl⟩
  have hwithin : Application.Within ⟨⟨⟨2⟩, "iconst", []⟩, [.var Shared.y]⟩
      (.app ⟨⟨3⟩, "iadd", []⟩ [.var Shared.x, .app ⟨⟨2⟩, "iconst", []⟩ [.var Shared.y]]) :=
    .arg (List.mem_cons_of_mem _ List.mem_cons_self) .self
  refine ⟨i, arm, hcode, hbound, hbound.bound_iff.mpr (hbound.used_iff.mpr ?_)⟩
  exact ⟨_, List.mem_cons_self, _, hwithin, hneeds⟩

end Isaforge.Legalizer
