import Isaforge.Proofs.Restoring
import Isaforge.Proofs.Legalizer.Lines

/-!
# Names — where the names in the lines of an arm come from

A line of an arm has names of variables of the rule, names under which calls are hoisted, and names
of builder methods.  So what holds of all of these holds of every name in the line
(`named_of_mem_arm`).
-/

namespace Isaforge.Legalizer

variable {insts : InstructionGroup} {m : Matcher} {i : Instruction} {Q : String → Prop}

/-- `Q` holds of the method and of the arguments of the call. -/
structure BuilderCall.Named (Q : String → Prop) (c : BuilderCall) : Prop where
  method : Q c.method
  args : ∀ a ∈ c.args, Q a

/-- `Q` holds of the names in the statement. -/
def Statement.Named (Q : String → Prop) : Statement → Prop
  | .bindOperand name _ | .bindResult name _ => Q name
  | .hoisted name call => Q name ∧ call.Named Q
  | .define results call => (∀ r ∈ results, Q r.name) ∧ call.Named Q
  | .replace call => call.Named Q
  | .remark _ | .bindType | .detach | .gap | .remove | .done => True

/-! ### Calls -/

section

variable (hfresh : ∀ taken n k, ∀ name ∈ (Fresh.supply taken).take n k, Q name)

include hfresh

/-- A flat call of a definition uses variables, and names of hoisted calls. -/
theorem forall_mem_args {d : Definition} (hvars : ∀ v ∈ d.uses, Q v.name) {taken : List String}
    {s : Nat} {c : FlatCall}
    (hc : c ∈ ((Call.ofApplication d.value).flatten (Fresh.supply taken) s).1.calls) :
    ∀ a ∈ c.args, Q a := by
  intro a ha
  have hmem := Call.args_flatten.subset (List.mem_flatMap.mpr ⟨c, hc, ha⟩)
  rcases List.mem_append.mp hmem with hname | hnew
  · have hnames : (Call.ofApplication d.value).arg.names = d.uses.map (·.name) :=
      CallArg.namesAll_ofExprs d.value.args
    rw [hnames] at hname
    obtain ⟨v, hv, rfl⟩ := List.mem_map.mp hname
    exact hvars v hv
  · exact hfresh _ _ _ a hnew

theorem forall_mem_hoisted {c : Call} {taken : List String} {s : Nat} {h : NamedCall}
    (hh : h ∈ (c.flatten (Fresh.supply taken) s).1.hoisted) : Q h.name := by
  have hmem : h.name ∈ (CallArg.hoistAll (Fresh.supply taken) c.args s).1.map (·.name) :=
    List.mem_map_of_mem hh
  rw [(CallArg.hoistAll_supply c.args s).1] at hmem
  exact hfresh _ _ _ h.name hmem

end

theorem named_builderCall (hmethods : ∀ i ∈ insts.instructions, Q i.methodName) {c : FlatCall}
    (hargs : ∀ a ∈ c.args, Q a) {call : BuilderCall}
    (h : builderCall insts c.asCall = .ok call) : call.Named Q := by
  obtain ⟨i, hi, rfl⟩ := builderCall_eq_ok_iff.mp h
  exact ⟨hmethods i (List.mem_of_getElem? hi), hargs⟩

/-! ### Arms -/

section

variable (hfresh : ∀ taken n k, ∀ name ∈ (Fresh.supply taken).take n k, Q name)
  (hmethods : ∀ i ∈ insts.instructions, Q i.methodName)
  (hvars : ∀ v ∈ m.rule.roles.vars, Q v.name)
  (hroles : m.rule.roles = .classify m.rule.src.defs m.rule.dst.defs)

include hfresh hmethods hvars hroles

theorem Makes.named {s : Statement} (h : Makes insts m s) : s.Named Q := by
  have hcall : ∀ {p : Definition × FlatSequence} {c : FlatCall} {call : BuilderCall},
      p ∈ m.destination → c ∈ p.2.calls → builderCall insts c.asCall = .ok call →
      call.Named Q := by
    intro p c call hp hc hcall
    obtain ⟨d, hd, s', rfl⟩ := exists_of_mem_flattenAll _ hp
    refine named_builderCall hmethods (forall_mem_args hfresh (fun v hv => hvars v ?_) hc) hcall
    exact mem_vars_of_mem hroles (List.mem_append_right _ hd)
      (.inr (Definition.uses_iff_mem_uses.mpr hv))
  have htop : ∀ p : Definition × FlatSequence, p.2.top ∈ p.2.calls :=
    fun p => List.mem_append_right _ List.mem_cons_self
  cases h with
  | @hoisted p c call hp hc hbuilder =>
      refine ⟨?_, hcall hp (List.mem_append_left _ (List.mem_map_of_mem hc)) hbuilder⟩
      obtain ⟨d, hd, s', rfl⟩ := exists_of_mem_flattenAll _ hp
      exact forall_mem_hoisted hfresh hc
  | @define p results call hp hresults hbuilder =>
      refine ⟨fun r hr => ?_, hcall hp (htop p) hbuilder⟩
      obtain ⟨d, hd, s', rfl⟩ := exists_of_mem_flattenAll _ hp
      have hname : r.name ∈ d.outputs.map (·.name) := hresults ▸ List.mem_map_of_mem hr
      obtain ⟨v, hv, heq⟩ := List.mem_map.mp hname
      rw [← heq]
      exact hvars v (mem_vars_of_mem hroles (List.mem_append_right _ hd) (.inl hv))
  | @replace p call hp hbuilder => exact hcall hp (htop p) hbuilder

/-- **The names in the lines of an arm.** -/
theorem named_of_mem_arm
    (hsrc : m.rule.src.defs = [⟨m.outputs, ⟨m.head, m.args.map .var⟩⟩])
    {arm : List Statement} (harm : m.statements insts i = arm.map .ok) :
    ∀ s ∈ arm, s.Named Q := by
  obtain ⟨built, rfl, hmakes⟩ := exists_arm_lines hsrc hroles harm
  simp only [List.forall_mem_append]
  refine ⟨⟨fun s hs => ?_, fun s hs => (hmakes s hs).named hfresh hmethods hvars hroles⟩,
    fun s hs => ?_⟩
  · cases opens_of_mem hs with
    | operand hv => exact hvars _ (args_subset_vars hsrc hroles hv)
    | result hv => exact hvars _ (outputs_subset_vars hsrc hroles hv)
    | remark | type | detach | gap => trivial
  · rcases of_mem_closing hs with rfl | rfl
    · trivial
    · trivial

end

end Isaforge.Legalizer
