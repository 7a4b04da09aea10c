import Isaforge.Proofs.Legalizer.Scope

/-!
# Capture — what the generator's own names denote

An arm has names of the generator's own: those of the data flow graph, the cursor and the matched
instruction, which it starts with, and those it binds to the detached results and to the controlling
type.  The author of a rule does not see them, and may have given one to a variable.  Then the line
that binds the variable takes the name over, and the lines after it refer to the operand, where they
mean to refer to the graph (`capturedGraph_captured`).

No other names are taken over: a reference denotes what the generator bound unless a variable of the
rule has the name (`references_denote_own`).  The names of hoisted calls are never in the way.
-/

namespace Isaforge.Legalizer

open Source

variable {insts : InstructionGroup} {g : RuleGroup} {r : Rule} {m : Matcher} {i : Instruction}

/-! ### References -/

/-- The names that an arm starts with. -/
def startNames : List String :=
  [Builtin.graph.name, Builtin.cursor.name, Builtin.matched.name]

/-- The name of the controlling type, when the call is given that of the matched instruction. -/
def BuilderCall.typeName (c : BuilderCall) : List String :=
  if c.type? = some .matched then [matchedTypeName] else []

/-- The generator's own names that the line refers to. -/
def Statement.refersTo : Statement → List String
  | .bindType | .bindOperand _ _ | .detach => [Builtin.graph.name, Builtin.matched.name]
  | .bindResult _ _ => [Builtin.detached.name]
  | .hoisted _ call | .define _ call => [Builtin.graph.name, Builtin.cursor.name] ++ call.typeName
  | .replace call => [Builtin.graph.name, Builtin.matched.name] ++ call.typeName
  | .remove => [Builtin.cursor.name, Builtin.matched.name]
  | .remark _ | .gap | .done => []

/-- The generator's own names that the line binds. -/
def Statement.provides : Statement → List String
  | .bindType => [matchedTypeName]
  | .detach => [Builtin.detached.name]
  | .remark _ | .bindOperand _ _ | .bindResult _ _ | .gap | .hoisted _ _ | .define _ _ | .replace _
  | .remove | .done => []

/-- The generator's own names that the line uses and binds. -/
def Statement.ownScope (s : Statement) : Scope :=
  ⟨s.refersTo, s.provides, []⟩

/-- Whose line bound a name. -/
inductive Owner where
  | generator
  /-- A variable of the rule, or a hoisted call. -/
  | rule
deriving DecidableEq

/-- Whose line bound the name last, when it was `before` the line. -/
def Statement.owner? (x : String) (before : Option Owner) (s : Statement) : Option Owner :=
  if x ∈ s.scope.binds then some .rule
  else if x ∈ s.provides then some .generator
  else before

/-- Whose line bound the name last, after the lines of an arm. -/
def ownerAfter? (ss : List Statement) (x : String) : Option Owner :=
  ss.foldl (Statement.owner? x) (if x ∈ startNames then some .generator else none)

/-- A name that the generator bound, and no variable or hoisted call, denotes what it bound. -/
theorem ownerAfter?_eq_generator {ss : List Statement} {x : String}
    (hbound : x ∈ startNames ∨ ∃ s ∈ ss, x ∈ s.provides) (hfree : ∀ s ∈ ss, x ∉ s.scope.binds) :
    ownerAfter? ss x = some .generator := by
  have hfold : ∀ before : Option Owner, before = some .generator ∨ (∃ s ∈ ss, x ∈ s.provides) →
      ss.foldl (Statement.owner? x) before = some .generator := by
    clear hbound
    induction ss with
    | nil => simp
    | cons s ss ih =>
        intro before hbefore
        have hs : x ∉ s.scope.binds := hfree s List.mem_cons_self
        rw [List.foldl_cons]
        refine ih (fun s' hs' => hfree s' (List.mem_cons_of_mem _ hs')) _ ?_
        rw [Statement.owner?, if_neg hs]
        by_cases hprovides : x ∈ s.provides
        · exact .inl (if_pos hprovides)
        · rw [if_neg hprovides]
          refine hbefore.imp_right ?_
          rintro ⟨s', hs', hx⟩
          rcases List.mem_cons.mp hs' with rfl | hs'
          · exact absurd hx hprovides
          · exact ⟨s', hs', hx⟩
  refine hfold _ (hbound.imp_left ?_)
  exact fun hstart => if_pos hstart

/-- A call that is given the controlling type of the matched instruction makes the arm bind it. -/
theorem typed_of_typeName {p : Definition × FlatSequence} {c : FlatCall} {call : BuilderCall}
    (hp : p ∈ m.destination) (hc : c ∈ p.2.calls) (hcall : builderCall insts c.asCall = .ok call)
    {x : String} (hx : x ∈ call.typeName) : x = matchedTypeName ∧ m.typed insts := by
  obtain ⟨hmatched, hname⟩ : call.type? = some .matched ∧ x = matchedTypeName := by
    rw [BuilderCall.typeName] at hx
    split at hx
    · rename_i htype
      exact ⟨htype, List.mem_singleton.mp hx⟩
    · cases hx
  obtain ⟨i, hi, rfl⟩ := builderCall_eq_ok_iff.mp hcall
  have huses : usesMatchedType insts c = true :=
    usesMatchedType_iff.mpr ⟨i, hi, type?_eq_matched_iff.mp hmatched⟩
  exact ⟨hname, List.any_eq_true.mpr ⟨c, List.mem_flatMap.mpr ⟨p, hp, hc⟩, huses⟩⟩

/-! ### What the lines refer to and bind -/

theorem startNames_subset_append (names : List String) : startNames ⊆ startNames ++ names :=
  List.subset_append_left _ _

/-- The opening refers to the names that it starts with, and to its detached results. -/
theorem scoped_opening :
    Scoped startNames ((m.opening insts i).map Statement.ownScope) := by
  have hstart : ∀ ss : List Statement, (∀ s ∈ ss, s.refersTo ⊆ startNames) → ∀ names : List String,
      Scoped (startNames ++ names) (ss.map Statement.ownScope) := by
    intro ss h names
    refine Scoped.of_uses_subset fun l hl => ?_
    obtain ⟨s, hs, rfl⟩ := List.mem_map.mp hl
    exact List.Subset.trans (h s hs) (startNames_subset_append names)
  have hremark : ∀ s ∈ [Statement.remark ("Unwrap " ++ m.sourceText)], s.refersTo ⊆ startNames := by
    simp [Statement.refersTo]
  have htype : ∀ s ∈ (if m.typed insts then [Statement.bindType] else []),
      s.refersTo ⊆ startNames := by
    cases m.typed insts <;> simp [Statement.refersTo, startNames]
  have hoperands : ∀ s ∈ bindOperands 0 0 i.ins m.args, s.refersTo ⊆ startNames := by
    intro s hs
    obtain ⟨v, -, place, rfl⟩ := exists_of_mem_bindOperands hs
    simp [Statement.refersTo, startNames]
  have hdetached : ∀ names : List String, Scoped (startNames ++ names)
      ((if m.replaces then [] else detachStatements m).map Statement.ownScope) := by
    intro names
    cases m.replaces with
    | true => trivial
    | false =>
        rw [if_neg Bool.false_ne_true, detachStatements]
        split
        · trivial
        · refine ⟨?_, .of_uses_subset fun l hl => ?_⟩
          · simp [Statement.ownScope, Statement.refersTo, startNames]
          · rw [List.map_map] at hl
            obtain ⟨p, -, rfl⟩ := List.mem_map.mp hl
            exact List.subset_append_right _ _
  have hgap : ∀ s ∈ [Statement.gap], s.refersTo ⊆ startNames := by
    simp [Statement.refersTo]
  rw [← List.append_nil startNames, Matcher.opening]
  simp only [List.map_append]
  refine ((((hstart _ hremark _).append ?_).append ?_).append ?_).append ?_
  · rw [List.append_assoc]
    exact hstart _ htype _
  · rw [List.append_assoc]
    exact hstart _ hoperands _
  · rw [List.append_assoc]
    exact hdetached _
  · rw [List.append_assoc]
    exact hstart _ hgap _

/-- The opening binds the controlling type when a call is given it. -/
theorem type_mem_opening (htyped : m.typed insts) :
    matchedTypeName ∈ ((m.opening insts i).map Statement.ownScope).flatMap (·.binds) := by
  rw [List.flatMap_map]
  refine List.mem_flatMap.mpr ⟨.bindType, ?_, List.mem_cons_self⟩
  simp [Matcher.opening, htyped]

/-- A line that makes a call refers to names that the arm starts with, and to the controlling type
when the arm binds it. -/
theorem Makes.refersTo_subset {s : Statement} (h : Makes insts m s) {bound : List String}
    (hstart : startNames ⊆ bound) (htype : m.typed insts → matchedTypeName ∈ bound) :
    s.refersTo ⊆ bound := by
  have hcall : ∀ {p : Definition × FlatSequence} {c : FlatCall} {call : BuilderCall},
      p ∈ m.destination → c ∈ p.2.calls → builderCall insts c.asCall = .ok call →
      ∀ x ∈ call.typeName, x ∈ bound := by
    intro p c call hp hc hcall x hx
    obtain ⟨rfl, htyped⟩ := typed_of_typeName hp hc hcall hx
    exact htype htyped
  have htop : ∀ p : Definition × FlatSequence, p.2.top ∈ p.2.calls :=
    fun p => List.mem_append_right _ List.mem_cons_self
  have hgraph : Builtin.graph.name ∈ bound := hstart (by simp [startNames])
  have hcursor : Builtin.cursor.name ∈ bound := hstart (by simp [startNames])
  have hmatched : Builtin.matched.name ∈ bound := hstart (by simp [startNames])
  intro x hx
  cases h with
  | @hoisted p c call hp hc hbuilder =>
      simp only [Statement.refersTo, List.mem_append, List.mem_cons, List.not_mem_nil,
        or_false] at hx
      rcases hx with (rfl | rfl) | hx
      · exact hgraph
      · exact hcursor
      · exact hcall hp (List.mem_append_left _ (List.mem_map_of_mem hc)) hbuilder x hx
  | @define p results call hp hresults hbuilder =>
      simp only [Statement.refersTo, List.mem_append, List.mem_cons, List.not_mem_nil,
        or_false] at hx
      rcases hx with (rfl | rfl) | hx
      · exact hgraph
      · exact hcursor
      · exact hcall hp (htop p) hbuilder x hx
  | @replace p call hp hbuilder =>
      simp only [Statement.refersTo, List.mem_append, List.mem_cons, List.not_mem_nil,
        or_false] at hx
      rcases hx with (rfl | rfl) | hx
      · exact hgraph
      · exact hmatched
      · exact hcall hp (htop p) hbuilder x hx

section

variable {arm : List Statement}
  (hsrc : m.rule.src.defs = [⟨m.outputs, ⟨m.head, m.args.map .var⟩⟩])
  (hroles : m.rule.roles = .classify m.rule.src.defs m.rule.dst.defs)
  (harm : m.statements insts i = arm.map .ok)

include hsrc hroles harm

/-- The names that the lines of an arm refer to were bound by the generator. -/
theorem scoped_references : Scoped startNames (arm.map Statement.ownScope) := by
  obtain ⟨built, rfl, hmakes⟩ := exists_arm_lines hsrc hroles harm
  rw [List.map_append, List.map_append]
  refine (scoped_opening.append (.of_uses_subset ?_)).append (.of_uses_subset ?_)
  · intro l hl
    obtain ⟨s, hs, rfl⟩ := List.mem_map.mp hl
    exact (hmakes s hs).refersTo_subset (startNames_subset_append _)
      fun htyped => List.mem_append_right _ (type_mem_opening htyped)
  · intro l hl
    obtain ⟨s, hs, rfl⟩ := List.mem_map.mp hl
    have hclosing : s.refersTo ⊆ startNames := by
      rcases of_mem_closing hs with rfl | rfl
      · simp [Statement.refersTo, startNames]
      · simp [Statement.refersTo]
    exact List.Subset.trans hclosing (startNames_subset_append _)

/-- The names that the lines of an arm bind are those of variables of the rule, and of hoisted
calls. -/
theorem name_of_binds {s : Statement} (hs : s ∈ arm) {x : String} (hx : x ∈ s.scope.binds) :
    (∃ v ∈ m.rule.roles.vars, v.name = x) ∨ x ∈ hoistedNames arm := by
  obtain ⟨built, harm', hmakes⟩ := exists_arm_lines hsrc hroles harm
  have hpart := hs
  rw [harm', List.mem_append, List.mem_append] at hpart
  rcases hpart with (hpart | hpart) | hpart
  · refine .inl ?_
    cases opens_of_mem hpart with
    | @operand v _ hv =>
        exact ⟨v, args_subset_vars hsrc hroles hv, (List.mem_singleton.mp hx).symm⟩
    | @result v _ hv =>
        exact ⟨v, outputs_subset_vars hsrc hroles hv, (List.mem_singleton.mp hx).symm⟩
    | remark | type | detach | gap => cases hx
  · cases hmakes s hpart with
    | hoisted _ _ _ => exact .inr (List.mem_flatMap.mpr ⟨_, hs, hx⟩)
    | @define p results call hp hresults hbuilder =>
        have hdef : p.1 ∈ m.rule.dst.defs := by
          rw [← map_fst_flattenAll (Fresh.supply m.taken) m.rule.dst.defs 0]
          exact List.mem_map_of_mem hp
        rw [Statement.scope, hresults] at hx
        obtain ⟨v, hv, rfl⟩ := List.mem_map.mp hx
        exact .inl ⟨v, mem_vars_of_mem hroles (List.mem_append_right _ hdef) (.inl hv), rfl⟩
    | replace _ _ => cases hx
  · rw [scope_of_mem_closing hpart] at hx
    cases hx

end

/-! ### Capture -/

/-- The generator's own names are reserved. -/
theorem mem_reservedNames_of_bound {x : String} {ss : List Statement}
    (h : x ∈ startNames ∨ ∃ s ∈ ss, x ∈ s.provides) : x ∈ reservedNames := by
  rcases h with h | ⟨s, -, h⟩
  · exact List.mem_append_left [Builtin.detached.name, matchedTypeName] h
  · cases s with
    | bindType =>
        rw [List.mem_singleton.mp h]
        simp [reservedNames]
    | detach =>
        rw [List.mem_singleton.mp h]
        exact Builtin.name_mem_reservedNames .detached
    | remark _ | bindOperand _ _ | bindResult _ _ | gap | hoisted _ _ | define _ _ | replace _
    | remove | done => cases h

/-- **References denote what the generator bound**, unless a variable of the rule has the name.
Take a rule of a group that a function is generated for, accepted with the catalog.  Where a line of
its arm refers to the data flow graph, the cursor, the matched instruction, the detached results or
the controlling type, the line of the generator was the last to bind that name. -/
theorem references_denote_own (hgen : (groupEmission insts g).error? = none) (hr : r ∈ g.rules)
    (haccepted : r.Accepted insts.catalog) :
    ∃ (m : Matcher) (i : Instruction) (arm : List Statement),
      Matcher.ofRule r = .ok m ∧ insts.get? m.head.inst = some i ∧
      m.statements insts i = arm.map .ok ∧
      (armCode i arm).nested.nested <:+: (groupEmission insts g).lines ∧
      ∀ n s, arm[n]? = some s → ∀ x ∈ s.refersTo,
        (∀ v, Roles.Mentioned (r.src.defs ++ r.dst.defs) v → v.name ≠ x) →
        ownerAfter? (arm.take n) x = some .generator := by
  obtain ⟨m, i, arm, hof, hi, harm, hcode⟩ := exists_arm hgen hr
  obtain ⟨hsrc, rfl⟩ := Matcher.ofRule_eq_ok_iff.mp hof
  have hsound : m.rule.Sound insts.catalog := haccepted.sound
  refine ⟨m, i, arm, hof, hi, harm, hcode, ?_⟩
  intro n s hs x hx hnames
  have hscope : (arm.map Statement.ownScope)[n]? = some s.ownScope := by
    rw [List.getElem?_map, hs, Option.map_some]
  have hbound : x ∈ startNames ∨ ∃ s' ∈ arm.take n, x ∈ s'.provides := by
    refine ((scoped_references hsrc hsound.roles_eq harm).bound_before hscope hx).imp_right ?_
    rintro ⟨l, hl, hmem⟩
    rw [← List.map_take] at hl
    obtain ⟨s', hs', rfl⟩ := List.mem_map.mp hl
    exact ⟨s', hs', hmem⟩
  refine ownerAfter?_eq_generator hbound fun s' hs' hbinds => ?_
  rcases name_of_binds hsrc hsound.roles_eq harm (List.mem_of_mem_take hs') hbinds with
    ⟨v, hv, hname⟩ | hhoisted
  · rw [hsound.roles_eq, Roles.mem_vars_classify] at hv
    exact hnames v hv hname
  -- hoisted calls are given none of the reserved names
  · rw [(scoped_arm hsrc hsound hi harm).2] at hhoisted
    exact (avoids_armNames m 0 _).2 x hhoisted
      (mem_armNames_of_reserved (mem_reservedNames_of_bound hbound))

/-- The arm of `nestedExpansion` hoists a constant of the controlling type that it bound. -/
theorem nestedExpansion_denotes_type :
    ∃ (m : Matcher) (i : Instruction) (arm : List Statement),
      Matcher.ofRule nestedExpansion = .ok m ∧ Shared.group.get? m.head.inst = some i ∧
      m.statements Shared.group i = arm.map .ok ∧
      ∃ s, arm[5]? = some s ∧ matchedTypeName ∈ s.refersTo ∧
        ownerAfter? (arm.take 5) matchedTypeName = some .generator := by
  have hgen : (groupEmission Shared.group ⟨"expand", "", [nestedExpansion]⟩).error? = none := rfl
  obtain ⟨m, i, arm, hof, hi, harm, -, hdenotes⟩ :=
    references_denote_own hgen List.mem_cons_self nestedExpansion_accepted
  have hm : Matcher.ofRule nestedExpansion = .ok ⟨nestedExpansion, [Shared.a],
    ⟨⟨6⟩, "iadd_imm", []⟩, [Shared.x, Shared.y]⟩ := rfl
  obtain rfl := Except.ok.inj (hm.symm.trans hof)
  cases hi
  have harm' := eq_filterMap_of_map_ok harm
  have hs : arm[5]? =
      some (.hoisted "tmp1" ⟨"iconst", some .matched, ["y"]⟩) := by
    rw [harm']
    rfl
  have htype : matchedTypeName ∈
      (Statement.hoisted "tmp1" ⟨"iconst", some .matched, ["y"]⟩).refersTo := by decide
  have hnames : ∀ v ∈ nestedExpansion.roles.vars, v.name ≠ matchedTypeName := by decide
  refine ⟨_, _, arm, hof, rfl, harm, _, hs, htype, hdenotes 5 _ hs _ htype fun v hv => hnames v ?_⟩
  exact Roles.mem_vars_classify.mpr hv

/-- The rule `a << isub(dfg, y) => a << bxor(dfg, y)`. -/
def capturedGraph : Rule where
  site := "expand"
  src := ⟨.source, [⟨[Shared.a], ⟨⟨⟨4⟩, "isub", []⟩, [.var ⟨0, "dfg"⟩, .var Shared.y]⟩⟩]⟩
  dst := ⟨.destination, [⟨[Shared.a], ⟨⟨⟨14⟩, "bxor", []⟩, [.var ⟨0, "dfg"⟩, .var Shared.y]⟩⟩]⟩
  inputs := [⟨0, "dfg"⟩, Shared.y]
  roles := ⟨[(Shared.a, .output), (⟨0, "dfg"⟩, .input), (Shared.y, .input)]⟩

/-- A rule is accepted, and a function generated for it, although a variable has the name of the
data flow graph.  The line that binds its second operand refers to the first. -/
theorem capturedGraph_captured :
    capturedGraph.Accepted Shared.group.catalog ∧
      (groupEmission Shared.group ⟨"expand", "", [capturedGraph]⟩).error? = none ∧
      ∃ (m : Matcher) (i : Instruction) (arm : List Statement),
        Matcher.ofRule capturedGraph = .ok m ∧ Shared.group.get? m.head.inst = some i ∧
        m.statements Shared.group i = arm.map .ok ∧
        (armCode i arm).nested.nested <:+:
          (groupEmission Shared.group ⟨"expand", "", [capturedGraph]⟩).lines ∧
        ∃ s, arm[2]? = some s ∧ s.text = "let y = dfg.inst_args(inst)[1];" ∧
          Builtin.graph.name ∈ s.refersTo ∧
          ownerAfter? (arm.take 2) Builtin.graph.name = some .rule := by
  have hvars : ∀ e ∈ [Expr.var ⟨0, "dfg"⟩, .var Shared.y], e.Made Shared.group.catalog := by
    simp [Expr.Made.var]
  have haccepted : capturedGraph.Accepted Shared.group.catalog :=
    Rule.accepted_of_close rfl rfl (.unbound rfl rfl rfl hvars) (.unbound rfl rfl rfl hvars)
      (by decide) (by decide) rfl
  have hgen : (groupEmission Shared.group ⟨"expand", "", [capturedGraph]⟩).error? = none := rfl
  obtain ⟨m, i, arm, hof, hi, harm, hcode⟩ := exists_arm hgen List.mem_cons_self
  have hm : Matcher.ofRule capturedGraph = .ok ⟨capturedGraph, [Shared.a],
    ⟨⟨4⟩, "isub", []⟩, [⟨0, "dfg"⟩, Shared.y]⟩ := rfl
  obtain rfl := Except.ok.inj (hm.symm.trans hof)
  cases hi
  refine ⟨haccepted, hgen, _, _, arm, hof, rfl, harm, hcode,
    .bindOperand "y" (.value 1), ?_, rfl, by decide, ?_⟩
  · rw [eq_filterMap_of_map_ok harm]
    rfl
  · rw [eq_filterMap_of_map_ok harm]
    rfl

end Isaforge.Legalizer
