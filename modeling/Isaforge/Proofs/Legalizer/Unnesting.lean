import Isaforge.Proofs.Legalizer.Renaming
import Isaforge.Proofs.Legalizer.Scope
import Isaforge.Proofs.Unnesting

/-!
# Unnesting — nested and hoisted rules have the same code

A nested application is hoisted into a statement of its own.  When it is a definition of its own
instead, it is that definition's statement, which has no result to attach and reads the same
(`text_nested`).  So a rule and the rule without nesting have the same lines, definition by
definition (`texts_buildStatements`), and the same arm.

**A closed rule can be written without nesting** (`unnest_keeps_code`): the rule stays closed, with
the same inputs and roles, and every group with it has the same function.
-/

namespace Isaforge

/-- The call of a definition whose value is an application to variables. -/
def Definition.flatCall (d : Definition) : FlatCall :=
  ⟨d.value.head.operation, d.uses.map (·.name)⟩

theorem Definition.uses_of_args {d : Definition} {vars : List Var}
    (h : d.value.args = vars.map .var) : d.uses = vars := by
  rw [uses, Application.vars, Application.expr, h, Expr.vars, Expr.varsAll_eq_flatMap,
    List.flatMap_map]
  exact List.flatMap_singleton' vars

theorem FlatDefinition.flatCall_definition (f : FlatDefinition) :
    f.definition.flatCall = f.call.call := by
  have huses : f.definition.uses = f.args := Definition.uses_of_args rfl
  rw [Definition.flatCall, huses]
  rfl

end Isaforge

namespace Isaforge.Legalizer

variable {insts : InstructionGroup} {r t : Rule} {m : Matcher} {σ : Type} {next : Supply σ}
  {identity : String → Nat} {d : Definition} {ds : List Definition} {c : Catalog}

/-- Definitions, each with its call and nothing hoisted out of it. -/
def flatly (ds : List Definition) : List (Definition × FlatSequence) :=
  ds.map fun d => (d, ⟨[], d.flatCall⟩)

/-- The lines of statements, or their errors. -/
def textsOf (ss : List (Except Error Statement)) : List (Except Error String) :=
  ss.map fun s => s.map (·.text)

/-! ### Flattening -/

/-- From applications to variables nothing is hoisted. -/
theorem flatten_of_args {vars : List Var} (h : d.value.args = vars.map .var) (s : σ) :
    (Call.ofApplication d.value).flatten next s = (⟨[], d.flatCall⟩, s) := by
  have hall : ∀ (vars : List Var) (s : σ), CallArg.hoistAll next
      (CallArg.ofExprs (vars.map .var)) s = ([], vars.map (·.name), s) := by
    intro vars
    induction vars with
    | nil => exact fun _ => rfl
    | cons v vars ih =>
        intro s
        rw [List.map_cons, CallArg.ofExprs, CallArg.hoistAll_cons, CallArg.ofExpr, CallArg.hoist,
          ih s]
        rfl
  rw [Call.flatten, Call.ofApplication, Definition.flatCall, Definition.uses_of_args h, h]
  simp only [hall]

theorem flattenAll_of_args (h : ∀ d ∈ ds, ∃ vars : List Var, d.value.args = vars.map .var)
    (s : σ) : Matcher.flattenAll next ds s = flatly ds := by
  induction ds with
  | nil => rfl
  | cons d ds ih =>
      obtain ⟨vars, hvars⟩ := h d List.mem_cons_self
      rw [flattenAll_cons, flatten_of_args hvars,
        ih fun d' hd' => h d' (List.mem_cons_of_mem _ hd')]
      rfl

/-- The calls hoisted out of a definition are those of the definitions before it. -/
theorem flatten_unnest (next : Supply σ) (identity : String → Nat) (d : Definition) (s : σ) :
    (Call.ofApplication d.value).flatten next s =
      (⟨(d.unnest next identity s).1.nested.map (·.call),
        (d.unnest next identity s).1.top.flatCall⟩, (d.unnest next identity s).2) := by
  have htop : (d.unnest next identity s).1.top.uses =
      (Expr.unnestAll next identity d.value.args s).2.1 := Definition.uses_of_args rfl
  rw [Call.flatten, Call.ofApplication, Definition.flatCall, htop]
  simp only [CallArg.hoistAll_ofExprs next identity]
  rfl

theorem flattenAll_cons_unnest (next : Supply σ) (identity : String → Nat) (d : Definition)
    (ds : List Definition) (s : σ) :
    Matcher.flattenAll next (d :: ds) s =
      (d, ⟨(d.unnest next identity s).1.nested.map (·.call),
        (d.unnest next identity s).1.top.flatCall⟩) ::
        Matcher.flattenAll next ds (d.unnest next identity s).2 := by
  rw [flattenAll_cons, flatten_unnest next identity]

/-! ### Lines -/

theorem textsOf_append (ss ss' : List (Except Error Statement)) :
    textsOf (ss ++ ss') = textsOf ss ++ textsOf ss' :=
  List.map_append

theorem flatly_append (ds ds' : List Definition) : flatly (ds ++ ds') = flatly ds ++ flatly ds' :=
  List.map_append

/-- A definition of one result that is not reused reads as a hoisted call. -/
theorem text_define_singleton (name : String) (call : BuilderCall) :
    Statement.text (.define [⟨name, false⟩] call) = Statement.text (.hoisted name call) := by
  have hdefine : Statement.text (.define [⟨name, false⟩] call) =
      "let " ++ name ++ " = " ++ "dfg.ins(pos)" ++ "." ++ call.text ++ ";" := rfl
  have hhoisted : Statement.text (.hoisted name call) =
      "let " ++ name ++ (" = " ++ "dfg.ins(pos)" ++ ".") ++ call.text ++ ";" := rfl
  simp only [hdefine, hhoisted, String.append_assoc]

/-- A definition of a temporary reads as the statement of a hoisted call does. -/
theorem text_nested {f : FlatDefinition} (hmem : f.var ∈ t.roles.vars)
    (hout : t.isOutput f.var = false) :
    textsOf [defineStatement insts t f.definition f.call.call] =
      textsOf [(builderCall insts f.call.call.asCall).map (Statement.hoisted f.call.name)] := by
  have hvars : f.definition.outputs ⊆ t.roles.vars :=
    fun v hv => (List.mem_singleton.mp hv) ▸ hmem
  have hresults : (f.definition.outputs.map fun v => (⟨v.name, t.isOutput v⟩ : Result)) =
      [⟨f.var.name, false⟩] := by
    rw [FlatDefinition.definition, List.map_singleton, hout]
  rw [defineStatement_eq hvars, hresults]
  cases builderCall insts f.call.call.asCall with
  | error e => rfl
  | ok call => exact congrArg (fun text => [Except.ok text]) (text_define_singleton f.var.name call)

theorem texts_nested {fs : List FlatDefinition}
    (h : ∀ f ∈ fs, f.var ∈ t.roles.vars ∧ t.isOutput f.var = false) (top : FlatCall) :
    textsOf ((flatly (fs.map (·.definition))).flatMap (definitionStatements insts t)) =
      textsOf (hoistedStatements insts ⟨fs.map (·.call), top⟩) := by
  induction fs with
  | nil => rfl
  | cons f fs ih =>
      obtain ⟨hmem, hout⟩ := h f List.mem_cons_self
      have hrest := ih fun f' hf' => h f' (List.mem_cons_of_mem _ hf')
      have hfirst : definitionStatements insts t (f.definition, ⟨[], f.definition.flatCall⟩) =
          [defineStatement insts t f.definition f.call.call] := by
        rw [definitionStatements, f.flatCall_definition]
        rfl
      have hhoisted : hoistedStatements insts ⟨(f :: fs).map (·.call), top⟩ =
          [(builderCall insts f.call.call.asCall).map (Statement.hoisted f.call.name)] ++
            hoistedStatements insts ⟨fs.map (·.call), top⟩ := rfl
      rw [flatly, List.map_cons, List.map_cons, List.flatMap_cons, hfirst, hhoisted,
        textsOf_append, textsOf_append, text_nested hmem hout, ← hrest]
      rfl

/-- The statement of a definition depends on its results and its call. -/
theorem defineStatement_congr {d' : Definition}
    (h : resultsOf t d'.outputs = resultsOf r d.outputs) (call : FlatCall) :
    defineStatement insts t d' call = defineStatement insts r d call := by
  rw [defineStatement, defineStatement, h]

/-- The definitions of `ds` are built by the same lines with `t`, those nested in them defined
apart, as they are with `r`. -/
theorem texts_buildStatements (next : Supply σ) (identity : String → Nat) (replaces : Bool) {s : σ}
    (hnew : ∀ v ∈ (Definition.unnestAll next identity ds s).flatMap (·.vars),
      v ∈ t.roles.vars ∧ t.isOutput v = false)
    (hkept : ∀ d ∈ ds, resultsOf t d.outputs = resultsOf r d.outputs) :
    textsOf (buildStatements insts t replaces
        (flatly ((Definition.unnestAll next identity ds s).flatMap (·.definitions)))) =
      textsOf (buildStatements insts r replaces (Matcher.flattenAll next ds s)) := by
  induction ds generalizing s with
  | nil => rfl
  | cons d ds ih =>
      rw [Definition.unnestAll, List.flatMap_cons] at hnew
      rw [Definition.unnestAll, List.flatMap_cons, flattenAll_cons_unnest next identity]
      have hrest := ih (fun v hv => hnew v (List.mem_append_right _ hv))
        fun d' hd' => hkept d' (List.mem_cons_of_mem _ hd')
      generalize hu : (d.unnest next identity s).1 = u at *
      have hnested : textsOf ((flatly (u.nested.map (·.definition))).flatMap
          (definitionStatements insts t)) =
          textsOf (hoistedStatements insts ⟨u.nested.map (·.call), u.top.flatCall⟩) :=
        texts_nested (fun f hf => hnew _ (List.mem_append_left _ (List.mem_map_of_mem hf))) _
      have htop : defineStatement insts t u.top u.top.flatCall =
          defineStatement insts r d u.top.flatCall := by
        refine defineStatement_congr ?_ _
        rw [← hu]
        exact hkept d List.mem_cons_self
      have hdefinition : textsOf ((flatly u.definitions).flatMap (definitionStatements insts t)) =
          textsOf (definitionStatements insts r (d, ⟨u.nested.map (·.call), u.top.flatCall⟩)) := by
        rw [UnnestedDefinition.definitions, flatly_append, List.flatMap_append, textsOf_append,
          hnested, definitionStatements, textsOf_append, ← htop]
        rfl
      cases ds with
      | nil =>
          have hlast : buildStatements insts t replaces (flatly [u.top]) =
              [if replaces then (builderCall insts u.top.flatCall.asCall).map .replace
                else defineStatement insts r d u.top.flatCall] := by
            rw [← htop]
            rfl
          have htop_ne : flatly [u.top] ≠ [] := List.cons_ne_nil _ _
          have hflat : (Definition.unnestAll next identity [] (d.unnest next identity s).2).flatMap
              (·.definitions) = [] := rfl
          rw [hflat, List.append_nil, UnnestedDefinition.definitions, flatly_append,
            buildStatements_append insts t replaces _ htop_ne, textsOf_append, hnested, hlast,
            ← textsOf_append]
          rfl
      | cons d' ds =>
          have hrest_ne : flatly ((Definition.unnestAll next identity (d' :: ds)
              (d.unnest next identity s).2).flatMap (·.definitions)) ≠ [] := by
            simp [flatly, Definition.unnestAll, UnnestedDefinition.definitions]
          rw [flatly_append, buildStatements_append insts t replaces _ hrest_ne, textsOf_append,
            hdefinition, hrest, flattenAll_cons_unnest next identity, buildStatements_cons_cons,
            textsOf_append]

/-! ### Arms -/

/-- The matcher of the rule without nesting. -/
def Matcher.unnest (m : Matcher) (identity : String → Nat) : Matcher :=
  { m with rule := m.rule.unnest identity }

/-- The rule without nesting is refused for the same reason, at the same site. -/
theorem Matcher.ofRule_unnest (r : Rule) (identity : String → Nat) :
    ofRule (r.unnest identity) = (ofRule r).map (·.unnest identity) := by
  rw [ofRule, ofRule, Rule.src_unnest]
  split
  · split <;> rfl
  · rfl

theorem isOutput_unnest (h : r.ClosedOver c) {v : Var} (hv : v ∈ r.roles.vars) :
    (r.unnest identity).isOutput v = r.isOutput v := by
  rw [Rule.isOutput, Rule.isOutput, Rule.hasRole, Rule.hasRole, h.role?_unnest identity hv]

/-- Variables of the rule are the results that they were. -/
theorem resultsOf_unnest (h : r.ClosedOver c) {vs : List Var} (hvs : vs ⊆ r.roles.vars) :
    resultsOf (r.unnest identity) vs = resultsOf r vs := by
  have hafter : vs ⊆ (r.unnest identity).roles.vars :=
    fun v hv => ((h.unnested identity).mem_vars_iff v).mpr (.inl (hvs hv))
  rw [resultsOf_eq_ok hvs, resultsOf_eq_ok hafter]
  refine congrArg Except.ok (List.map_congr_left fun v hv => ?_)
  rw [isOutput_unnest h (hvs hv)]

theorem Matcher.replaces_unnest (m : Matcher) (identity : String → Nat) :
    (m.unnest identity).replaces = m.replaces := by
  have hany : ∀ o : Option Definition,
      o.any (·.outputs = m.outputs) = (o.map (·.outputs)).any (· = m.outputs) := by
    intro o
    cases o <;> rfl
  have hlast : (m.unnest identity).rule.dst.defs.getLast?.map (·.outputs) =
      m.rule.dst.defs.getLast?.map (·.outputs) := Definition.getLast?_unnestAll m.rule.dst.defs 0
  have houtputs : (m.unnest identity).outputs = m.outputs := rfl
  rw [replaces, replaces, houtputs, hany, hany, hlast]

theorem Matcher.destination_unnest (h : m.rule.ClosedOver c) :
    (m.unnest identity).destination = flatly (m.rule.unnest identity).dst.defs :=
  flattenAll_of_args (h.unnested identity).flat 0

/-- The calls of the destination are the same, in the same order. -/
theorem calls_flattenAll (next : Supply σ) (identity : String → Nat) (ds : List Definition)
    (s : σ) :
    (Matcher.flattenAll next ds s).flatMap (·.2.calls) =
      ((Definition.unnestAll next identity ds s).flatMap (·.definitions)).map (·.flatCall) := by
  induction ds generalizing s with
  | nil => rfl
  | cons d ds ih =>
      have hcalls : ∀ fs : List FlatDefinition,
          fs.map (·.call.call) = (fs.map (·.definition)).map (·.flatCall) := by
        intro fs
        rw [List.map_map]
        exact List.map_congr_left fun f _ => f.flatCall_definition.symm
      rw [flattenAll_cons_unnest next identity, Definition.unnestAll, List.flatMap_cons,
        List.flatMap_cons, ih, List.map_append, UnnestedDefinition.definitions, List.map_append,
        ← hcalls, FlatSequence.calls, List.map_map]
      rfl

theorem Matcher.calls_unnest (h : m.rule.ClosedOver c) :
    (m.unnest identity).destination.flatMap (·.2.calls) = m.destination.flatMap (·.2.calls) := by
  have hflat : ∀ ds : List Definition, (flatly ds).flatMap (·.2.calls) = ds.map (·.flatCall) := by
    intro ds
    rw [flatly, List.flatMap_map]
    exact List.map_eq_flatMap.symm
  rw [destination_unnest h, hflat, destination, calls_flattenAll _ identity]
  rfl

/-- The names of the new variables are those that calls are hoisted under. -/
theorem names_hoisted (next : Supply σ) (identity : String → Nat) (ds : List Definition) (s : σ) :
    ((Definition.unnestAll next identity ds s).flatMap (·.vars)).map (·.name) =
      (Matcher.flattenAll next ds s).flatMap fun p => p.2.hoisted.map (·.name) := by
  induction ds generalizing s with
  | nil => rfl
  | cons d ds ih =>
      rw [flattenAll_cons_unnest next identity, Definition.unnestAll, List.flatMap_cons,
        List.flatMap_cons, List.map_append, ih, UnnestedDefinition.vars, List.map_map, List.map_map]
      rfl

theorem texts_statements (h : m.rule.ClosedOver c) (houtputs : m.outputs ⊆ m.rule.roles.vars)
    (i : Instruction) :
    textsOf ((m.unnest identity).statements insts i) = textsOf (m.statements insts i) := by
  have hroles := h.unnested identity
  have hresults : (m.unnest identity).resultStatements = m.resultStatements := by
    have hsame : resultsOf (m.unnest identity).rule (m.unnest identity).outputs =
        resultsOf m.rule m.outputs := resultsOf_unnest h houtputs
    rw [Matcher.resultStatements, Matcher.resultStatements, Matcher.replaces_unnest, hsame]
  have hbuild : textsOf (buildStatements insts (m.rule.unnest identity) m.replaces
        (m.unnest identity).destination) =
      textsOf (buildStatements insts m.rule m.replaces m.destination) := by
    rw [Matcher.destination_unnest h]
    refine texts_buildStatements _ identity m.replaces ?_ ?_
    · intro v hv
      refine ⟨(hroles.mem_vars_iff v).mpr (.inr hv), ?_⟩
      rw [Rule.isOutput, Rule.hasRole, hroles.role_new v hv]
      rfl
    · intro d hd
      refine resultsOf_unnest h fun v hv => h.mem_vars_iff.mpr ?_
      exact ⟨d, List.mem_append_right _ hd, .inl hv⟩
  have hsource : (m.unnest identity).sourceText = m.sourceText := rfl
  have hargs : (m.unnest identity).args = m.args := rfl
  have hrule : (m.unnest identity).rule = m.rule.unnest identity := rfl
  simp only [Matcher.statements, textsOf_append, hsource, Matcher.calls_unnest h, hargs, hresults,
    Matcher.replaces_unnest, hrule, hbuild]

theorem armEmission_unnest (h : m.rule.ClosedOver c) (houtputs : m.outputs ⊆ m.rule.roles.vars) :
    armEmission insts (m.unnest identity) = armEmission insts m := by
  have hlines : ∀ ss : List (Except Error Statement),
      (ss.map fun s => s.map fun s => (⟨0, s.text⟩ : Source.Line)) =
        (textsOf ss).map fun s => s.map fun text => ⟨0, text⟩ := by
    intro ss
    rw [textsOf, List.map_map]
    refine List.map_congr_left fun s _ => ?_
    cases s <;> rfl
  have hhead : (m.unnest identity).head = m.head := rfl
  simp only [armEmission, hhead, hlines, texts_statements h houtputs]

theorem SameArm.of_unnest (insts : InstructionGroup) (h : r.ClosedOver c)
    (identity : String → Nat) : SameArm insts r (r.unnest identity) := by
  have hunnest := Matcher.ofRule_unnest r identity
  cases hof : Matcher.ofRule r with
  | error e =>
      obtain ⟨⟨reason, rfl⟩, -⟩ := of_ofRule_eq_error hof
      rw [hof] at hunnest
      exact .refused reason hof hunnest
  | ok m =>
      rw [hof] at hunnest
      obtain ⟨hsource, rfl⟩ := Matcher.ofRule_eq_ok_iff.mp hof
      refine .matched m _ hof hunnest rfl (armEmission_unnest h ?_)
      intro v hv
      refine h.mem_vars_iff.mpr ⟨⟨m.outputs, ⟨m.head, m.args.map .var⟩⟩, List.mem_append_left _ ?_,
        .inl hv⟩
      rw [hsource]
      exact List.mem_singleton_self _

/-! ### Groups -/

/-- **A closed rule can be written without nesting.**  Move every nested application of the
destination into a definition of its own, of a new variable that has the name its call is hoisted
under.  The rule stays closed: each definition is added to the destination and the patterns are
accepted.  It has the inputs and the roles of the rule, the new variables are temporaries, and in
every group it stands for the rule: the function is the same, or it is refused for the same
reason. -/
theorem unnest_keeps_code (h : r.ClosedOver c) (identity : String → Nat) :
    (Pattern.defineAll ⟨r.dst.side, []⟩ (r.unnest identity).dst.defs =
        .ok (r.unnest identity).dst ∧
      Rule.close r.site r.src (r.unnest identity).dst = .ok (r.unnest identity)) ∧
    (r.unnest identity).ClosedOver c ∧
    r.Unnested (r.unnest identity) (r.nestedVars identity) ∧
    (∀ m, Matcher.ofRule r = .ok m → (r.nestedVars identity).map (·.name) =
      m.destination.flatMap fun p => p.2.hoisted.map (·.name)) ∧
    ∀ (insts : InstructionGroup) (name doc : String) (before after : List Rule),
      groupEmission insts ⟨name, doc, before ++ r.unnest identity :: after⟩ =
        groupEmission insts ⟨name, doc, before ++ r :: after⟩ := by
  refine ⟨⟨(h.sound_unnest identity).defineAll, h.close_unnest identity⟩, h.unnest identity,
    h.unnested identity, ?_, ?_⟩
  · intro m hm
    obtain ⟨-, rfl⟩ := Matcher.ofRule_eq_ok_iff.mp hm
    exact names_hoisted _ identity m.rule.dst.defs 0
  · intro insts name doc before after
    rcases groupEmission_replaced (.of_unnest insts h identity) name doc before after with
      heq | ⟨reason, hunnested, hnested⟩
    · exact heq
    · exact hunnested.trans hnested.symm

/-- In `takenName`, the constant is defined as `tmp2`. -/
theorem takenName_unnested :
    (takenName.unnest fun _ => 9).dst.defs =
        [⟨[⟨9, "tmp2"⟩], ⟨⟨⟨2⟩, "iconst", []⟩, [.var ⟨1, "tmp1"⟩]⟩⟩,
          ⟨[Shared.a], ⟨⟨⟨3⟩, "iadd", []⟩, [.var Shared.x, .var ⟨9, "tmp2"⟩]⟩⟩] ∧
      (takenName.unnest fun _ => 9).role? ⟨9, "tmp2"⟩ = some .temporary ∧
      groupEmission Shared.group ⟨"expand", "", [takenName.unnest fun _ => 9]⟩ =
        groupEmission Shared.group ⟨"expand", "", [takenName]⟩ := by
  have hdefs : (takenName.unnest fun _ => 9).dst.defs =
      [⟨[⟨9, "tmp2"⟩], ⟨⟨⟨2⟩, "iconst", []⟩, [.var ⟨1, "tmp1"⟩]⟩⟩,
        ⟨[Shared.a], ⟨⟨⟨3⟩, "iadd", []⟩, [.var Shared.x, .var ⟨9, "tmp2"⟩]⟩⟩] := rfl
  have hnew : ⟨9, "tmp2"⟩ ∈ takenName.nestedVars fun _ => 9 := List.mem_cons_self
  obtain ⟨-, -, hroles, -, hcode⟩ := unnest_keeps_code takenName_accepted.closedOver fun _ => 9
  exact ⟨hdefs, hroles.role_new _ hnew, hcode Shared.group "expand" "" [] []⟩

end Isaforge.Legalizer
