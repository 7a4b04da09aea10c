import Isaforge.Proofs.Emission
import Isaforge.Proofs.Legalizer.Arm
import Isaforge.Proofs.Registry
import Isaforge.Shared.Legalization

/-!
# Pass — the arms of a generated function

A function is generated for a group when every rule has its matcher (`exists_matcher`), and the arm
of each matcher is part of the code (`armCode_infix`).  A rule accepted with the catalog is sound,
and what it takes to run its arm follows from that (`fits_of_sound`).  So the arms that are
generated compute the destinations of their rules (`arm_computes_destination`).
-/

namespace Isaforge.Legalizer

open Source

variable {insts : InstructionGroup} {g : RuleGroup} {r : Rule} {m : Matcher} {i : Instruction}

/-! ### Matchers -/

theorem Matcher.vars?_eq_some_iff {es : List Expr} {vs : List Var} :
    vars? es = some vs ↔ es = vs.map .var := by
  induction es generalizing vs with
  | nil => cases vs <;> simp [vars?]
  | cons e es ih =>
      cases e with
      | app head args => cases vs <;> simp [vars?, Expr.var?]
      | var v =>
          have hcons : vars? (.var v :: es) = (vars? es).bind fun ws => some (v :: ws) := rfl
          rw [hcons, Option.bind_eq_some_iff]
          constructor
          · rintro ⟨ws, hws, h⟩
            cases h
            rw [ih.mp hws, List.map_cons]
          · intro h
            obtain ⟨w, ws, rfl⟩ : ∃ w ws, vs = w :: ws := by
              cases vs with
              | nil => cases h
              | cons w ws => exact ⟨w, ws, rfl⟩
            rw [List.map_cons, List.cons.injEq, Expr.var.injEq] at h
            exact ⟨ws, ih.mpr h.2, by rw [h.1]⟩

/-- A matcher takes apart a rule whose source is one definition with variables for arguments. -/
theorem Matcher.ofRule_eq_ok_iff :
    ofRule r = .ok m ↔
      r.src.defs = [⟨m.outputs, ⟨m.head, m.args.map .var⟩⟩] ∧ m.rule = r := by
  obtain ⟨rule, outputs, head, args⟩ := m
  rw [ofRule]
  split
  · rename_i d hd
    obtain ⟨outputs', head', args'⟩ := d
    split
    · rename_i vs hvs
      rw [vars?_eq_some_iff] at hvs
      rw [hd]
      have hinj : Function.Injective Expr.var := fun v w h => Expr.var.inj h
      constructor
      · intro h
        cases h
        exact ⟨by rw [← hvs], rfl⟩
      · rintro ⟨h, rfl⟩
        cases h
        obtain rfl : args = vs := List.map_injective_iff.mpr hinj hvs
        rfl
    · rename_i hno
      refine ⟨fun h => (nomatch h), fun ⟨h, _⟩ => ?_⟩
      rw [hd] at h
      cases h
      rw [vars?_eq_some_iff.mpr rfl] at hno
      cases hno
  · rename_i hno
    refine ⟨fun h => (nomatch h), fun h => absurd h.1 (hno _)⟩

/-- Every rule of a group with matchers has its own. -/
theorem exists_matcher {name : String} {matched : List InstId} {rules : List Rule}
    {ms : List Matcher} (h : matchersFrom name matched rules = .ok ms) (hr : r ∈ rules) :
    ∃ m ∈ ms, Matcher.ofRule r = .ok m := by
  induction rules generalizing matched ms with
  | nil => cases hr
  | cons r' rules ih =>
      rw [matchersFrom, bind_eq_ok_iff] at h
      obtain ⟨m, hm, h⟩ := h
      by_cases hmatched : m.head.inst ∈ matched
      · rw [if_pos hmatched] at h
        cases h
      · rw [if_neg hmatched] at h
        obtain ⟨ms', hms', h⟩ := bind_eq_ok_iff.mp h
        cases h
        rcases List.mem_cons.mp hr with rfl | hr
        · exact ⟨m, List.mem_cons_self, hm⟩
        · obtain ⟨m', hm', hr'⟩ := ih hms' hr
          exact ⟨m', List.mem_cons_of_mem _ hm', hr'⟩

/-! ### Rules that fit the catalog -/

theorem mem_vars_of_mem {v : Var} (hroles : r.roles = .classify r.src.defs r.dst.defs)
    {d : Definition} (hd : d ∈ r.src.defs ++ r.dst.defs) (hv : v ∈ d.outputs ∨ d.Uses v) :
    v ∈ r.roles.vars := by
  rw [hroles, Roles.mem_vars_classify]
  exact ⟨d, hd, hv⟩

theorem known_of_fits {a : Application} (h : a.Fits insts.catalog) :
    ∃ i, insts.get? a.head.inst = some i ∧ a.args.length = i.arity := by
  obtain ⟨s, hs, -, harity, -⟩ := h
  obtain ⟨i, hi, rfl⟩ := Option.map_eq_some_iff.mp hs
  exact ⟨i, hi, harity⟩

/-- The variables that the source definition of a matcher uses are its arguments. -/
theorem uses_source_iff {v : Var} :
    Definition.Uses ⟨m.outputs, ⟨m.head, m.args.map .var⟩⟩ v ↔ v ∈ m.args := by
  rw [Definition.Uses, Application.expr, Expr.occurs_app]
  constructor
  · rintro ⟨e, he, hv⟩
    obtain ⟨w, hw, rfl⟩ := List.mem_map.mp he
    rwa [Expr.occurs_var.mp hv]
  · intro hv
    exact ⟨.var v, List.mem_map_of_mem hv, .var⟩

section

variable (hsrc : m.rule.src.defs = [⟨m.outputs, ⟨m.head, m.args.map .var⟩⟩])

include hsrc

theorem mem_source : ⟨m.outputs, ⟨m.head, m.args.map .var⟩⟩ ∈ m.rule.src.defs := by
  rw [hsrc]
  exact List.mem_cons_self

section

variable (hroles : m.rule.roles = .classify m.rule.src.defs m.rule.dst.defs)

include hroles

theorem args_subset_vars : m.args ⊆ m.rule.roles.vars := fun _ hv =>
  mem_vars_of_mem hroles (List.mem_append_left _ (mem_source hsrc)) (.inr (uses_source_iff.mpr hv))

theorem outputs_subset_vars : m.outputs ⊆ m.rule.roles.vars := fun _ hv =>
  mem_vars_of_mem hroles (List.mem_append_left _ (mem_source hsrc)) (.inl hv)

end

theorem source_outputs : m.rule.src.outputs = m.outputs := by
  rw [Pattern.outputs, hsrc, Definition.outputsOf_singleton]

/-- The arguments of the source are its open uses. -/
theorem mem_openUses_source {v : Var} : v ∈ m.rule.src.openUses ↔ v ∈ m.args := by
  rw [Rule.mem_openUses_iff, hsrc]
  constructor
  · rintro ⟨n, d, hd, hu, -⟩
    obtain rfl := List.mem_singleton.mp (List.mem_of_getElem? hd)
    exact uses_source_iff.mp hu
  · intro hv
    exact ⟨0, _, rfl, uses_source_iff.mpr hv, Definition.not_definedBefore_zero⟩

/-- The destination of a sound rule has no open uses but the arguments of the source. -/
theorem scope_of_sound {c : Catalog} (hsound : m.rule.Sound c) :
    Definition.openUses m.args m.rule.dst.defs = [] := by
  obtain ⟨-, -, hinputs, -⟩ := Rule.checkInputs_eq_ok_iff.mp hsound.inputs_eq
  refine List.eq_nil_iff_forall_not_mem.mpr ?_
  intro v hv
  obtain ⟨n, d, hd, hu, hnot, hbefore⟩ := Definition.mem_openUses_iff.mp hv
  have hopen : v ∈ m.rule.dst.openUses := Rule.mem_openUses_iff.mpr ⟨n, d, hd, hu, hbefore⟩
  exact hnot ((mem_openUses_source hsrc).mp (hinputs v hopen))

/-- The destination of a sound rule defines none of the arguments of the source. -/
theorem undefined_of_sound {c : Catalog} (hsound : m.rule.Sound c) {v : Var} (hv : v ∈ m.args) :
    v ∉ Definition.outputsOf m.rule.dst.defs := by
  obtain ⟨-, hundefined, -, -⟩ := Rule.checkInputs_eq_ok_iff.mp hsound.inputs_eq
  exact (Rule.undefined_iff.mp (hundefined v ((mem_openUses_source hsrc).mpr hv))).2

/-- The source of a sound rule has an argument for each operand of its instruction. -/
theorem length_args_of_sound (hsound : m.rule.Sound insts.catalog)
    (hi : insts.get? m.head.inst = some i) : m.args.length = i.arity := by
  have hfits := hsound.fits _ (List.mem_append_left _ (mem_source hsrc)) _ .self
  obtain ⟨i', hi', harity⟩ := known_of_fits hfits
  obtain rfl : i = i' := Option.some.inj (hi.symm.trans hi')
  rwa [List.length_map] at harity

/-- **A sound rule fits the catalog**, when its source has distinct variables for arguments and no
variable has a reserved name. -/
theorem fits_of_sound (hsound : m.rule.Sound insts.catalog)
    (hi : insts.get? m.head.inst = some i) (hargs : m.args.Nodup)
    (hnames : ∀ v ∈ m.rule.roles.vars, v.name ∉ reservedNames) : m.Fits insts i where
  inst := hi
  args_length := length_args_of_sound hsrc hsound hi
  named := by
    have hmentioned : ∀ v ∈ m.rule.roles.vars,
        Roles.Mentioned (m.rule.src.defs ++ m.rule.dst.defs) v := by
      intro v hv
      rwa [hsound.roles_eq, Roles.mem_vars_classify] at hv
    refine ⟨?_, hnames⟩
    intro v hv w hw
    exact hsound.names_distinct v w (hmentioned v hv) (hmentioned w hw)
  args_subset := args_subset_vars hsrc hsound.roles_eq
  outputs_subset := outputs_subset_vars hsrc hsound.roles_eq
  defs_subset := by
    intro v hv
    obtain ⟨d, hd, hvd⟩ := Definition.mem_outputsOf.mp hv
    exact mem_vars_of_mem hsound.roles_eq (List.mem_append_right _ hd) (.inl hvd)
  uses_subset := fun d hd v hv =>
    mem_vars_of_mem hsound.roles_eq (List.mem_append_right _ hd) (.inr hv)
  args_nodup := hargs
  outputs_nodup := source_outputs hsrc ▸ hsound.source_outputs_nodup
  defs_nodup := hsound.destination_outputs_nodup
  known := fun d hd a ha => known_of_fits (hsound.fits d (List.mem_append_right _ hd) a ha)
  scope := scope_of_sound hsrc hsound
  undefined := fun _ hv => undefined_of_sound hsrc hsound hv
  output_iff := by
    intro v
    rw [Rule.isOutput_iff hsound.roles_eq, source_outputs hsrc, Pattern.outputs]

end

/-! ### Arms in generated code -/

/-- The arm of a match: the statements, between the opcode and the closing brace. -/
def armCode (i : Instruction) (ss : List Statement) : Code :=
  .block ("ir::Opcode::" ++ i.camelName ++ " => \x7b") (ss.map fun s => ⟨0, s.text⟩) "\x7d"

theorem armEmission_eq {ss : List Statement} (hi : insts.get? m.head.inst = some i)
    (hss : m.statements insts i = ss.map .ok) :
    armEmission insts m = .ofCode (armCode i ss) := by
  have hbody : (ss.map (Except.ok (ε := Error))).map (fun s => s.map fun s => ⟨0, s.text⟩) =
      Emission.ofCode (ss.map fun s => ⟨0, s.text⟩) := by
    simp [Emission.ofCode, Except.map]
  simp only [armEmission, hi, hss, hbody, Emission.block_ofCode, armCode]

/-- The arm of a rule is part of the function of its group. -/
theorem armCode_infix {ms : List Matcher} {ss : List Statement}
    (hgen : (groupEmission insts g).error? = none) (hms : matchers g = .ok ms) (hm : m ∈ ms)
    (hi : insts.get? m.head.inst = some i) (hss : m.statements insts i = ss.map .ok) :
    (armCode i ss).nested.nested <:+: (groupEmission insts g).lines := by
  refine Emission.infix_lines hgen ?_
  have harms : Emission.ofCode (armCode i ss) <:+: ms.flatMap (armEmission insts) := by
    obtain ⟨before, after, rfl⟩ := List.append_of_mem hm
    rw [← armEmission_eq hi hss]
    exact ⟨before.flatMap (armEmission insts), after.flatMap (armEmission insts), by simp⟩
  have hgroup : groupEmission insts g = functionEmission insts g ms := by
    rw [groupEmission, hms]
  rw [hgroup, functionEmission, ← Emission.nested_ofCode, ← Emission.nested_ofCode]
  refine (Emission.nested_infix_block _ _ ?_).trans (List.suffix_append _ _).isInfix
  refine (Emission.nested_infix_block _ _ ?_).trans (List.suffix_append _ _).isInfix
  exact harms.trans (List.prefix_append _ _).isInfix

/-! ### The arms of a group -/

/-- Statements that run are no errors. -/
theorem exists_statements {V : Type} [Inhabited V] {I : Interpretation V} {k : Instance V}
    {st st' : State V} {es : List (Except Error Statement)}
    (h : runEmitted insts I k st es = some st') :
    ∃ ss : List Statement, es = ss.map .ok := by
  induction es generalizing st with
  | nil => exact ⟨[], rfl⟩
  | cons e es ih =>
      cases e with
      | error cause => cases h
      | ok s =>
          rw [runEmitted_cons_ok, Option.bind_eq_some_iff] at h
          obtain ⟨st₁, -, h⟩ := h
          obtain ⟨ss, rfl⟩ := ih h
          exact ⟨s :: ss, rfl⟩

/-- The rule `a << iadd_imm(x, y) => a << iadd(x, iconst(y))`. -/
def nestedExpansion : Rule where
  site := "expand"
  src := ⟨.source, [⟨[Shared.a], ⟨⟨⟨6⟩, "iadd_imm", []⟩, [.var Shared.x, .var Shared.y]⟩⟩]⟩
  dst := ⟨.destination, [⟨[Shared.a], ⟨⟨⟨3⟩, "iadd", []⟩,
    [.var Shared.x, .app ⟨⟨2⟩, "iconst", []⟩ [.var Shared.y]]⟩⟩]⟩
  inputs := [Shared.x, Shared.y]
  roles := ⟨[(Shared.a, .output), (Shared.x, .input), (Shared.y, .input)]⟩

theorem nestedExpansion_accepted : nestedExpansion.Accepted Shared.group.catalog := by
  have hvars : ∀ e ∈ [Expr.var Shared.x, .var Shared.y], e.Made Shared.group.catalog := by
    simp [Expr.Made.var]
  have hsource : (Expr.app ⟨⟨6⟩, "iadd_imm", []⟩ [.var Shared.x, .var Shared.y]).Made
      Shared.group.catalog :=
    .unbound rfl rfl rfl hvars
  have hvar : ∀ e ∈ [Expr.var Shared.y], e.Made Shared.group.catalog := by
    simp [Expr.Made.var]
  have hconstant : (Expr.app ⟨⟨2⟩, "iconst", []⟩ [.var Shared.y]).Made Shared.group.catalog :=
    .unbound rfl rfl rfl hvar
  have hnested : ∀ e ∈ [Expr.var Shared.x, .app ⟨⟨2⟩, "iconst", []⟩ [.var Shared.y]],
      e.Made Shared.group.catalog := by
    simp [Expr.Made.var, hconstant]
  have hdestination : (Expr.app ⟨⟨3⟩, "iadd", []⟩
      [.var Shared.x, .app ⟨⟨2⟩, "iconst", []⟩ [.var Shared.y]]).Made Shared.group.catalog :=
    .unbound rfl rfl rfl hnested
  refine ⟨"expand", .add .source [Shared.a] _ hsource fun _ =>
    .add .destination [Shared.a] _ hdestination fun _ => .finish, Rule.build_eq_ok_iff.mpr
      ⟨⟨nestedExpansion.src, nestedExpansion.dst⟩, ?_, rfl⟩⟩
  simp only [Building.script]
  rfl

/-- **The generated arm computes the destination.**  Take a rule of a group that a function is
generated for, accepted with the catalog, whose source has distinct arguments, in a catalog whose
builder methods have distinct names, and with variables whose names are not reserved.  The
statements of its arm are part of the generated code, and whatever instructions compute and
whatever the operands of the matched instruction are, they run to their end: their calls are one
for each application of the destination, as evaluating the destination makes them, and what they
bind and the results of the matched instruction have the values of the destination. -/
theorem arm_computes_destination (hgen : (groupEmission insts g).error? = none) (hr : r ∈ g.rules)
    (haccepted : r.Accepted insts.catalog) (hmethods : MethodsDistinct insts)
    (hargs : ∀ d ∈ r.src.defs, d.uses.Nodup)
    (hnames : ∀ v ∈ r.roles.vars, v.name ∉ reservedNames) :
    ∃ (m : Matcher) (i : Instruction) (arm : List Statement),
      Matcher.ofRule r = .ok m ∧ insts.get? m.head.inst = some i ∧
      m.statements insts i = arm.map .ok ∧
      (armCode i arm).nested.nested <:+: (groupEmission insts g).lines ∧
      ∀ (V : Type) [Inhabited V] (I : Interpretation V) (type : ValueType) (xs : List V)
        (ρ : Var → V), xs.length = i.arity →
        ∃ st, run insts I ⟨type, i.ins.zip xs⟩ .start arm = some st ∧
          Computes insts I type m (bindAll ρ m.args xs) .start st ∧
          st.log.length = (r.dst.defs.map (·.value.expr.nodes)).sum ∧
          st.removed = !m.replaces := by
  obtain ⟨ms, hms⟩ : ∃ ms, matchers g = .ok ms := by
    cases hms : matchers g with
    | error cause =>
        rw [groupEmission, hms] at hgen
        cases hgen
    | ok ms => exact ⟨ms, rfl⟩
  obtain ⟨m, hm, hof⟩ := exists_matcher hms hr
  obtain ⟨hsrc, rfl⟩ := Matcher.ofRule_eq_ok_iff.mp hof
  have hnodup : m.args.Nodup := by
    have huses : Expr.varsAll (m.args.map .var) = m.args := by
      simp [Expr.varsAll_eq_flatMap, List.flatMap_map, Expr.vars]
    rw [← huses]
    exact hargs _ (hsrc ▸ List.mem_cons_self)
  have hsound : m.rule.Sound insts.catalog := haccepted.sound
  obtain ⟨i, hi, -⟩ :=
    known_of_fits (hsound.fits _ (List.mem_append_left _ (mem_source hsrc)) _ .self)
  have hfits : m.Fits insts i := fits_of_sound hsrc hsound hi hnodup hnames
  have harm : ∃ arm : List Statement, m.statements insts i = arm.map .ok := by
    have hunits : (List.replicate i.arity ()).length = i.arity := List.length_replicate
    obtain ⟨st, hrun, -⟩ :=
      run_arm (fun _ => []) (.scalar ⟨.bool, 1⟩) hfits hmethods hunits fun _ => ()
    exact exists_statements hrun
  obtain ⟨arm, harm⟩ := harm
  refine ⟨m, i, arm, hof, hfits.inst, harm, armCode_infix hgen hms hm hfits.inst harm, ?_⟩
  intro V _ I type xs ρ hxs
  obtain ⟨st, hrun, hcomputes, hremoved⟩ := run_arm I type hfits hmethods hxs ρ
  rw [harm, runEmitted_map_ok] at hrun
  refine ⟨st, hrun, hcomputes, ?_, hremoved⟩
  rw [hcomputes.log, List.length_append, List.length_map, Definition.length_callsOf]
  exact Nat.zero_add _

/-- With sums for all instructions, the arm of `nestedExpansion` turns `5` and `7` into `12`, by
two calls. -/
theorem nestedExpansion_computes :
    ∃ (i : Instruction) (arm : List Statement) (st : State Nat),
      Shared.group.get? ⟨6⟩ = some i ∧
      (armCode i arm).nested.nested <:+:
        (groupEmission Shared.group ⟨"expand", "", [nestedExpansion]⟩).lines ∧
      run Shared.group (fun p => [p.args.sum])
        ⟨.scalar ⟨.int, 32⟩, i.ins.zip [5, 7]⟩ .start arm = some st ∧
      st.results 0 = some 12 ∧ st.log.length = 2 := by
  have hgen : (groupEmission Shared.group ⟨"expand", "", [nestedExpansion]⟩).error? = none := rfl
  obtain ⟨m, i, arm, hof, hi, -, hcode, hrun⟩ := arm_computes_destination hgen List.mem_cons_self
    nestedExpansion_accepted (by decide) (by decide) (by decide)
  have hm : Matcher.ofRule nestedExpansion = .ok ⟨nestedExpansion, [Shared.a],
    ⟨⟨6⟩, "iadd_imm", []⟩, [Shared.x, Shared.y]⟩ := rfl
  obtain rfl := Except.ok.inj (hm.symm.trans hof)
  have harity : [5, 7].length = i.arity := by
    cases hi
    rfl
  obtain ⟨st, hst, hcomputes, hlength, -⟩ := hrun Nat (fun p => [p.args.sum])
    (.scalar ⟨.int, 32⟩) [5, 7] (fun _ => 0) harity
  exact ⟨i, arm, st, hi, hcode, hst, hcomputes.results 0 Shared.a rfl (by decide), hlength⟩

end Isaforge.Legalizer
