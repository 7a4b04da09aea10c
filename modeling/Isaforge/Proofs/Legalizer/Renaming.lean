import Isaforge.Proofs.Legalizer.Refusal
import Isaforge.Proofs.Renaming

/-!
# Renaming — generated code says names only

Rules that match one instruction and have the same arm, or are refused for the same reason, may
stand for each other in every group (`SameArm`, `groupEmission_of_sameArm`).  A rule that is another
one under a renaming (`Rule.Renames`) is such a rule: its group gets the same function, line by line
and error by error, or is refused for the same reason (`groupEmission_renames`).  The two may be
declared at different sites, which only the text of a refusal shows.
-/

namespace Isaforge

open Roles (Mentioned)

/-- The rule `t` has the patterns and the roles of `r` under the renaming `f`, which keeps names and
tells the variables of `r` apart. -/
structure Rule.Renames (f : Var → Var) (r t : Rule) : Prop where
  name_eq : ∀ v, (f v).name = v.name
  injOn : Set.InjOn f {v | Mentioned (r.src.defs ++ r.dst.defs) v}
  roles_eq : r.roles = .classify r.src.defs r.dst.defs
  source : t.src.defs = r.src.defs.map (·.rename f)
  destination : t.dst.defs = r.dst.defs.map (·.rename f)
  roles : t.roles = r.roles.rename f

end Isaforge

namespace Isaforge.Legalizer

open Source
open Roles (Mentioned)

variable {insts : InstructionGroup} {f : Var → Var} {r t : Rule} {m : Matcher}

/-! ### Matchers -/

/-- The matcher under a renaming, as one of the rule `t`. -/
def Matcher.rename (f : Var → Var) (t : Rule) (m : Matcher) : Matcher :=
  ⟨t, m.outputs.map f, m.head, m.args.map f⟩

theorem Matcher.vars?_rename (es : List Expr) :
    vars? (es.map (·.rename f)) = (vars? es).map (·.map f) := by
  induction es with
  | nil => rfl
  | cons e es ih =>
      rw [List.map_cons, vars?, vars?, ih, Expr.var?_rename]
      cases e.var? <;> cases vars? es <;> rfl

/-- The two rules have matchers, or both are refused for the same reason. -/
theorem Matcher.ofRule_renames (h : r.Renames f t) :
    (∃ reason, ofRule r = .error (refusal r reason) ∧ ofRule t = .error (refusal t reason)) ∨
      ∃ m, ofRule r = .ok m ∧ ofRule t = .ok (m.rename f t) := by
  rw [ofRule, ofRule, h.source]
  split
  · rename_i d hd
    rw [hd]
    simp only [List.map_cons, List.map_nil, Definition.rename, Application.rename, vars?_rename]
    cases vars? d.value.args with
    | none => exact .inl ⟨_, rfl, rfl⟩
    | some args => exact .inr ⟨_, rfl, rfl⟩
  · rename_i hno
    refine .inl ⟨_, rfl, ?_⟩
    split
    · rename_i d hd
      obtain ⟨d', hd', -⟩ := List.map_eq_singleton_iff.mp hd
      exact absurd hd' (hno d')
    · rfl

/-! ### Statements -/

theorem isOutput_renames (h : r.Renames f t) {v : Var}
    (hv : Mentioned (r.src.defs ++ r.dst.defs) v) : t.isOutput (f v) = r.isOutput v := by
  have hvars : ∀ w ∈ r.roles.vars, w ∈ {v | Mentioned (r.src.defs ++ r.dst.defs) v} := by
    intro w hw
    rwa [h.roles_eq, Roles.mem_vars_classify] at hw
  rw [Rule.isOutput, Rule.isOutput, Rule.hasRole, Rule.hasRole, Rule.role?, Rule.role?, h.roles,
    Roles.role?_rename h.injOn hvars hv]

/-- Results are written by their names. -/
theorem resultsOf_renames (h : r.Renames f t) {vs : List Var}
    (hvs : ∀ v ∈ vs, Mentioned (r.src.defs ++ r.dst.defs) v) :
    resultsOf t (vs.map f) = resultsOf r vs := by
  have hsubset : vs ⊆ r.roles.vars := by
    intro v hv
    rw [h.roles_eq, Roles.mem_vars_classify]
    exact hvs v hv
  have hvars : t.roles.vars = r.roles.vars.map f := by rw [h.roles, Roles.vars_rename]
  rw [resultsOf_eq_ok hsubset, resultsOf_eq_ok (hvars ▸ List.map_subset f hsubset), List.map_map]
  refine congrArg Except.ok (List.map_congr_left fun v hv => ?_)
  rw [Function.comp_apply, h.name_eq, isOutput_renames h (hvs v hv)]

theorem bindOperands_rename (hf : ∀ v, (f v).name = v.name) (position values : Nat)
    (os : List Operand) (vs : List Var) :
    bindOperands position values os (vs.map f) = bindOperands position values os vs := by
  induction os generalizing position values vs with
  | nil => rfl
  | cons o os ih =>
      cases vs with
      | nil => rfl
      | cons v vs =>
          rw [List.map_cons, bindOperands, bindOperands]
          cases o.kind <;> simp only [ih, hf]

theorem flattenAll_rename (hf : ∀ v, (f v).name = v.name) {σ : Type} (next : Supply σ)
    (ds : List Definition) (s : σ) :
    Matcher.flattenAll next (ds.map (·.rename f)) s =
      (Matcher.flattenAll next ds s).map fun p => (p.1.rename f, p.2) := by
  induction ds generalizing s with
  | nil => rfl
  | cons d ds ih =>
      have hcall : Call.ofApplication (d.rename f).value = Call.ofApplication d.value :=
        Call.ofApplication_rename hf d.value
      rw [List.map_cons, flattenAll_cons, hcall, ih, flattenAll_cons, List.map_cons]

theorem buildStatements_renames (h : r.Renames f t) (replaces : Bool)
    {l : List (Definition × FlatSequence)}
    (hl : ∀ p ∈ l, ∀ v ∈ p.1.outputs, Mentioned (r.src.defs ++ r.dst.defs) v) :
    buildStatements insts t replaces (l.map fun p => (p.1.rename f, p.2)) =
      buildStatements insts r replaces l := by
  have hdefine : ∀ p ∈ l, defineStatement insts t (p.1.rename f) p.2.top =
      defineStatement insts r p.1 p.2.top := by
    intro p hp
    rw [defineStatement, defineStatement, Definition.rename, resultsOf_renames h (hl p hp)]
  induction l with
  | nil => rfl
  | cons p l ih =>
      rw [List.forall_mem_cons] at hl hdefine
      cases l with
      | nil =>
          rw [List.map_cons, List.map_nil, buildStatements, buildStatements, hdefine.1]
      | cons q l =>
          have ih := ih hl.2 hdefine.2
          rw [List.map_cons] at ih
          rw [List.map_cons, List.map_cons, buildStatements_cons_cons, buildStatements_cons_cons,
            ih, definitionStatements, definitionStatements, hdefine.1]

/-! ### Functions -/

theorem mentioned_of_mem_destination {p : Definition × FlatSequence} (hp : p ∈ m.destination)
    {v : Var} (hv : v ∈ p.1.outputs) :
    Mentioned (m.rule.src.defs ++ m.rule.dst.defs) v := by
  have hmem : p.1 ∈ m.rule.dst.defs := by
    rw [← map_fst_flattenAll (Fresh.supply m.taken) m.rule.dst.defs 0]
    exact List.mem_map_of_mem hp
  exact ⟨p.1, List.mem_append_right _ hmem, .inl hv⟩

theorem Matcher.sourceText_rename (h : m.rule.Renames f t) :
    (m.rename f t).sourceText = m.sourceText := by
  rw [sourceText, sourceText, rename, Pattern.text, h.source, List.map_map]
  exact congrArg "; ".intercalate
    (List.map_congr_left fun d _ => Definition.text_rename h.name_eq d)

theorem Matcher.taken_rename (h : m.rule.Renames f t) : (m.rename f t).taken = m.taken := by
  rw [taken, taken, rename, h.roles, Roles.vars_rename, List.map_map]
  exact List.map_congr_left fun v _ => h.name_eq v

/-- The names given to nested calls are the same, as the names taken are. -/
theorem Matcher.destination_rename (h : m.rule.Renames f t) :
    (m.rename f t).destination = m.destination.map fun p => (p.1.rename f, p.2) := by
  rw [destination, taken_rename h, rename, h.destination, flattenAll_rename h.name_eq]
  rfl

/-- The last definition defines the outputs of the one or of the other. -/
theorem Matcher.replaces_rename (h : m.rule.Renames f t)
    (houtputs : ∀ v ∈ m.outputs, Mentioned (m.rule.src.defs ++ m.rule.dst.defs) v) :
    (m.rename f t).replaces = m.replaces := by
  rw [replaces, replaces, rename, h.destination, List.getLast?_map]
  cases hlast : m.rule.dst.defs.getLast? with
  | none => rfl
  | some d =>
      have hd : d ∈ m.rule.src.defs ++ m.rule.dst.defs :=
        List.mem_append_right _ (List.mem_of_getLast? hlast)
      have hmentioned : ∀ v ∈ d.outputs,
          v ∈ {v | Mentioned (m.rule.src.defs ++ m.rule.dst.defs) v} :=
        fun v hv => ⟨d, hd, .inl hv⟩
      simp [Definition.rename, map_eq_map_iff_of_injOn h.injOn hmentioned houtputs]

theorem Matcher.resultStatements_rename (h : m.rule.Renames f t)
    (houtputs : ∀ v ∈ m.outputs, Mentioned (m.rule.src.defs ++ m.rule.dst.defs) v) :
    (m.rename f t).resultStatements = m.resultStatements := by
  have hresultsOf : resultsOf t (m.outputs.map f) = resultsOf m.rule m.outputs :=
    resultsOf_renames h houtputs
  rw [resultStatements, replaces_rename h houtputs]
  simp only [rename, hresultsOf]
  rfl

/-- The arm of a matcher is the arm of the renamed one. -/
theorem statements_renames (h : m.rule.Renames f t)
    (houtputs : ∀ v ∈ m.outputs, Mentioned (m.rule.src.defs ++ m.rule.dst.defs) v)
    (i : Instruction) : (m.rename f t).statements insts i = m.statements insts i := by
  have hrule : (m.rename f t).rule = t := rfl
  have hcalls : (m.rename f t).destination.flatMap (·.2.calls) =
      m.destination.flatMap (·.2.calls) := by
    rw [Matcher.destination_rename h, List.flatMap_map]
  have hoperands : bindOperands 0 0 i.ins (m.rename f t).args = bindOperands 0 0 i.ins m.args :=
    bindOperands_rename h.name_eq 0 0 i.ins m.args
  have hbuild : buildStatements insts t m.replaces (m.rename f t).destination =
      buildStatements insts m.rule m.replaces m.destination := by
    rw [Matcher.destination_rename h]
    exact buildStatements_renames h m.replaces fun p hp v hv => mentioned_of_mem_destination hp hv
  simp only [Matcher.statements, Matcher.sourceText_rename h, hcalls, hoperands,
    Matcher.resultStatements_rename h houtputs, Matcher.replaces_rename h houtputs, hrule, hbuild]

theorem armEmission_renames (h : m.rule.Renames f t)
    (houtputs : ∀ v ∈ m.outputs, Mentioned (m.rule.src.defs ++ m.rule.dst.defs) v) :
    armEmission insts (m.rename f t) = armEmission insts m := by
  have hhead : (m.rename f t).head = m.head := rfl
  simp only [armEmission, hhead, statements_renames h houtputs]

/-! ### Groups -/

/-- The two rules match one instruction and have the same arm, or are refused for the same
reason. -/
inductive SameArm (insts : InstructionGroup) (r t : Rule) : Prop where
  | refused (reason : String) : Matcher.ofRule r = .error (refusal r reason) →
      Matcher.ofRule t = .error (refusal t reason) → SameArm insts r t
  | matched (m n : Matcher) : Matcher.ofRule r = .ok m → Matcher.ofRule t = .ok n →
      n.head = m.head → armEmission insts n = armEmission insts m → SameArm insts r t

theorem SameArm.refl (insts : InstructionGroup) (r : Rule) : SameArm insts r r := by
  cases hr : Matcher.ofRule r with
  | ok m => exact .matched m m hr hr rfl rfl
  | error e =>
      obtain ⟨⟨reason, rfl⟩, -⟩ := of_ofRule_eq_error hr
      exact .refused reason hr hr

theorem SameArm.of_renames (insts : InstructionGroup) (h : r.Renames f t) : SameArm insts r t := by
  rcases Matcher.ofRule_renames h with ⟨reason, hr, ht⟩ | ⟨m, hr, ht⟩
  · exact .refused reason hr ht
  · obtain ⟨hsource, rfl⟩ := Matcher.ofRule_eq_ok_iff.mp hr
    have houtputs : ∀ v ∈ m.outputs, Mentioned (m.rule.src.defs ++ m.rule.dst.defs) v := by
      intro v hv
      refine ⟨⟨m.outputs, ⟨m.head, m.args.map .var⟩⟩, List.mem_append_left _ ?_, .inl hv⟩
      rw [hsource]
      exact List.mem_singleton_self _
    exact .matched m (m.rename f t) hr ht rfl (armEmission_renames h houtputs)

/-- A usable rule is refused when its instruction is matched already. -/
theorem matchersFrom_cons (group : String) (matched : List InstId) (rs : List Rule)
    (h : Matcher.ofRule r = .ok m) :
    matchersFrom group matched (r :: rs) =
      if m.head.inst ∈ matched then
        .error (refusal r
          ("second transform for `" ++ m.head.name ++ "` in group `" ++ group ++ "`"))
      else (matchersFrom group (m.head.inst :: matched) rs).map (m :: ·) := by
  rw [matchersFrom, h]
  by_cases hmatched : m.head.inst ∈ matched
  · simp only [bind, Except.bind, if_pos hmatched]
    rfl
  · simp only [bind, Except.bind, if_neg hmatched]
    rfl

variable {R : Rule → Rule → Prop} {rs ts : List Rule}

/-- Rules with the same arms are all usable, or the first one that is not is refused for the same
reason. -/
theorem matchersFrom_of_sameArm (hR : ∀ r t, R r t → SameArm insts r t)
    (h : List.Forall₂ R rs ts) (group : String) (matched : List InstId) :
    (∃ ms ns, matchersFrom group matched rs = .ok ms ∧ matchersFrom group matched ts = .ok ns ∧
        ns.map (armEmission insts) = ms.map (armEmission insts)) ∨
      ∃ r t reason, R r t ∧ matchersFrom group matched rs = .error (refusal r reason) ∧
        matchersFrom group matched ts = .error (refusal t reason) := by
  induction h generalizing matched with
  | nil => exact .inl ⟨[], [], rfl, rfl, rfl⟩
  | @cons r t rs ts hrt _ ih =>
      cases hR r t hrt with
      | refused reason hr ht =>
          refine .inr ⟨r, t, reason, hrt, ?_, ?_⟩
          · rw [matchersFrom, hr]
            rfl
          · rw [matchersFrom, ht]
            rfl
      | matched m n hr ht hhead harm =>
          rw [matchersFrom_cons group matched rs hr, matchersFrom_cons group matched ts ht, hhead]
          by_cases hmatched : m.head.inst ∈ matched
          · rw [if_pos hmatched, if_pos hmatched]
            exact .inr ⟨r, t, _, hrt, rfl, rfl⟩
          · rw [if_neg hmatched, if_neg hmatched]
            rcases ih (m.head.inst :: matched) with
              ⟨ms, ns, hms, hns, harms⟩ | ⟨r', t', reason, hrt', hr', ht'⟩
            · rw [hms, hns]
              refine .inl ⟨m :: ms, n :: ns, rfl, rfl, ?_⟩
              rw [List.map_cons, List.map_cons, harm, harms]
            · rw [hr', ht']
              exact .inr ⟨r', t', reason, hrt', rfl, rfl⟩

/-- The functions of groups whose rules have the same arms, or the reason why there are none. -/
theorem groupEmission_of_sameArm (hR : ∀ r t, R r t → SameArm insts r t)
    (h : List.Forall₂ R rs ts) (name doc : String) :
    groupEmission insts ⟨name, doc, ts⟩ = groupEmission insts ⟨name, doc, rs⟩ ∨
      ∃ r t reason, R r t ∧ groupEmission insts ⟨name, doc, rs⟩ = [.error (refusal r reason)] ∧
        groupEmission insts ⟨name, doc, ts⟩ = [.error (refusal t reason)] := by
  rw [groupEmission, groupEmission, matchers, matchers]
  rcases matchersFrom_of_sameArm hR h name [] with
    ⟨ms, ns, hms, hns, harms⟩ | ⟨r, t, reason, hrt, hr, ht⟩
  · refine .inl ?_
    rw [hms, hns]
    simp only [functionEmission, List.flatMap_def, harms]
  · exact .inr ⟨r, t, reason, hrt, by rw [hr], by rw [ht]⟩

/-- A rule with the same arm may stand for the rule in every group. -/
theorem groupEmission_replaced (h : SameArm insts r t) (name doc : String)
    (before after : List Rule) :
    groupEmission insts ⟨name, doc, before ++ t :: after⟩ =
        groupEmission insts ⟨name, doc, before ++ r :: after⟩ ∨
      ∃ reason,
        groupEmission insts ⟨name, doc, before ++ t :: after⟩ = [.error (refusal t reason)] ∧
        groupEmission insts ⟨name, doc, before ++ r :: after⟩ = [.error (refusal r reason)] := by
  let R : Rule → Rule → Prop := fun a b => a = b ∨ a = r ∧ b = t
  have hR : ∀ a b, R a b → SameArm insts a b := by
    rintro a b (rfl | ⟨rfl, rfl⟩)
    · exact .refl insts a
    · exact h
  have hsame (l : List Rule) : List.Forall₂ R l l := List.forall₂_same.mpr fun a _ => .inl rfl
  have hrules : List.Forall₂ R (before ++ r :: after) (before ++ t :: after) :=
    List.rel_append (hsame before) (.cons (.inr ⟨rfl, rfl⟩) (hsame after))
  rcases groupEmission_of_sameArm hR hrules name doc with
    heq | ⟨a, b, reason, rfl | ⟨rfl, rfl⟩, ha, hb⟩
  · exact .inl heq
  · exact .inl (hb.trans ha.symm)
  · exact .inr ⟨reason, hb, ha⟩

/-- A renamed rule may stand for the rule in every group. -/
theorem groupEmission_renames (h : r.Renames f t) (insts : InstructionGroup) (name doc : String)
    (before after : List Rule) :
    groupEmission insts ⟨name, doc, before ++ t :: after⟩ =
        groupEmission insts ⟨name, doc, before ++ r :: after⟩ ∨
      ∃ reason,
        groupEmission insts ⟨name, doc, before ++ t :: after⟩ = [.error (refusal t reason)] ∧
        groupEmission insts ⟨name, doc, before ++ r :: after⟩ = [.error (refusal r reason)] :=
  groupEmission_replaced (.of_renames insts h) name doc before after

end Isaforge.Legalizer
