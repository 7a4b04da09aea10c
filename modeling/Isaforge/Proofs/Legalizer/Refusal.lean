import Isaforge.Proofs.Legalizer.Pass
import Isaforge.Proofs.Page

/-!
# Refusal — when a group has no function

A group can fail to have a function for two reasons only.

* A rule is `Unusable`: its source is no single definition with variables for arguments, or an
  earlier rule has its source instruction.  Then nothing is written.
* The catalog does not know an instruction.  Then the function is written up to the place of the
  first one (`firstMissing?`), in the order of the calls.

The generator has two more errors, for a variable without a role and for a nested call that was
not hoisted.  The roles of a rule cover its outputs and hoisting leaves flat calls, so neither
arises (`fault?_defineStatement`, `builderCall_asCall`).

`group_generated_or_refused` is the whole account, for every catalog and every page.
-/

namespace Isaforge

/-- The instructions of the rule, in the order an arm needs them: that of the source, and then those
of the calls of the destination. -/
def Rule.instructions (r : Rule) : List InstId :=
  r.src.defs.map (·.value.head.inst) ++
    r.dst.defs.flatMap fun d => d.value.expr.heads.map (·.inst)

/-- Some script builds the rule. -/
def Rule.Built (r : Rule) : Prop :=
  ∃ site script, Rule.build site script = .ok r

theorem Rule.Accepted.built {c : Catalog} {r : Rule} (h : r.Accepted c) : r.Built := by
  obtain ⟨site, b, hb⟩ := h
  exact ⟨site, b.script, hb⟩

theorem Rule.Built.close_eq {r : Rule} (h : r.Built) :
    r.roles = .classify r.src.defs r.dst.defs ∧ NamesDistinct r.src r.dst := by
  obtain ⟨site, script, h⟩ := h
  obtain ⟨draft, -, hclose⟩ := Rule.build_eq_ok_iff.mp h
  obtain ⟨inputs, -, hnames, rfl⟩ := Rule.close_eq_ok_iff.mp hclose
  exact ⟨rfl, hnames⟩

end Isaforge

namespace Isaforge.Legalizer

open Source

variable {insts : InstructionGroup} {g : RuleGroup} {r : Rule} {m : Matcher} {ms : List Matcher}
  {rules : List Rule} {name : String} {matched : List InstId} {cause : Error}

/-! ### Unusable rules -/

/-- Why the rule at place `n` cannot be used for legalization. -/
inductive Unusable (rules : List Rule) (n : Nat) : Prop where
  /-- Its source has no definition, or several. -/
  | definitions {r : Rule} : rules[n]? = some r → r.src.defs.length ≠ 1 → Unusable rules n
  /-- An argument of its source is no variable. -/
  | argument {r : Rule} {d : Definition} {e : Expr} :
      rules[n]? = some r → d ∈ r.src.defs → e ∈ d.value.args → e.var? = none → Unusable rules n
  /-- An earlier rule has its source instruction. -/
  | repeated {r r' : Rule} {d d' : Definition} {k : Nat} :
      rules[n]? = some r → k < n → rules[k]? = some r' → d ∈ r.src.defs → d' ∈ r'.src.defs →
      d.value.head.inst = d'.value.head.inst → Unusable rules n

theorem Unusable.cons (r : Rule) {n : Nat} (h : Unusable rules n) :
    Unusable (r :: rules) (n + 1) := by
  cases h with
  | definitions hr h => exact .definitions hr h
  | argument hr hd he h => exact .argument hr hd he h
  | repeated hr hk hr' hd hd' h => exact .repeated hr (Nat.succ_lt_succ hk) hr' hd hd' h

/-- The instruction is the source of the rule: that is one application of it, to variables. -/
def SourceOf (id : InstId) (r : Rule) : Prop :=
  ∃ d, r.src.defs = [d] ∧ d.value.head.inst = id ∧ ∀ e ∈ d.value.args, e.var? ≠ none

/-- Rules of one source instruction each are usable when the instructions are distinct. -/
theorem usable_iff_nodup {ids : List InstId} (h : List.Forall₂ SourceOf ids rules) :
    (∀ n, ¬ Unusable rules n) ↔ ids.Nodup := by
  have hrule : ∀ {n : Nat} {r : Rule}, rules[n]? = some r →
      ∃ id, ids[n]? = some id ∧ SourceOf id r := by
    intro n r hr
    obtain ⟨hn, rfl⟩ := List.getElem?_eq_some_iff.mp hr
    exact ⟨_, List.getElem?_eq_getElem (h.length_eq ▸ hn), h.get _ hn⟩
  rw [List.nodup_iff_getElem?_ne_getElem?]
  constructor
  · intro husable k n hkn hn heq
    have hn' : n < rules.length := h.length_eq ▸ hn
    obtain ⟨id, hid, d, hd, rfl, -⟩ := hrule (List.getElem?_eq_getElem hn')
    obtain ⟨id', hid', d', hd', rfl, -⟩ := hrule (List.getElem?_eq_getElem (hkn.trans hn'))
    rw [hid, hid'] at heq
    exact husable n (.repeated (List.getElem?_eq_getElem hn') hkn
      (List.getElem?_eq_getElem (hkn.trans hn')) (hd ▸ List.mem_cons_self)
      (hd' ▸ List.mem_cons_self) (Option.some.inj heq).symm)
  · intro hnd n hn
    cases hn with
    | definitions hr hlength =>
        obtain ⟨id, -, d, hd, -⟩ := hrule hr
        exact hlength (by rw [hd]; rfl)
    | argument hr hd he hnone =>
        obtain ⟨id, -, d, hsrc, -, hvars⟩ := hrule hr
        rw [hsrc, List.mem_singleton] at hd
        exact hvars _ (hd ▸ he) hnone
    | repeated hr hkn hr' hd hd' heq =>
        obtain ⟨id, hid, e, hsrc, rfl, -⟩ := hrule hr
        obtain ⟨id', hid', e', hsrc', rfl, -⟩ := hrule hr'
        rw [hsrc, List.mem_singleton] at hd
        rw [hsrc', List.mem_singleton] at hd'
        subst hd hd'
        have hn : n < ids.length := (List.getElem?_eq_some_iff.mp hid).1
        exact hnd _ n hkn hn (by rw [hid, hid', heq])

theorem exists_var?_eq_none {es : List Expr} (h : Matcher.vars? es = none) :
    ∃ e ∈ es, e.var? = none := by
  induction es with
  | nil => cases h
  | cons e es ih =>
      cases he : e.var? with
      | none => exact ⟨e, List.mem_cons_self, he⟩
      | some v =>
          cases hes : Matcher.vars? es with
          | none =>
              obtain ⟨e', he', hnone⟩ := ih hes
              exact ⟨e', List.mem_cons_of_mem _ he', hnone⟩
          | some vs =>
              rw [Matcher.vars?, he, hes] at h
              cases h

/-- A rule without a matcher is refused, for what its source is. -/
theorem of_ofRule_eq_error (h : Matcher.ofRule r = .error cause) :
    (∃ reason, cause = refusal r reason) ∧
      (r.src.defs.length ≠ 1 ∨ ∃ d ∈ r.src.defs, ∃ e ∈ d.value.args, e.var? = none) := by
  rw [Matcher.ofRule] at h
  split at h
  · rename_i d hd
    split at h
    · cases h
    · rename_i hnone
      cases h
      obtain ⟨e, he, hvar⟩ := exists_var?_eq_none hnone
      exact ⟨⟨_, rfl⟩, .inr ⟨d, hd ▸ List.mem_cons_self, e, he, hvar⟩⟩
  · rename_i hno
    cases h
    refine ⟨⟨_, rfl⟩, .inl ?_⟩
    intro hlength
    obtain ⟨d, hd⟩ := List.length_eq_one_iff.mp hlength
    exact hno d hd

/-- A rule with a matcher has one source definition, of the matcher's instruction. -/
theorem source_of_ofRule (h : Matcher.ofRule r = .ok m) {d : Definition} (hd : d ∈ r.src.defs) :
    d.value.head.inst = m.head.inst ∧ ∀ e ∈ d.value.args, e.var? ≠ none := by
  obtain ⟨hsrc, -⟩ := Matcher.ofRule_eq_ok_iff.mp h
  rw [hsrc, List.mem_singleton] at hd
  subst hd
  refine ⟨rfl, ?_⟩
  intro e he
  obtain ⟨v, -, rfl⟩ := List.mem_map.mp he
  exact Option.some_ne_none v

/-- Rules without matchers are refused: one of them is unusable, or has an instruction that is
matched already. -/
theorem of_matchersFrom_eq_error (h : matchersFrom name matched rules = .error cause) :
    (∃ (r : Rule) (reason : String), cause = refusal r reason) ∧
      ((∃ n, Unusable rules n) ∨
        ∃ (n : Nat) (r : Rule) (d : Definition),
          rules[n]? = some r ∧ d ∈ r.src.defs ∧ d.value.head.inst ∈ matched) := by
  induction rules generalizing matched with
  | nil => cases h
  | cons r rules ih =>
      rw [matchersFrom] at h
      cases hof : Matcher.ofRule r with
      | error cause' =>
          rw [hof] at h
          cases h
          obtain ⟨⟨reason, hreason⟩, hsource⟩ := of_ofRule_eq_error hof
          refine ⟨⟨r, reason, hreason⟩, .inl ⟨0, ?_⟩⟩
          rcases hsource with hlength | ⟨d, hd, e, he, hvar⟩
          · exact .definitions rfl hlength
          · exact .argument rfl hd he hvar
      | ok m =>
          obtain ⟨hsrc, -⟩ := Matcher.ofRule_eq_ok_iff.mp hof
          have hd : ⟨m.outputs, ⟨m.head, m.args.map .var⟩⟩ ∈ r.src.defs :=
            hsrc ▸ List.mem_cons_self
          rw [hof] at h
          by_cases hmatched : m.head.inst ∈ matched
          · simp only [bind, Except.bind, if_pos hmatched] at h
            cases h
            exact ⟨⟨r, _, rfl⟩, .inr ⟨0, r, _, rfl, hd, hmatched⟩⟩
          · have hrest : matchersFrom name (m.head.inst :: matched) rules = .error cause := by
              simp only [bind, Except.bind, if_neg hmatched] at h
              cases hms : matchersFrom name (m.head.inst :: matched) rules with
              | error cause' =>
                  rw [hms] at h
                  exact h
              | ok ms =>
                  rw [hms] at h
                  cases h
            obtain ⟨hcause, hplace⟩ := ih hrest
            refine ⟨hcause, ?_⟩
            rcases hplace with ⟨n, hn⟩ | ⟨n, r', d', hn, hd', hmem⟩
            · exact .inl ⟨n + 1, hn.cons r⟩
            · rcases List.mem_cons.mp hmem with heq | hmem
              · exact .inl ⟨n + 1, .repeated hn (Nat.succ_pos n) rfl hd' hd heq⟩
              · exact .inr ⟨n + 1, r', d', hn, hd', hmem⟩

/-- Rules with matchers are usable, and none has an instruction that is matched already. -/
theorem usable_of_matchersFrom (h : matchersFrom name matched rules = .ok ms) :
    (∀ n, ¬ Unusable rules n) ∧
      ∀ r ∈ rules, ∀ d ∈ r.src.defs, d.value.head.inst ∉ matched := by
  induction rules generalizing matched ms with
  | nil =>
      refine ⟨fun n hn => ?_, fun r hr => absurd hr List.not_mem_nil⟩
      cases hn with
      | definitions hr _ | argument hr _ _ _ | repeated hr _ _ _ _ _ => simp at hr
  | cons r rules ih =>
      rw [matchersFrom, bind_eq_ok_iff] at h
      obtain ⟨m, hof, h⟩ := h
      obtain ⟨hsrc, -⟩ := Matcher.ofRule_eq_ok_iff.mp hof
      have hmatched : m.head.inst ∉ matched := by
        intro hmem
        rw [if_pos hmem] at h
        cases h
      rw [if_neg hmatched] at h
      obtain ⟨ms', hms', -⟩ := bind_eq_ok_iff.mp h
      obtain ⟨husable, hnew⟩ := ih hms'
      refine ⟨fun n hn => ?_, fun r' hr' d hd hmem => ?_⟩
      · cases n with
        | zero =>
            cases hn with
            | definitions hr hlength =>
                cases hr
                exact hlength (by rw [hsrc]; rfl)
            | argument hr hd he hvar =>
                cases hr
                exact (source_of_ofRule hof hd).2 _ he hvar
            | repeated _ hk _ _ _ _ => exact Nat.not_lt_zero _ hk
        | succ n =>
            cases hn with
            | definitions hr hlength => exact husable n (.definitions hr hlength)
            | argument hr hd he hvar => exact husable n (.argument hr hd he hvar)
            | @repeated _ _ _ _ k hr hk hr' hd hd' heq =>
                cases k with
                | zero =>
                    cases hr'
                    rw [(source_of_ofRule hof hd').1] at heq
                    exact hnew _ (List.mem_of_getElem? hr) _ hd (heq ▸ List.mem_cons_self)
                | succ k =>
                    exact husable n (.repeated hr (Nat.lt_of_succ_lt_succ hk) hr' hd hd' heq)
      · rcases List.mem_cons.mp hr' with rfl | hr'
        · exact hmatched ((source_of_ofRule hof hd).1 ▸ hmem)
        · exact hnew r' hr' d hd (List.mem_cons_of_mem _ hmem)

/-- The matchers are those of the rules, in order. -/
theorem rules_of_matchersFrom (h : matchersFrom name matched rules = .ok ms) :
    ms.map (·.rule) = rules ∧ ∀ m ∈ ms, Matcher.ofRule m.rule = .ok m := by
  induction rules generalizing matched ms with
  | nil =>
      cases h
      exact ⟨rfl, fun m hm => absurd hm List.not_mem_nil⟩
  | cons r rules ih =>
      rw [matchersFrom, bind_eq_ok_iff] at h
      obtain ⟨m, hof, h⟩ := h
      have hmatched : m.head.inst ∉ matched := by
        intro hmem
        rw [if_pos hmem] at h
        cases h
      rw [if_neg hmatched] at h
      obtain ⟨ms', hms', h⟩ := bind_eq_ok_iff.mp h
      cases h
      obtain ⟨hrules, hms⟩ := ih hms'
      obtain ⟨-, hrule⟩ := Matcher.ofRule_eq_ok_iff.mp hof
      refine ⟨by rw [List.map_cons, hrules, hrule], ?_⟩
      intro m' hm'
      rcases List.mem_cons.mp hm' with rfl | hm'
      · rw [hrule]
        exact hof
      · exact hms m' hm'

/-! ### Faults of an arm -/

/-- The error of an instruction that the catalog does not know. -/
def missing? (insts : InstructionGroup) (id : InstId) : Option Error :=
  match insts.get? id with
  | none => some (.unknownInstruction id.index)
  | some _ => none

/-- The first instruction of the rules that the catalog does not know. -/
def firstMissing? (insts : InstructionGroup) (rules : List Rule) : Option InstId :=
  (rules.flatMap Rule.instructions).find? fun id => (insts.get? id).isNone

theorem findSome?_missing? (insts : InstructionGroup) (ids : List InstId) :
    ids.findSome? (missing? insts) =
      (ids.find? fun id => (insts.get? id).isNone).map fun id => .unknownInstruction id.index := by
  induction ids with
  | nil => rfl
  | cons id ids ih =>
      rw [List.findSome?_cons, List.find?_cons, ih, missing?]
      cases insts.get? id <;> rfl

/-- A flat call has no fault but that its instruction is unknown. -/
theorem fault?_builderCall (insts : InstructionGroup) (c : FlatCall) :
    fault? (builderCall insts c.asCall) = missing? insts c.op.inst := by
  rw [builderCall_asCall, missing?]
  cases insts.get? c.op.inst <;> rfl

theorem findSome?_hoistedStatements (insts : InstructionGroup) (calls : FlatSequence) :
    (hoistedStatements insts calls).findSome? fault? =
      (calls.hoisted.map (·.call.op.inst)).findSome? (missing? insts) := by
  rw [hoistedStatements, List.findSome?_map, List.findSome?_map]
  refine congrArg calls.hoisted.findSome? (funext fun c => ?_)
  exact (fault?_map _ _).trans (fault?_builderCall insts c.call)

/-- The outputs of a definition have roles, so they are no fault of its statement. -/
theorem fault?_defineStatement {d : Definition} (hd : d.outputs ⊆ r.roles.vars) (c : FlatCall) :
    fault? (defineStatement insts r d c) = missing? insts c.op.inst := by
  rw [defineStatement, resultsOf_eq_ok hd, builderCall_asCall, missing?]
  cases insts.get? c.op.inst <;> rfl

/-- The faults of a definition are those of its calls, in their order. -/
theorem findSome?_hoisted_top {calls : FlatSequence} {top : Except Error Statement}
    (htop : fault? top = missing? insts calls.top.op.inst) :
    (hoistedStatements insts calls ++ [top]).findSome? fault? =
      (calls.calls.map (·.op.inst)).findSome? (missing? insts) := by
  rw [List.findSome?_append, findSome?_hoistedStatements, FlatSequence.calls, List.map_append,
    List.map_map, List.findSome?_append, List.findSome?_singleton, htop, List.map_singleton,
    List.findSome?_singleton]
  rfl

/-- The faults of a destination are those of its calls, in their order. -/
theorem findSome?_buildStatements {replaces : Bool} {l : List (Definition × FlatSequence)}
    (hl : ∀ p ∈ l, p.1.outputs ⊆ r.roles.vars) :
    (buildStatements insts r replaces l).findSome? fault? =
      (l.flatMap fun p => p.2.calls.map (·.op.inst)).findSome? (missing? insts) := by
  induction l with
  | nil => rfl
  | cons p l ih =>
      have hdefine : fault? (defineStatement insts r p.1 p.2.top) =
          missing? insts p.2.top.op.inst :=
        fault?_defineStatement (hl p List.mem_cons_self) p.2.top
      cases l with
      | nil =>
          rw [List.flatMap_singleton, buildStatements]
          refine findSome?_hoisted_top ?_
          cases replaces with
          | false => exact hdefine
          | true => exact (fault?_map _ _).trans (fault?_builderCall insts p.2.top)
      | cons q l =>
          rw [buildStatements_cons_cons, List.findSome?_append, List.flatMap_cons,
            List.findSome?_append, definitionStatements, findSome?_hoisted_top hdefine,
            ih fun p hp => hl p (List.mem_cons_of_mem _ hp)]

section

variable {σ : Type} (next : Supply σ)

theorem map_fst_flattenAll (ds : List Definition) (s : σ) :
    (Matcher.flattenAll next ds s).map (·.1) = ds := by
  induction ds generalizing s with
  | nil => rfl
  | cons d ds ih => rw [flattenAll_cons, List.map_cons, ih]

/-- The calls of a destination are those of the heads of its definitions, in their order. -/
theorem ops_flattenAll (ds : List Definition) (s : σ) :
    ((Matcher.flattenAll next ds s).flatMap (·.2.calls)).map (·.op) =
      (ds.flatMap (·.value.expr.heads)).map Head.operation := by
  induction ds generalizing s with
  | nil => rfl
  | cons d ds ih =>
      rw [flattenAll_cons, List.flatMap_cons, List.flatMap_cons, List.map_append, List.map_append,
        CallArg.ops_flatten, ih]

theorem insts_flattenAll (ds : List Definition) (s : σ) :
    ((Matcher.flattenAll next ds s).flatMap fun p => p.2.calls.map (·.op.inst)) =
      ds.flatMap fun d => d.value.expr.heads.map (·.inst) := by
  have hops := congrArg (List.map (·.inst)) (ops_flattenAll next ds s)
  rwa [List.map_map, List.map_map, List.map_flatMap, List.map_flatMap] at hops

end

theorem outputs_subset_of_mem_destination
    (hroles : m.rule.roles = .classify m.rule.src.defs m.rule.dst.defs)
    {p : Definition × FlatSequence} (hp : p ∈ m.destination) :
    p.1.outputs ⊆ m.rule.roles.vars := by
  have hdef : p.1 ∈ m.rule.dst.defs := by
    rw [← map_fst_flattenAll (Fresh.supply m.taken) m.rule.dst.defs 0]
    exact List.mem_map_of_mem hp
  exact fun v hv => mem_vars_of_mem hroles (List.mem_append_right _ hdef) (.inl hv)

/-- **The faults of an arm** are the instructions of its rule that the catalog does not know. -/
theorem findSome?_armEmission (hroles : m.rule.roles = .classify m.rule.src.defs m.rule.dst.defs)
    (hof : Matcher.ofRule m.rule = .ok m) :
    (armEmission insts m).findSome? fault? =
      m.rule.instructions.findSome? (missing? insts) := by
  obtain ⟨hsrc, -⟩ := Matcher.ofRule_eq_ok_iff.mp hof
  have hdefs : ∀ p ∈ m.destination, p.1.outputs ⊆ m.rule.roles.vars :=
    fun p hp => outputs_subset_of_mem_destination hroles hp
  have hinstructions : m.rule.instructions = m.head.inst ::
      m.destination.flatMap fun p => p.2.calls.map (·.op.inst) := by
    rw [Rule.instructions, hsrc, Matcher.destination, insts_flattenAll]
    rfl
  rw [hinstructions, List.findSome?_cons, armEmission, missing?]
  cases hi : insts.get? m.head.inst with
  | none => rfl
  | some i =>
      simp only [Emission.findSome?_block, findSome?_map_map,
        Matcher.statements_eq insts i (outputs_subset_vars hsrc hroles), List.findSome?_append,
        findSome?_map_ok, findSome?_buildStatements hdefs, Option.none_or, Option.or_none]

/-! ### Faults of a function -/

/-- The faults of a function are those of its arms. -/
theorem error?_functionEmission (insts : InstructionGroup) (g : RuleGroup) (ms : List Matcher) :
    (functionEmission insts g ms).error? =
      (ms.flatMap (armEmission insts)).findSome? fault? := by
  simp only [Emission.error?_eq_findSome?, functionEmission, List.findSome?_append,
    Emission.findSome?_ofCode, Emission.findSome?_block, Option.none_or, Option.or_none]

/-- The function of usable rules breaks off at the first instruction that is unknown. -/
theorem error?_groupEmission (hbuilt : ∀ r ∈ g.rules, r.Built) (hms : matchers g = .ok ms) :
    (groupEmission insts g).error? =
      (firstMissing? insts g.rules).map fun id => .unknownInstruction id.index := by
  obtain ⟨hrules, hof⟩ := rules_of_matchersFrom hms
  have harms : ∀ ms' ⊆ ms, (ms'.flatMap (armEmission insts)).findSome? fault? =
      ((ms'.map (·.rule)).flatMap Rule.instructions).findSome? (missing? insts) := by
    intro ms' hsub
    induction ms' with
    | nil => rfl
    | cons m ms' ih =>
        have hm : m ∈ ms := hsub List.mem_cons_self
        have hroles := (hbuilt m.rule (hrules ▸ List.mem_map_of_mem hm)).close_eq.1
        rw [List.flatMap_cons, List.map_cons, List.flatMap_cons, List.findSome?_append,
          List.findSome?_append, findSome?_armEmission hroles (hof m hm),
          ih fun m' hm' => hsub (List.mem_cons_of_mem _ hm')]
  have hgroup : groupEmission insts g = functionEmission insts g ms := by
    rw [groupEmission, hms]
  rw [hgroup, error?_functionEmission, harms ms (List.Subset.refl _), hrules, findSome?_missing?,
    firstMissing?]

/-- **The arm of a rule.**  Every rule of a group that a function is generated for has its arm in
the function. -/
theorem exists_arm (hgen : (groupEmission insts g).error? = none) (hr : r ∈ g.rules) :
    ∃ (m : Matcher) (i : Instruction) (arm : List Statement),
      Matcher.ofRule r = .ok m ∧ insts.get? m.head.inst = some i ∧
      m.statements insts i = arm.map .ok ∧
      (armCode i arm).nested.nested <:+: (groupEmission insts g).lines := by
  cases hms : matchers g with
  | error cause =>
      rw [groupEmission, hms] at hgen
      cases hgen
  | ok ms =>
      obtain ⟨m, hm, hof⟩ := exists_matcher hms hr
      have hgroup : groupEmission insts g = functionEmission insts g ms := by
        rw [groupEmission, hms]
      have harms := hgen
      rw [hgroup, error?_functionEmission, List.findSome?_eq_none_iff] at harms
      have harm : (armEmission insts m).findSome? fault? = none :=
        List.findSome?_eq_none_iff.mpr fun e he => harms e (List.mem_flatMap.mpr ⟨m, hm, he⟩)
      rw [armEmission] at harm
      cases hi : insts.get? m.head.inst with
      | none =>
          rw [hi] at harm
          cases harm
      | some i =>
          simp only [hi, Emission.findSome?_block, findSome?_map_map] at harm
          obtain ⟨arm, harm⟩ := exists_map_ok harm
          exact ⟨m, i, arm, hof, hi, harm, armCode_infix hgen hms hm hi harm⟩

/-! ### Outcomes -/

/-- The catalog knows the instruction of every application of the rule, at any depth. -/
def KnownWithin (insts : InstructionGroup) (r : Rule) : Prop :=
  ∀ d ∈ r.src.defs ++ r.dst.defs, ∀ a : Application, a.Within d.value.expr →
    ∃ i, insts.get? a.head.inst = some i

/-- The instructions of a rule with a matcher are those of all its applications. -/
theorem mem_instructions_iff (hof : Matcher.ofRule r = .ok m) {id : InstId} :
    id ∈ r.instructions ↔
      ∃ d ∈ r.src.defs ++ r.dst.defs, ∃ a : Application, a.Within d.value.expr ∧
        a.head.inst = id := by
  have hsource : ∀ d ∈ r.src.defs, ∀ a : Application, a.Within d.value.expr → a = d.value := by
    intro d hd a ha
    rcases Application.within_app.mp ha with rfl | ⟨e, he, hin⟩
    · rfl
    -- the arguments are variables, which contain no application
    · cases e with
      | var v => exact absurd hin Application.not_within_var
      | app head args => exact absurd rfl ((source_of_ofRule hof hd).2 _ he)
  rw [Rule.instructions, List.mem_append, List.mem_map, List.mem_flatMap]
  constructor
  · rintro (⟨d, hd, rfl⟩ | ⟨d, hd, hid⟩)
    · exact ⟨d, List.mem_append_left _ hd, d.value, .self, rfl⟩
    · obtain ⟨head, hhead, rfl⟩ := List.mem_map.mp hid
      obtain ⟨a, ha, rfl⟩ := Expr.mem_heads_iff.mp hhead
      exact ⟨d, List.mem_append_right _ hd, a, ha, rfl⟩
  · rintro ⟨d, hd, a, ha, rfl⟩
    rcases List.mem_append.mp hd with hd | hd
    · exact .inl ⟨d, hd, by rw [hsource d hd a ha]⟩
    · exact .inr ⟨d, hd, List.mem_map_of_mem (Expr.mem_heads_iff.mpr ⟨a, ha, rfl⟩)⟩

theorem firstMissing?_eq_none_iff (hms : matchers g = .ok ms) :
    firstMissing? insts g.rules = none ↔ ∀ r ∈ g.rules, KnownWithin insts r := by
  simp only [firstMissing?, List.find?_eq_none, List.mem_flatMap, Option.isNone_iff_eq_none]
  constructor
  · intro h r hr d hd a ha
    obtain ⟨m, -, hof⟩ := exists_matcher hms hr
    have hmem := (mem_instructions_iff hof).mpr ⟨d, hd, a, ha, rfl⟩
    exact Option.ne_none_iff_exists'.mp (h _ ⟨r, hr, hmem⟩)
  · rintro h id ⟨r, hr, hid⟩
    obtain ⟨m, -, hof⟩ := exists_matcher hms hr
    obtain ⟨d, hd, a, ha, rfl⟩ := (mem_instructions_iff hof).mp hid
    exact Option.ne_none_iff_exists'.mpr (h r hr d hd a ha)

/-- A group has a function when its rules are usable and their instructions known. -/
theorem error?_eq_none_iff (hbuilt : ∀ r ∈ g.rules, r.Built) :
    (groupEmission insts g).error? = none ↔
      (∀ n, ¬ Unusable g.rules n) ∧ ∀ r ∈ g.rules, KnownWithin insts r := by
  cases hms : matchers g with
  | error cause =>
      have hgroup : (groupEmission insts g).error? = some cause := by
        rw [groupEmission, hms]
        rfl
      rw [hgroup]
      refine ⟨fun h => absurd h (Option.some_ne_none cause), fun h => ?_⟩
      obtain ⟨-, ⟨n, hn⟩ | ⟨n, r', d, -, -, hmem⟩⟩ := of_matchersFrom_eq_error hms
      · exact absurd hn (h.1 n)
      · cases hmem
  | ok ms =>
      have husable : ∀ n, ¬ Unusable g.rules n := (usable_of_matchersFrom hms).1
      rw [error?_groupEmission hbuilt hms, Option.map_eq_none_iff, firstMissing?_eq_none_iff hms]
      exact (and_iff_right husable).symm

/-- What generating a group leaves: the page it was given, the page it leaves, and the outcome. -/
structure Accounted (insts : InstructionGroup) (g : RuleGroup) (p p' : Page)
    (outcome : Except Error Unit) : Prop where
  /-- The group is refused when one of its rules is unusable, and only then. -/
  refused_iff : (∃ reason, outcome = .error (.codeGeneration reason)) ↔ ∃ n, Unusable g.rules n
  /-- Then nothing is written. -/
  untouched : (∃ n, Unusable g.rules n) → p' = p
  /-- Otherwise it breaks off at the first instruction that is unknown. -/
  completed : (∀ n, ¬ Unusable g.rules n) → outcome =
    match firstMissing? insts g.rules with
    | none => .ok ()
    | some id => .error (.unknownInstruction id.index)
  ok_iff : outcome = .ok () ↔
    (∀ n, ¬ Unusable g.rules n) ∧ ∀ r ∈ g.rules, KnownWithin insts r
  roles_known : ∀ name, outcome ≠ .error (.unknownVariable name)
  calls_hoisted : ∀ c, outcome ≠ .error (notHoisted c)
  lines_kept : p.lines <+: p'.lines
  depth_kept : p'.depth = p.depth

/-- A refusal does not say that a call was not hoisted. -/
theorem refusal_ne_notHoisted (r : Rule) (reason : String) (c : Call) :
    refusal r reason ≠ notHoisted c := by
  intro h
  have htext := congrArg String.toList (Error.codeGeneration.inj h)
  simp at htext

/-- **A group is generated or refused.**  The two ways to fail, for every group of rules that were
built, every catalog and every page: an unusable rule, before anything is written, and an unknown
instruction, at its place.  The lines of the page before it stay, and so does its depth. -/
theorem group_generated_or_refused (insts : InstructionGroup) (g : RuleGroup) (p : Page)
    (hbuilt : ∀ r ∈ g.rules, r.Built) :
    Accounted insts g p (p.emit (groupEmission insts g)).1 (p.emit (groupEmission insts g)).2 := by
  have hlines : p.lines <+: (p.emit (groupEmission insts g)).1.lines := by
    rw [Page.lines_emit]
    exact List.prefix_append _ _
  cases hms : matchers g with
  | error cause =>
      obtain ⟨⟨r, reason, rfl⟩, hplace⟩ := of_matchersFrom_eq_error hms
      have hunusable : ∃ n, Unusable g.rules n := by
        rcases hplace with h | ⟨n, r', d, -, -, hmem⟩
        · exact h
        · cases hmem
      have hgroup : p.emit (groupEmission insts g) = (p, .error (refusal r reason)) := by
        rw [groupEmission, hms, Page.emit_error]
      rw [hgroup]
      exact {
        refused_iff := ⟨fun _ => hunusable, fun _ => ⟨_, rfl⟩⟩
        untouched := fun _ => rfl
        completed := fun h => absurd hunusable (not_exists.mpr h)
        ok_iff := by
          refine ⟨?_, fun h => absurd hunusable (not_exists.mpr h.1)⟩
          rintro ⟨⟩
        roles_known := fun _ h => by cases h
        calls_hoisted := fun c h => refusal_ne_notHoisted r reason c (Except.error.inj h)
        lines_kept := List.prefix_rfl
        depth_kept := rfl }
  | ok ms =>
      obtain ⟨husable, -⟩ := usable_of_matchersFrom hms
      have hnone : ¬ ∃ n, Unusable g.rules n := not_exists.mpr husable
      have hknown : firstMissing? insts g.rules = none ↔ ∀ r ∈ g.rules, KnownWithin insts r :=
        firstMissing?_eq_none_iff hms
      have houtcome : (p.emit (groupEmission insts g)).2 =
          match firstMissing? insts g.rules with
          | none => .ok ()
          | some id => .error (.unknownInstruction id.index) := by
        rw [Page.emit, error?_groupEmission hbuilt hms]
        cases firstMissing? insts g.rules <;> rfl
      rw [houtcome]
      cases hmissing : firstMissing? insts g.rules with
      | none =>
          exact {
            refused_iff := by
              refine ⟨?_, fun h => absurd h hnone⟩
              rintro ⟨_, ⟨⟩⟩
            untouched := fun h => absurd h hnone
            completed := fun _ => by rw [hmissing]
            ok_iff := ⟨fun _ => ⟨husable, hknown.mp hmissing⟩, fun _ => rfl⟩
            roles_known := fun _ h => by cases h
            calls_hoisted := fun _ h => by cases h
            lines_kept := hlines
            depth_kept := Page.depth_emit p _ }
      | some id =>
          have hunknown : ¬ ∀ r ∈ g.rules, KnownWithin insts r := by
            rw [← hknown, hmissing]
            exact Option.some_ne_none id
          exact {
            refused_iff := by
              refine ⟨?_, fun h => absurd h hnone⟩
              rintro ⟨_, ⟨⟩⟩
            untouched := fun h => absurd h hnone
            completed := fun _ => by rw [hmissing]
            ok_iff := by
              refine ⟨?_, fun h => absurd h.2 hunknown⟩
              rintro ⟨⟩
            roles_known := fun _ h => by cases h
            calls_hoisted := fun _ h => by cases h
            lines_kept := hlines
            depth_kept := Page.depth_emit p _ }

/-- The rule `a << band(x, y) => a << band_not(x, bnot(y))`. -/
def doubleNegation : Rule where
  site := "expand"
  src := ⟨.source, [⟨[Shared.a], ⟨⟨⟨12⟩, "band", []⟩, [.var Shared.x, .var Shared.y]⟩⟩]⟩
  dst := ⟨.destination, [⟨[Shared.a], ⟨⟨⟨16⟩, "band_not", []⟩,
    [.var Shared.x, .app ⟨⟨15⟩, "bnot", []⟩ [.var Shared.y]]⟩⟩]⟩
  inputs := [Shared.x, Shared.y]
  roles := ⟨[(Shared.a, .output), (Shared.x, .input), (Shared.y, .input)]⟩

theorem doubleNegation_accepted : doubleNegation.Accepted Shared.group.catalog := by
  have hvars : ∀ e ∈ [Expr.var Shared.x, .var Shared.y], e.Made Shared.group.catalog := by
    simp [Expr.Made.var]
  have hvar : ∀ e ∈ [Expr.var Shared.y], e.Made Shared.group.catalog := by
    simp [Expr.Made.var]
  have hnegation : (Expr.app ⟨⟨15⟩, "bnot", []⟩ [.var Shared.y]).Made Shared.group.catalog :=
    .unbound rfl rfl rfl hvar
  have hnested : ∀ e ∈ [Expr.var Shared.x, .app ⟨⟨15⟩, "bnot", []⟩ [.var Shared.y]],
      e.Made Shared.group.catalog := by
    simp [Expr.Made.var, hnegation]
  have hsource : (Expr.app ⟨⟨12⟩, "band", []⟩ [.var Shared.x, .var Shared.y]).Made
      Shared.group.catalog :=
    .unbound rfl rfl rfl hvars
  have hdestination : (Expr.app ⟨⟨16⟩, "band_not", []⟩
      [.var Shared.x, .app ⟨⟨15⟩, "bnot", []⟩ [.var Shared.y]]).Made Shared.group.catalog :=
    .unbound rfl rfl rfl hnested
  exact Rule.accepted_of_close rfl rfl hsource hdestination (by decide) (by decide) rfl

/-- A catalog of the first 15 shared instructions knows `band`, but neither `bnot` nor `band_not`:
the arm of `doubleNegation` breaks off at `bnot`, whose call comes first, and the line of the page
before it stays. -/
theorem doubleNegation_breaks_off :
    ∃ p' : Page, (Page.mk 2 ["// rules"]).emit (groupEmission
        ⟨"base", "", Shared.group.instructions.take 15⟩ ⟨"expand", "", [doubleNegation]⟩) =
          (p', .error (.unknownInstruction 15)) ∧
      ["// rules"] <+: p'.lines ∧ p'.lines.length = 14 ∧ p'.depth = 2 := by
  have haccounted := group_generated_or_refused ⟨"base", "", Shared.group.instructions.take 15⟩
    ⟨"expand", "", [doubleNegation]⟩ ⟨2, ["// rules"]⟩
    (by simpa using doubleNegation_accepted.built)
  have hmatchers : matchers ⟨"expand", "", [doubleNegation]⟩ = .ok [⟨doubleNegation, [Shared.a],
    ⟨⟨12⟩, "band", []⟩, [Shared.x, Shared.y]⟩] := rfl
  have hmissing : firstMissing? ⟨"base", "", Shared.group.instructions.take 15⟩
    [doubleNegation] = some ⟨15⟩ := rfl
  have houtcome := haccounted.completed (usable_of_matchersFrom hmatchers).1
  rw [hmissing] at houtcome
  exact ⟨_, Prod.ext rfl houtcome, haccounted.lines_kept, rfl, haccounted.depth_kept⟩

end Isaforge.Legalizer
