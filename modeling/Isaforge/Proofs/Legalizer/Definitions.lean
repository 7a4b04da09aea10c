import Isaforge.Proofs.Legalizer.Calls

/-!
# Definitions — running the definitions of a destination

A definition is built by the calls hoisted out of it and its own call, which binds its outputs.
Those that are reused are outputs of the source as well: the names stand for the detached results
of the matched instruction until then, and the results get the values (`Builds`).

`run_definition` is about one definition, and `run_replacement` about one whose call replaces the
matched instruction instead.  `run_definitions` is about a sequence in which every definition uses
only what came before; what one definition keeps of the state is what the next ones rely on
(`Builds.cons`).
-/

namespace Isaforge.Legalizer

section

variable {V σ : Type} [Inhabited V] {insts : InstructionGroup} {type : ValueType}
  {I : Interpretation V} {k : Instance V} {typed : Prop} {next : Supply σ} {vars : List Var}
  {ρ : Var → V} {d : Definition} {ds : List Definition} {r : Rule} {outputs : List Var}
  {st st₁ st' : State V}

/-- What building definitions does, where `outputs` are those of the source: it makes their calls,
binds their outputs to their values, and gives the values to the results that are reused. -/
structure Builds (insts : InstructionGroup) (I : Interpretation V) (type : ValueType)
    (vars : List Var) (r : Rule) (outputs : List Var) (ρ : Var → V) (ds : List Definition)
    (st st' : State V) : Prop where
  log : st'.log = st.log ++
    (Definition.callsOf (operations insts I type).semantics ρ ds).map (performedHead insts type)
  values : ∀ v ∈ vars, (v ∉ Definition.outputsOf ds → st.value? v.name = some (ρ v)) →
    st'.value? v.name = some (Definition.runAll (operations insts I type).semantics ρ ds v)
  results : ∀ v ∈ Definition.outputsOf ds, r.isOutput v →
    st'.results (outputs.idxOf v) =
      some (Definition.runAll (operations insts I type).semantics ρ ds v)
  results_kept : ∀ j, (∀ v ∈ Definition.outputsOf ds, r.isOutput v → outputs.idxOf v ≠ j) →
    st'.results j = st.results j
  names_kept : ∀ n ∈ armNames vars, n ∉ (Definition.outputsOf ds).map (·.name) →
    st'.names n = st.names n
  removed : st'.removed = st.removed

/-! ### Results -/

/-- A variable of the rule has a role, so it can be asked whether it is an output. -/
theorem expectOutput_eq_ok {v : Var} (hv : v ∈ r.roles.vars) :
    r.expectOutput v = .ok (r.isOutput v) := by
  have hrole : (r.roles.role? v).isSome := by
    obtain ⟨p, hp, rfl⟩ := List.mem_map.mp hv
    exact List.lookup_isSome_iff.mpr ⟨p, hp, beq_self_eq_true _⟩
  obtain ⟨role, hrole⟩ := Option.isSome_iff_exists.mp hrole
  simp [Rule.expectOutput, Roles.expect, hrole, Rule.isOutput, Rule.hasRole, Rule.role?,
    Except.map]

theorem resultsOf_eq_ok {vs : List Var} (hvs : vs ⊆ r.roles.vars) :
    resultsOf r vs = .ok (vs.map fun v => ⟨v.name, r.isOutput v⟩) :=
  mapM_eq_ok_map fun v hv => by rw [expectOutput_eq_ok (hvs hv)]; rfl

/-- The statement of a definition whose outputs have roles. -/
theorem defineStatement_eq (hd : d.outputs ⊆ r.roles.vars) (c : FlatCall) :
    defineStatement insts r d c = (builderCall insts c.asCall).map
      (.define (d.outputs.map fun v => ⟨v.name, r.isOutput v⟩)) := by
  rw [defineStatement, resultsOf_eq_ok hd]
  cases builderCall insts c.asCall <;> rfl

theorem defineStatement_eq_ok {c : FlatCall} {call : BuilderCall}
    (hd : d.outputs ⊆ r.roles.vars) (hcall : builderCall insts c.asCall = .ok call) :
    defineStatement insts r d c =
      .ok (.define (d.outputs.map fun v => ⟨v.name, r.isOutput v⟩) call) := by
  rw [defineStatement_eq hd, hcall]
  rfl

/-! ### Reused outputs -/

/-- The names of the reused outputs stand for the detached results. -/
def Detached (r : Rule) (outputs : List Var) (vs : List Var) (st : State V) : Prop :=
  ∀ v ∈ vs, r.isOutput v → st.names v.name = some (.result (outputs.idxOf v))

/-- The slot of an output. -/
def slotOf (r : Rule) (outputs : List Var) (v : Var) : Option Nat :=
  if r.isOutput v then some (outputs.idxOf v) else none

omit [Inhabited V] in
theorem slots_eq {vs : List Var} (h : Detached r outputs vs st) :
    (vs.map fun v => (⟨v.name, r.isOutput v⟩ : Result)).mapM st.slot? =
      some (vs.map (slotOf r outputs)) := by
  refine mapM_eq_some_of_map ?_
  rw [List.map_map, List.map_map]
  refine List.map_congr_left ?_
  intro v hv
  by_cases hout : r.isOutput v
  · simp [State.slot?, slotOf, hout, h v hv hout]
  · simp [State.slot?, slotOf, hout]

/-- A reused output has a slot of its own. -/
theorem slotOf_inj (hreused : ∀ v, r.isOutput v → v ∈ outputs) {v w : Var} (hv : r.isOutput v)
    (h : slotOf r outputs w = slotOf r outputs v) : w = v := by
  rw [slotOf, slotOf, if_pos hv] at h
  by_cases hw : r.isOutput w
  · rw [if_pos hw, Option.some.injEq] at h
    exact (List.idxOf_inj (hreused w hw)).mp h
  · rw [if_neg hw] at h
    cases h

/-- Attaching gives the result of a reused output its value. -/
theorem attach_of_isOutput (hreused : ∀ v, r.isOutput v → v ∈ outputs) (ρ : Var → V)
    (results : Nat → Option V) (zs : List V) {vs : List Var} {v : Var} (hv : v ∈ vs)
    (hout : r.isOutput v) :
    attach results (vs.map (slotOf r outputs)) zs (outputs.idxOf v) =
      some (bindAll ρ vs zs v) := by
  have hslot : slotOf r outputs v = some (outputs.idxOf v) := if_pos hout
  rw [attach, ← hslot]
  exact bindAs_map ρ _ zs (fun w _ h => slotOf_inj hreused hout h) (absurd hv)

/-- Attaching leaves the other results alone. -/
theorem attach_of_forall_ne (results : Nat → Option V) (zs : List V) {vs : List Var} {j : Nat}
    (h : ∀ v ∈ vs, r.isOutput v → outputs.idxOf v ≠ j) :
    attach results (vs.map (slotOf r outputs)) zs j = results j := by
  refine bindAs_of_notMem _ zs ?_
  intro hmem
  obtain ⟨v, hv, hslot⟩ := List.mem_map.mp hmem
  by_cases hout : r.isOutput v
  · rw [slotOf, if_pos hout] at hslot
    exact h v hv hout (Option.some.inj hslot)
  · rw [slotOf, if_neg hout] at hslot
    cases hslot

/-! ### One definition -/

/-- The statements of one definition. -/
def definitionStatements (insts : InstructionGroup) (r : Rule) (p : Definition × FlatSequence) :
    List (Except Error Statement) :=
  hoistedStatements insts p.2 ++ [defineStatement insts r p.1 p.2.top]

/-- **The statements of one definition** build it. -/
theorem run_definition (hmethods : MethodsDistinct insts) (hvars : WellNamed vars)
    (hnext : next.Avoids (armNames vars)) (hd : Buildable insts typed next vars d)
    (hroles : vars ⊆ r.roles.vars) (hdefs : d.outputs ⊆ vars)
    (hreused : ∀ v, r.isOutput v → v ∈ outputs)
    (hready : Ready k typed st) (hbound : ∀ v, d.Uses v → st.value? v.name = some (ρ v))
    (hdetached : Detached r outputs d.outputs st) (s : σ) :
    ∃ st', runEmitted insts I k st (definitionStatements insts r
        (d, ((Call.ofApplication d.value).flatten next s).1)) = some st' ∧
      Builds insts I k.type vars r outputs ρ [d] st st' := by
  obtain ⟨st₁, call, hrun, hcall, hperform, hlog, hnames, hresults, hremoved⟩ :=
    run_value (I := I) hmethods hnext hd hready hbound s
  have hready₁ : Ready k typed st₁ :=
    hready.of_names fun n hn => hnames n (mem_armNames_of_reserved hn)
  have hdetached₁ : Detached r outputs d.outputs st₁ := by
    intro v hv hout
    rw [hnames _ (mem_armNames_of_var (hdefs hv))]
    exact hdetached v hv hout
  let p := performedHead insts k.type
    (d.value.head, Expr.values (operations insts I k.type).semantics ρ d.value.args)
  let st' : State V := { st₁.made p with
    names := bindAs (fun x => some (.value x)) st₁.names (d.outputs.map (·.name)) (I p)
    results := attach st₁.results (d.outputs.map (slotOf r outputs)) (I p) }
  have hexec : exec insts I k st₁
      (.define (d.outputs.map fun v => ⟨v.name, r.isOutput v⟩) call) = some st' := by
    rw [exec, hready₁.graph, hready₁.cursor, slots_eq hdetached₁, hperform]
    simp [st', p, Function.comp_def]
  refine ⟨st', ?_, ?_⟩
  · rw [definitionStatements, runEmitted_append, hrun,
      defineStatement_eq_ok (fun v hv => hroles (hdefs hv)) hcall]
    exact (runEmitted_cons_ok st₁ _ []).trans (by rw [hexec]; rfl)
  · have hone := Definition.outputsOf_singleton d
    have hval : ∀ v ∈ vars, (v ∉ d.outputs → st₁.names v.name = some (.value (ρ v))) →
        st'.names v.name =
          some (.value (d.run (operations insts I k.type).semantics ρ v)) := by
      intro v hv hb
      exact bindAs_map ρ st₁.names (I p) (fun w hw h => hvars.injective w (hdefs hw) v hv h) hb
    refine ⟨?_, ?_, ?_, ?_, ?_, hremoved⟩
    · rw [Definition.callsOf_singleton]
      exact hlog
    · intro v hv hb
      rw [hone] at hb
      refine value?_eq_some_iff.mpr (hval v hv fun hv' => ?_)
      rw [hnames _ (mem_armNames_of_var hv)]
      exact value?_eq_some_iff.mp (hb hv')
    · intro v hv hout
      rw [hone] at hv
      exact attach_of_isOutput hreused ρ st₁.results (I p) hv hout
    · intro j hj
      rw [hone] at hj
      rw [← hresults]
      exact attach_of_forall_ne st₁.results (I p) hj
    · intro n hn hnew
      rw [hone] at hnew
      have hkept : st'.names n = st₁.names n := bindAs_of_notMem _ (I p) hnew
      rw [hkept, hnames n hn]

/-! ### Replacing in place -/

/-- The statements of a definition whose call replaces the matched instruction. -/
def replaceStatements (insts : InstructionGroup) (calls : FlatSequence) :
    List (Except Error Statement) :=
  hoistedStatements insts calls ++ [(builderCall insts calls.top.asCall).map .replace]

/-- What replacing the matched instruction by the call of a definition does: it makes the calls of
the definition, and gives the results the values of its outputs. -/
structure Replaces (insts : InstructionGroup) (I : Interpretation V) (type : ValueType)
    (vars : List Var) (ρ : Var → V) (d : Definition) (st st' : State V) : Prop where
  log : st'.log = st.log ++
    (d.value.expr.calls (operations insts I type).semantics ρ).map (performedHead insts type)
  results : ∀ j, st'.results j =
    some ((d.results (operations insts I type).semantics ρ).getD j default)
  names_kept : ∀ n ∈ armNames vars, st'.names n = st.names n
  removed : st'.removed = st.removed

/-- **The statements of a definition that replaces the matched instruction.** -/
theorem run_replacement (hmethods : MethodsDistinct insts) (hnext : next.Avoids (armNames vars))
    (hd : Buildable insts typed next vars d) (hready : Ready k typed st)
    (hbound : ∀ v, d.Uses v → st.value? v.name = some (ρ v)) (s : σ) :
    ∃ st', runEmitted insts I k st (replaceStatements insts
        ((Call.ofApplication d.value).flatten next s).1) = some st' ∧
      Replaces insts I k.type vars ρ d st st' := by
  obtain ⟨st₁, call, hrun, hcall, hperform, hlog, hnames, -, hremoved⟩ :=
    run_value (I := I) hmethods hnext hd hready hbound s
  have hready₁ : Ready k typed st₁ :=
    hready.of_names fun n hn => hnames n (mem_armNames_of_reserved hn)
  let p := performedHead insts k.type
    (d.value.head, Expr.values (operations insts I k.type).semantics ρ d.value.args)
  let st' : State V :=
    { st₁.made p with results := fun index => some ((I p).getD index default) }
  have hexec : exec insts I k st₁ (.replace call) = some st' := by
    rw [exec, hready₁.graph, hready₁.matched, hperform]
    rfl
  refine ⟨st', ?_, hlog, fun _ => rfl, hnames, hremoved⟩
  rw [replaceStatements, runEmitted_append, hrun, hcall]
  exact (runEmitted_cons_ok st₁ _ []).trans (by rw [hexec]; rfl)

/-! ### Sequences of definitions -/

theorem Builds.nil (st : State V) : Builds insts I type vars r outputs ρ [] st st where
  log := (List.append_nil _).symm
  values := fun _ _ h => h List.not_mem_nil
  results := fun _ h => absurd h List.not_mem_nil
  results_kept := fun _ _ => rfl
  names_kept := fun _ _ _ => rfl
  removed := rfl

theorem Builds.cons (hreused : ∀ v, r.isOutput v → v ∈ outputs)
    (h : Builds insts I type vars r outputs ρ [d] st st₁)
    (h' : Builds insts I type vars r outputs (d.run (operations insts I type).semantics ρ) ds
      st₁ st') :
    Builds insts I type vars r outputs ρ (d :: ds) st st' := by
  have hone := Definition.outputsOf_singleton d
  have hcons := Definition.outputsOf_cons d ds
  refine ⟨?_, ?_, ?_, ?_, ?_, h'.removed.trans h.removed⟩
  · rw [h'.log, h.log, Definition.callsOf_singleton, Definition.callsOf, List.map_append,
      List.append_assoc]
  · intro v hv hb
    rw [hcons, List.mem_append, not_or] at hb
    refine h'.values v hv ?_
    intro hlater
    exact h.values v hv fun hhere => hb ⟨hone ▸ hhere, hlater⟩
  · intro v hv hout
    rw [hcons, List.mem_append] at hv
    by_cases hlater : v ∈ Definition.outputsOf ds
    · exact h'.results v hlater hout
    -- the last definition of the output is here, so nothing after it attaches to its result
    · have hhere : v ∈ d.outputs := hv.resolve_right hlater
      have hkept : st'.results (outputs.idxOf v) = st₁.results (outputs.idxOf v) := by
        refine h'.results_kept _ ?_
        intro w hw hwout heq
        exact hlater ((List.idxOf_inj (hreused w hwout)).mp heq ▸ hw)
      have hlast : Definition.runAll (operations insts I type).semantics ρ (d :: ds) v =
          d.run (operations insts I type).semantics ρ v := Definition.runAll_of_notMem _ hlater
      rw [hkept, h.results v (hone.symm ▸ hhere) hout, hlast]
      rfl
  · intro j hj
    rw [hcons] at hj
    rw [h'.results_kept j fun w hw => hj w (List.mem_append_right _ hw),
      h.results_kept j fun w hw => hj w (List.mem_append_left _ (hone ▸ hw))]
  · intro n hn hnew
    rw [hcons, List.map_append, List.mem_append, not_or] at hnew
    rw [h'.names_kept n hn hnew.2, h.names_kept n hn (hone.symm ▸ hnew.1)]

/-- **The statements of definitions** build them one after the other, when each uses only what
came before. -/
theorem run_definitions (hmethods : MethodsDistinct insts) (hvars : WellNamed vars)
    (hnext : next.Avoids (armNames vars)) (hroles : vars ⊆ r.roles.vars)
    (hreused : ∀ v, r.isOutput v → v ∈ outputs)
    {earlier : List Var} (hds : ∀ d ∈ ds, Buildable insts typed next vars d)
    (hdefs : Definition.outputsOf ds ⊆ vars) (hnd : (Definition.outputsOf ds).Nodup)
    (hscope : Definition.openUses earlier ds = []) (hearlier : earlier ⊆ vars)
    (hready : Ready k typed st) (hbound : ∀ v ∈ earlier, st.value? v.name = some (ρ v))
    (hdetached : Detached r outputs (Definition.outputsOf ds) st) (s : σ) :
    ∃ st', runEmitted insts I k st
        ((Matcher.flattenAll next ds s).flatMap (definitionStatements insts r)) = some st' ∧
      Builds insts I k.type vars r outputs ρ ds st st' := by
  induction ds generalizing earlier st ρ s with
  | nil => exact ⟨st, rfl, .nil st⟩
  | cons d ds ih =>
      have hone := Definition.outputsOf_singleton d
      have hcons := Definition.outputsOf_cons d ds
      rw [hcons] at hdefs hdetached
      rw [hcons, List.nodup_append'] at hnd
      have huses : ∀ v, d.Uses v → v ∈ earlier :=
        fun v hv => Definition.mem_of_openUses_eq_nil hscope hv
      rw [Definition.openUses, List.append_eq_nil_iff] at hscope
      obtain ⟨st₁, hrun₁, h₁⟩ := run_definition (I := I) hmethods hvars hnext
        (hds d List.mem_cons_self) hroles (fun v hv => hdefs (List.mem_append_left _ hv)) hreused
        hready
        (fun v hv => hbound v (huses v hv))
        (fun v hv => hdetached v (List.mem_append_left _ hv)) s
      -- what the next definitions rely on is kept: no output has a reserved name, and an output
      -- that is bound later has another name
      have hready₁ : Ready k typed st₁ := by
        refine hready.of_names fun n hn => h₁.names_kept n (mem_armNames_of_reserved hn) ?_
        rw [hone, List.mem_map]
        rintro ⟨v, hv, rfl⟩
        exact hvars.unreserved v (hdefs (List.mem_append_left _ hv)) hn
      have hearlier₁ : earlier ++ d.outputs ⊆ vars :=
        List.append_subset.mpr ⟨hearlier, fun v hv => hdefs (List.mem_append_left _ hv)⟩
      have hbound₁ : ∀ v ∈ earlier ++ d.outputs,
          st₁.value? v.name = some (d.run (operations insts I k.type).semantics ρ v) := by
        intro v hv
        refine h₁.values v (hearlier₁ hv) ?_
        intro hnot
        exact hbound v ((List.mem_append.mp hv).resolve_right (hone ▸ hnot))
      have hdetached₁ : Detached r outputs (Definition.outputsOf ds) st₁ := by
        intro v hv hout
        have hvvars : v ∈ vars := hdefs (List.mem_append_right _ hv)
        rw [h₁.names_kept _ (mem_armNames_of_var hvvars)]
        · exact hdetached v (List.mem_append_right _ hv) hout
        · rw [hone, List.mem_map]
          rintro ⟨w, hw, hname⟩
          obtain rfl := hvars.injective w (hdefs (List.mem_append_left _ hw)) v hvvars hname
          exact hnd.2.2 hw hv
      obtain ⟨st', hrun', h'⟩ := ih (fun d' hd' => hds d' (List.mem_cons_of_mem _ hd'))
        (fun v hv => hdefs (List.mem_append_right _ hv)) hnd.2.1 hscope.2 hearlier₁ hready₁
        hbound₁ hdetached₁
        ((Call.ofApplication d.value).flatten next s).2
      refine ⟨st', ?_, h₁.cons hreused h'⟩
      rw [Matcher.flattenAll, List.flatMap_cons, runEmitted_append, hrun₁]
      exact hrun'

end

end Isaforge.Legalizer
