import Isaforge.Proofs.Legalizer.Definitions
import Isaforge.Proofs.Legalizer.Opening

/-!
# Arm — a whole arm computes the destination

An arm opens, builds the definitions of the destination, and closes.  `Matcher.Fits` is what it
takes for that to go through; `Computes` is what it does, compared with evaluating the definitions
of the destination one after the other.

There are two ways to build.  Either every definition is inserted, and the outputs of the rule are
attached to the detached results (`run_inserting`), or the last one replaces the matched
instruction in place, and then no earlier definition has an output of the rule (`run_replacing`).
`run_arm` puts the parts together.
-/

namespace Isaforge.Legalizer

/-! ### The parts of an arm -/

/-- A call of the destination is given the controlling type of the matched instruction. -/
def Matcher.typed (insts : InstructionGroup) (m : Matcher) : Bool :=
  (m.destination.flatMap (·.2.calls)).any (usesMatchedType insts)

/-- The statements before the calls of the destination. -/
def Matcher.opening (insts : InstructionGroup) (m : Matcher) (i : Instruction) : List Statement :=
  [.remark ("Unwrap " ++ m.sourceText)] ++ (if m.typed insts then [.bindType] else []) ++
    bindOperands 0 0 i.ins m.args ++ (if m.replaces then [] else detachStatements m) ++ [.gap]

/-- The statements after them. -/
def Matcher.closing (m : Matcher) : List Statement :=
  (if m.replaces then [] else [.remove]) ++ [.done]

/-- The statements of an arm, when the outputs of the source have roles. -/
theorem Matcher.statements_eq (insts : InstructionGroup) {m : Matcher} (i : Instruction)
    (houtputs : m.outputs ⊆ m.rule.roles.vars) :
    m.statements insts i = (m.opening insts i).map .ok ++
      buildStatements insts m.rule m.replaces m.destination ++ m.closing.map .ok := by
  have hresults : m.resultStatements =
      (if m.replaces then [] else detachStatements m).map .ok := by
    rw [Matcher.resultStatements, resultsOf_eq_ok houtputs, ← bindResults_eq]
    cases m.replaces <;> rfl
  simp only [Matcher.statements, hresults, Matcher.opening, Matcher.closing, Matcher.typed,
    List.map_append, List.map_singleton, List.append_assoc]
  rfl

theorem buildStatements_cons_cons (insts : InstructionGroup) (r : Rule) (replaces : Bool)
    (p q : Definition × FlatSequence) (l : List (Definition × FlatSequence)) :
    buildStatements insts r replaces (p :: q :: l) =
      definitionStatements insts r p ++ buildStatements insts r replaces (q :: l) := by
  obtain ⟨d, calls⟩ := p
  rw [buildStatements, definitionStatements]
  intro h
  cases h

theorem buildStatements_of_not (insts : InstructionGroup) (r : Rule)
    (l : List (Definition × FlatSequence)) :
    buildStatements insts r false l = l.flatMap (definitionStatements insts r) := by
  induction l with
  | nil => rfl
  | cons p l ih =>
      cases l with
      | nil => simp [buildStatements, definitionStatements]
      | cons q l =>
          rw [buildStatements_cons_cons, ih]
          rfl

/-- Only the last definition can replace the matched instruction. -/
theorem buildStatements_append (insts : InstructionGroup) (r : Rule) (replaces : Bool)
    (l : List (Definition × FlatSequence)) {l' : List (Definition × FlatSequence)}
    (h : l' ≠ []) :
    buildStatements insts r replaces (l ++ l') =
      l.flatMap (definitionStatements insts r) ++ buildStatements insts r replaces l' := by
  induction l with
  | nil => rfl
  | cons q l ih =>
      obtain ⟨q', l₁, hl⟩ := List.exists_cons_of_ne_nil (List.append_ne_nil_of_right_ne_nil l h)
      rw [List.cons_append, hl, buildStatements_cons_cons, ← hl, ih, List.flatMap_cons,
        List.append_assoc]

theorem buildStatements_replace (insts : InstructionGroup) (r : Rule)
    (l : List (Definition × FlatSequence)) (p : Definition × FlatSequence) :
    buildStatements insts r true (l ++ [p]) =
      l.flatMap (definitionStatements insts r) ++ replaceStatements insts p.2 := by
  rw [buildStatements_append insts r true l (List.cons_ne_nil p [])]
  rfl

section

variable {σ : Type} (next : Supply σ)

theorem flattenAll_cons (d : Definition) (ds : List Definition) (s : σ) :
    Matcher.flattenAll next (d :: ds) s =
      (d, ((Call.ofApplication d.value).flatten next s).1) ::
        Matcher.flattenAll next ds ((Call.ofApplication d.value).flatten next s).2 :=
  rfl

theorem flattenAll_append (ds ds' : List Definition) (s : σ) :
    ∃ s', Matcher.flattenAll next (ds ++ ds') s =
      Matcher.flattenAll next ds s ++ Matcher.flattenAll next ds' s' := by
  induction ds generalizing s with
  | nil => exact ⟨s, rfl⟩
  | cons d ds ih =>
      obtain ⟨s', h⟩ := ih ((Call.ofApplication d.value).flatten next s).2
      refine ⟨s', ?_⟩
      rw [List.cons_append, flattenAll_cons, flattenAll_cons, h, List.cons_append]

theorem mem_flattenAll {ds : List Definition} {d : Definition} (hd : d ∈ ds) (s : σ) :
    ∃ s', (d, ((Call.ofApplication d.value).flatten next s').1) ∈
      Matcher.flattenAll next ds s := by
  induction ds generalizing s with
  | nil => cases hd
  | cons d' ds ih =>
      rcases List.mem_cons.mp hd with rfl | hd
      · exact ⟨s, List.mem_cons_self⟩
      · obtain ⟨s', h⟩ := ih hd ((Call.ofApplication d'.value).flatten next s).2
        exact ⟨s', List.mem_cons_of_mem _ h⟩

theorem exists_of_mem_flattenAll {ds : List Definition} {s : σ} {p : Definition × FlatSequence}
    (h : p ∈ Matcher.flattenAll next ds s) :
    ∃ d ∈ ds, ∃ s', p = (d, ((Call.ofApplication d.value).flatten next s').1) := by
  induction ds generalizing s with
  | nil => cases h
  | cons d ds ih =>
      rcases List.mem_cons.mp h with rfl | h
      · exact ⟨d, List.mem_cons_self, s, rfl⟩
      · obtain ⟨d', hd', s', hp⟩ := ih h
        exact ⟨d', List.mem_cons_of_mem _ hd', s', hp⟩

end

/-- An arm that replaces the matched instruction does so with the last definition. -/
theorem Matcher.exists_last_of_replaces (m : Matcher) (h : m.replaces = true) :
    ∃ init last s, m.rule.dst.defs = init ++ [last] ∧ last.outputs = m.outputs ∧
      m.destination = flattenAll (Fresh.supply m.taken) init 0 ++
        [(last, ((Call.ofApplication last.value).flatten (Fresh.supply m.taken) s).1)] := by
  obtain ⟨last, hlast, houtputs⟩ : ∃ d, m.rule.dst.defs.getLast? = some d ∧
      d.outputs = m.outputs := by
    simpa [replaces, Option.any_eq_true] using h
  obtain ⟨init, hdefs⟩ := List.getLast?_eq_some_iff.mp hlast
  obtain ⟨s, hflat⟩ := flattenAll_append (Fresh.supply m.taken) init [last] 0
  refine ⟨init, last, s, hdefs, houtputs, ?_⟩
  rw [destination, hdefs, hflat]
  rfl

/-- The controlling type is bound for every call that needs it, whatever the names of hoisted
calls. -/
theorem typed_of_usesMatchedType {insts : InstructionGroup} {m : Matcher} {σ : Type}
    {next : Supply σ} {d : Definition} (hd : d ∈ m.rule.dst.defs) {s : σ} {c : FlatCall}
    (hc : c ∈ ((Call.ofApplication d.value).flatten next s).1.calls)
    (huses : usesMatchedType insts c) : m.typed insts := by
  -- the arm hoists under other names, but calls of the same operations
  obtain ⟨s', hmem⟩ := mem_flattenAll (Fresh.supply m.taken) hd 0
  have hshape : c.shape ∈
      ((Call.ofApplication d.value).flatten (Fresh.supply m.taken) s').1.calls.map (·.shape) := by
    rw [CallArg.shapes_flatten, ← CallArg.shapes_flatten next _ s]
    exact List.mem_map_of_mem hc
  obtain ⟨c', hc', hsame⟩ := List.mem_map.mp hshape
  have hop : c'.op = c.op := congrArg Prod.fst hsame
  rw [Matcher.typed, List.any_eq_true]
  refine ⟨c', List.mem_flatMap.mpr ⟨_, hmem, hc'⟩, ?_⟩
  rw [usesMatchedType, hop]
  exact huses

/-! ### What a matcher has to satisfy -/

/-- The matcher fits the catalog: its instruction is `i`, its patterns are well formed and well
scoped, its applications are known, and its variables are well named. -/
structure Matcher.Fits (insts : InstructionGroup) (m : Matcher) (i : Instruction) : Prop where
  inst : insts.get? m.head.inst = some i
  args_length : m.args.length = i.arity
  named : WellNamed m.rule.roles.vars
  args_subset : m.args ⊆ m.rule.roles.vars
  outputs_subset : m.outputs ⊆ m.rule.roles.vars
  defs_subset : Definition.outputsOf m.rule.dst.defs ⊆ m.rule.roles.vars
  uses_subset : ∀ d ∈ m.rule.dst.defs, ∀ v, d.Uses v → v ∈ m.rule.roles.vars
  args_nodup : m.args.Nodup
  outputs_nodup : m.outputs.Nodup
  defs_nodup : (Definition.outputsOf m.rule.dst.defs).Nodup
  known : ∀ d ∈ m.rule.dst.defs, ∀ a : Application, a.Within d.value.expr →
    Known insts (a.head.operation, a.args.length)
  scope : Definition.openUses m.args m.rule.dst.defs = []
  undefined : ∀ v ∈ m.args, v ∉ Definition.outputsOf m.rule.dst.defs
  output_iff : ∀ v, m.rule.isOutput v ↔
    v ∈ m.outputs ∧ v ∈ Definition.outputsOf m.rule.dst.defs

theorem Matcher.Fits.reused {insts : InstructionGroup} {m : Matcher} {i : Instruction}
    (h : m.Fits insts i) (v : Var) (hv : m.rule.isOutput v) : v ∈ m.outputs :=
  ((h.output_iff v).mp hv).1

theorem Matcher.Fits.idxOf_eq {insts : InstructionGroup} {m : Matcher} {i : Instruction}
    (h : m.Fits insts i) {j : Nat} {v : Var} (hj : m.outputs[j]? = some v) :
    m.outputs.idxOf v = j := by
  obtain ⟨hlt, rfl⟩ := List.getElem?_eq_some_iff.mp hj
  exact h.outputs_nodup.idxOf_getElem j hlt

/-- The names of the supply are new to the arm. -/
theorem avoids_armNames (m : Matcher) :
    (Fresh.supply m.taken).Avoids (armNames m.rule.roles.vars) := by
  intro s k
  refine ⟨Fresh.nodup_take m.taken s k, ?_⟩
  intro n hn
  rw [armNames, List.mem_append, not_or]
  refine ⟨Fresh.notMem_of_mem_take hn, ?_⟩
  -- the names of the supply all begin with the same letter, and no reserved name does
  intro hmem
  have hhead := Fresh.head?_of_mem_take hn
  have hreserved : ∀ n' ∈ reservedNames, n'.toList.head? ≠ some 't' := by decide
  exact hreserved n hmem hhead

theorem Matcher.Fits.buildable {insts : InstructionGroup} {m : Matcher} {i : Instruction}
    (h : m.Fits insts i) {d : Definition} (hd : d ∈ m.rule.dst.defs) :
    Buildable insts (m.typed insts) (Fresh.supply m.taken) m.rule.roles.vars d where
  known := h.known d hd
  typed := fun _ _ hc huses => typed_of_usesMatchedType hd hc huses
  uses := h.uses_subset d hd

/-! ### The opening -/

section

variable {V : Type} [Inhabited V] {insts : InstructionGroup} {I : Interpretation V}
  {m : Matcher} {i : Instruction} {type : ValueType} {xs : List V}

theorem run_trans {k : Instance V} {st st₁ st₂ : State V} {ss ss' : List Statement}
    (h : run insts I k st ss = some st₁) (h' : run insts I k st₁ ss' = some st₂) :
    run insts I k st (ss ++ ss') = some st₂ := by
  rw [run, List.foldlM_append]
  exact Option.bind_eq_some_iff.mpr ⟨st₁, h, h'⟩

theorem runEmitted_map_ok {k : Instance V} (st : State V) (ss : List Statement) :
    runEmitted insts I k st (ss.map .ok) = run insts I k st ss :=
  List.foldlM_map

omit [Inhabited V] in
theorem ready_start (k : Instance V) : Ready k False .start :=
  ⟨rfl, rfl, rfl, fun h => h.elim⟩

theorem run_typed (insts : InstructionGroup) (I : Interpretation V) (m : Matcher)
    (k : Instance V) :
    ∃ names, run insts I k .start (if m.typed insts then [.bindType] else []) =
        some { (.start : State V) with names := names } ∧
      Ready k (m.typed insts) { (.start : State V) with names := names } := by
  cases htyped : m.typed insts with
  | false =>
      exact ⟨_, rfl, (ready_start k).graph, (ready_start k).cursor, (ready_start k).matched,
        fun h => (nomatch h)⟩
  | true =>
      obtain ⟨hrun, hready⟩ := run_bindType insts I (ready_start k)
      exact ⟨_, hrun, hready.graph, hready.cursor, hready.matched, fun _ => hready.type trivial⟩

/-- **The opening** binds the operands, and the detached results when the arm does not replace the
instruction in place. -/
theorem run_opening (I : Interpretation V) (type : ValueType) (h : m.Fits insts i)
    (hxs : xs.length = i.arity) (ρ : Var → V) :
    ∃ names, run insts I ⟨type, i.ins.zip xs⟩ .start (m.opening insts i) =
        some { (.start : State V) with names := names } ∧
      Ready ⟨type, i.ins.zip xs⟩ (m.typed insts) { (.start : State V) with names := names } ∧
      (∀ v ∈ m.args, names v.name = some (.value (bindAll ρ m.args xs v))) ∧
      (m.replaces = false → ∀ v, m.rule.isOutput v →
        names v.name = some (.result (m.outputs.idxOf v))) := by
  let k : Instance V := ⟨type, i.ins.zip xs⟩
  obtain ⟨names₁, hrun₁, hready₁⟩ := run_typed insts I m k
  let names₂ := bindAs (fun x => some (.value x)) names₁ (m.args.map (·.name)) xs
  have hrun₂ := run_bindOperands insts I [] h.args_length hxs rfl
    (fun v hv => h.named.unreserved v (h.args_subset hv)) hready₁
  have hargs₂ : ∀ v ∈ m.args, names₂ v.name = some (.value (bindAll ρ m.args xs v)) :=
    fun v hv => bindAs_map ρ names₁ xs
      (fun w hw => h.named.injective w (h.args_subset hw) v (h.args_subset hv)) (absurd hv)
  have hready₂ : Ready k (m.typed insts) { (.start : State V) with names := names₂ } := by
    refine hready₁.of_names fun n hn => bindAs_of_notMem _ xs ?_
    intro hmem
    obtain ⟨v, hv, rfl⟩ := List.mem_map.mp hmem
    exact h.named.unreserved v (h.args_subset hv) hn
  obtain ⟨names₃, hrun₃, hresults₃, hkept₃⟩ : ∃ names₃,
      run insts I k { (.start : State V) with names := names₂ }
          (if m.replaces then [] else detachStatements m) =
        some { (.start : State V) with names := names₃ } ∧
      (m.replaces = false → ∀ v, m.rule.isOutput v →
        names₃ v.name = some (.result (m.outputs.idxOf v))) ∧
      ∀ n, n ≠ Builtin.detached.name → (∀ v ∈ m.outputs, m.rule.isOutput v → v.name ≠ n) →
        names₃ n = names₂ n := by
    cases hreplaces : m.replaces with
    | true => exact ⟨names₂, rfl, fun hno => (nomatch hno), fun _ _ _ => rfl⟩
    | false =>
        obtain ⟨names₃, hrun₃, hresults₃, hkept₃⟩ :=
          run_bindResults insts I h.named h.outputs_subset h.outputs_nodup hready₂
        exact ⟨names₃, hrun₃, fun _ v hv => hresults₃ v (h.reused v hv) hv, hkept₃⟩
  refine ⟨names₃, ?_, ?_, ?_, hresults₃⟩
  · have hremark : run insts I k .start [.remark ("Unwrap " ++ m.sourceText)] = some .start := rfl
    exact run_trans (run_trans (run_trans (run_trans hremark hrun₁) hrun₂) hrun₃) rfl
  · refine hready₂.of_names_but_detached ?_
    intro n hn hne
    exact hkept₃ n hne fun v hv _ hname =>
      h.named.unreserved v (h.outputs_subset hv) (hname ▸ hn)
  · intro v hv
    have hvvars := h.args_subset hv
    rw [hkept₃, hargs₂ v hv]
    · exact fun hname => h.named.unreserved v hvvars
        (hname ▸ Builtin.name_mem_reservedNames .detached)
    · intro w hw hout hname
      obtain rfl := h.named.injective w (h.outputs_subset hw) v hvvars hname
      exact h.undefined w hv ((h.output_iff w).mp hout).2

/-! ### The calls of the destination -/

/-- What the calls of an arm do: they are those of the destination, in order; each variable it
defines is bound to its value, unless its definition replaces the matched instruction; and each
result of the matched instruction that the destination defines again has its value. -/
structure Computes (insts : InstructionGroup) (I : Interpretation V) (type : ValueType)
    (m : Matcher) (ρ : Var → V) (st st' : State V) : Prop where
  log : st'.log = st.log ++ (Definition.callsOf (operations insts I type).semantics ρ
    m.rule.dst.defs).map (performedHead insts type)
  values : ∀ v ∈ Definition.outputsOf m.rule.dst.defs, (m.replaces → v ∉ m.outputs) →
    st'.value? v.name =
      some (Definition.runAll (operations insts I type).semantics ρ m.rule.dst.defs v)
  results : ∀ j v, m.outputs[j]? = some v → v ∈ Definition.outputsOf m.rule.dst.defs →
    st'.results j =
      some (Definition.runAll (operations insts I type).semantics ρ m.rule.dst.defs v)

variable {k : Instance V} {st : State V} {ρ : Var → V}

theorem Builds.ready {ds : List Definition} {st' : State V} (h : m.Fits insts i)
    (hsub : ds ⊆ m.rule.dst.defs) (hready : Ready k (m.typed insts) st)
    (hbuilds : Builds insts I k.type m.rule.roles.vars m.rule m.outputs ρ ds st st') :
    Ready k (m.typed insts) st' := by
  refine hready.of_names fun n hn => hbuilds.names_kept n (mem_armNames_of_reserved hn) ?_
  intro hmem
  obtain ⟨v, hv, rfl⟩ := List.mem_map.mp hmem
  obtain ⟨d, hd, hvd⟩ := Definition.mem_outputsOf.mp hv
  have hdst : v ∈ Definition.outputsOf m.rule.dst.defs :=
    Definition.mem_outputsOf.mpr ⟨d, hsub hd, hvd⟩
  exact h.named.unreserved v (h.defs_subset hdst) hn

/-- The calls of an arm that does not replace the matched instruction in place. -/
theorem run_inserting (h : m.Fits insts i) (hmethods : MethodsDistinct insts)
    (hready : Ready k (m.typed insts) st)
    (hbound : ∀ v ∈ m.args, st.names v.name = some (.value (ρ v)))
    (hdetached : ∀ v, m.rule.isOutput v → st.names v.name = some (.result (m.outputs.idxOf v)))
    (hreplaces : m.replaces = false) :
    ∃ st', runEmitted insts I k st (buildStatements insts m.rule m.replaces m.destination) =
        some st' ∧ Computes insts I k.type m ρ st st' ∧ Ready k (m.typed insts) st' ∧
      st'.removed = st.removed := by
  obtain ⟨st', hrun, hbuilds⟩ := run_definitions (I := I) hmethods h.named (avoids_armNames m)
    (List.Subset.refl _) h.reused (fun d hd => h.buildable hd) h.defs_subset h.defs_nodup h.scope
    h.args_subset hready
    (fun v hv => value?_eq_some_iff.mpr (hbound v hv)) (fun v _ hout => hdetached v hout) 0
  refine ⟨st', ?_, ⟨hbuilds.log, ?_, ?_⟩, hbuilds.ready h (List.Subset.refl _) hready,
    hbuilds.removed⟩
  · rw [hreplaces, buildStatements_of_not]
    exact hrun
  · intro v hv _
    exact hbuilds.values v (h.defs_subset hv) (absurd hv)
  · intro j v hj hv
    have hvout : m.rule.isOutput v := (h.output_iff v).mpr ⟨List.mem_of_getElem? hj, hv⟩
    rw [← h.idxOf_eq hj]
    exact hbuilds.results v hv hvout

/-- The calls of an arm that replaces the matched instruction in place. -/
theorem run_replacing (h : m.Fits insts i) (hmethods : MethodsDistinct insts)
    (hready : Ready k (m.typed insts) st)
    (hbound : ∀ v ∈ m.args, st.names v.name = some (.value (ρ v)))
    (hreplaces : m.replaces = true) :
    ∃ st', runEmitted insts I k st (buildStatements insts m.rule m.replaces m.destination) =
        some st' ∧ Computes insts I k.type m ρ st st' ∧ Ready k (m.typed insts) st' ∧
      st'.removed = st.removed := by
  obtain ⟨init, last, s, hdefs, houtputs, hdestination⟩ := m.exists_last_of_replaces hreplaces
  have hmem : last ∈ m.rule.dst.defs := by simp [hdefs]
  have hsub : init ⊆ m.rule.dst.defs := by simp [hdefs]
  have hout : Definition.outputsOf m.rule.dst.defs = Definition.outputsOf init ++ m.outputs := by
    rw [hdefs, Definition.outputsOf_append, Definition.outputsOf_singleton, houtputs]
  have hvars : Definition.outputsOf init ⊆ m.rule.roles.vars :=
    fun v hv => h.defs_subset (hout ▸ List.mem_append_left _ hv)
  have hnd := h.defs_nodup
  rw [hout, List.nodup_append'] at hnd
  obtain ⟨hinit, -, hdisjoint⟩ := hnd
  have hscope := h.scope
  rw [hdefs, Definition.openUses_append, List.append_eq_nil_iff] at hscope
  -- no output of the rule is defined before the last definition
  obtain ⟨st₁, hrun₁, hbuilds⟩ := run_definitions (I := I) hmethods h.named (avoids_armNames m)
    (List.Subset.refl _) h.reused (fun d hd => h.buildable (hsub hd)) hvars hinit hscope.1
    h.args_subset hready
    (fun v hv => value?_eq_some_iff.mpr (hbound v hv))
    (fun v hv hvout => absurd (h.reused v hvout) (hdisjoint hv)) 0
  have hready₁ : Ready k (m.typed insts) st₁ := hbuilds.ready h hsub hready
  have hbound₁ : ∀ v, last.Uses v → st₁.value? v.name =
      some (Definition.runAll (operations insts I k.type).semantics ρ init v) := by
    intro v hv
    have hearlier := Definition.mem_of_openUses_eq_nil hscope.2 hv
    refine hbuilds.values v (h.uses_subset last hmem v hv) ?_
    intro hnot
    exact value?_eq_some_iff.mpr (hbound v ((List.mem_append.mp hearlier).resolve_right hnot))
  obtain ⟨st₂, hrun₂, hreplaced⟩ := run_replacement (I := I) hmethods (avoids_armNames m)
    (h.buildable hmem) hready₁ hbound₁ s
  refine ⟨st₂, ?_, ⟨?_, ?_, ?_⟩, ?_, hreplaced.removed.trans hbuilds.removed⟩
  · rw [hreplaces, hdestination, buildStatements_replace, runEmitted_append, hrun₁]
    exact hrun₂
  · have hcalls : Definition.callsOf (operations insts I k.type).semantics ρ m.rule.dst.defs =
        Definition.callsOf (operations insts I k.type).semantics ρ init ++
          last.value.expr.calls (operations insts I k.type).semantics
            (Definition.runAll (operations insts I k.type).semantics ρ init) := by
      rw [hdefs, Definition.callsOf_append, Definition.callsOf_singleton]
    rw [hcalls, List.map_append, ← List.append_assoc, ← hbuilds.log]
    exact hreplaced.log
  · intro v hv hnot
    have hvinit : v ∈ Definition.outputsOf init := by
      rw [hout] at hv
      exact (List.mem_append.mp hv).resolve_right (hnot hreplaces)
    have hvlast : v ∉ Definition.outputsOf [last] := by
      rw [Definition.outputsOf_singleton, houtputs]
      exact hdisjoint hvinit
    rw [hdefs, Definition.runAll_append, Definition.runAll_of_notMem _ hvlast]
    refine value?_eq_some_iff.mpr ?_
    rw [hreplaced.names_kept _ (mem_armNames_of_var (hvars hvinit))]
    exact value?_eq_some_iff.mp (hbuilds.values v (hvars hvinit) (absurd hvinit))
  · intro j v hj _
    have hvalue : Definition.runAll (operations insts I k.type).semantics ρ m.rule.dst.defs v =
        (last.results (operations insts I k.type).semantics
          (Definition.runAll (operations insts I k.type).semantics ρ init)).getD j default := by
      rw [hdefs, Definition.runAll_append]
      exact bindAs_of_nodup _ _ (houtputs ▸ h.outputs_nodup) (houtputs ▸ hj)
    rw [hreplaced.results, hvalue]
  · exact hready₁.of_names fun n hn => hreplaced.names_kept n (mem_armNames_of_reserved hn)

/-! ### The whole arm -/

/-- **An arm computes the destination**, from the operands of the matched instruction. -/
theorem run_arm (I : Interpretation V) (type : ValueType) (h : m.Fits insts i)
    (hmethods : MethodsDistinct insts) (hxs : xs.length = i.arity) (ρ : Var → V) :
    ∃ st', runEmitted insts I ⟨type, i.ins.zip xs⟩ .start (m.statements insts i) = some st' ∧
      Computes insts I type m (bindAll ρ m.args xs) .start st' ∧ st'.removed = !m.replaces := by
  obtain ⟨names, hrun, hready, hargs, hdetached⟩ := run_opening I type h hxs ρ
  obtain ⟨st₁, hrun₁, hcomputes, hready₁, hremoved⟩ : ∃ st₁,
      runEmitted insts I ⟨type, i.ins.zip xs⟩ { (.start : State V) with names := names }
        (buildStatements insts m.rule m.replaces m.destination) = some st₁ ∧
      Computes insts I type m (bindAll ρ m.args xs) { (.start : State V) with names := names } st₁ ∧
      Ready ⟨type, i.ins.zip xs⟩ (m.typed insts) st₁ ∧ st₁.removed = false := by
    by_cases hreplaces : m.replaces
    · exact run_replacing h hmethods hready hargs hreplaces
    · have hno : m.replaces = false := by simpa using hreplaces
      exact run_inserting h hmethods hready hargs (hdetached hno) hno
  let st' : State V := { st₁ with removed := !m.replaces }
  have hclosing : run insts I ⟨type, i.ins.zip xs⟩ st₁ m.closing = some st' := by
    by_cases hreplaces : m.replaces
    · simp [Matcher.closing, hreplaces, run, exec, st', ← hremoved]
    · simp [Matcher.closing, hreplaces, run, exec, st', hready₁.cursor, hready₁.matched]
  refine ⟨st', ?_, ⟨hcomputes.log, hcomputes.values, hcomputes.results⟩, rfl⟩
  rw [Matcher.statements_eq insts i h.outputs_subset, runEmitted_append, runEmitted_append,
    runEmitted_map_ok, hrun,
    Option.bind_some, hrun₁, Option.bind_some, runEmitted_map_ok, hclosing]

end

end Isaforge.Legalizer
