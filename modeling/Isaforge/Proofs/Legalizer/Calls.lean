import Isaforge.Proofs.Legalizer.Machine

/-!
# Calls — running the calls of a definition

The statements of hoisted calls do what the calls do as flat calls (`run_hoisted`), so hoisting
leaves the call of a definition to be made with the values of its arguments (`run_value`).  The
catalog finds the method of each call, because no two of its methods have one name, and the
hoisted names are new, so no other name changes on the way.
-/

namespace Isaforge.Legalizer

variable {V : Type} {insts : InstructionGroup} {type : ValueType} {i : Instruction}

/-! ### Calls -/

/-- The catalog knows the operation of the call, with as many inputs as the call has arguments. -/
def Known (insts : InstructionGroup) (shape : Operation × Nat) : Prop :=
  ∃ i, insts.get? shape.1.inst = some i ∧ shape.2 = i.arity

/-- No two instructions of the catalog have builder methods of one name. -/
def MethodsDistinct (insts : InstructionGroup) : Prop :=
  (insts.instructions.map (·.methodName)).Nodup

instance (insts : InstructionGroup) : Decidable (MethodsDistinct insts) :=
  inferInstanceAs (Decidable (List.Nodup _))

theorem resolve_methodName {id : InstId} (hmethods : MethodsDistinct insts)
    (hi : insts.get? id = some i) : resolve insts i.methodName = some (id, i) := by
  have hfind : insts.instructions.findIdx? (·.methodName = i.methodName) = some id.index :=
    findIdx?_key hmethods hi
  simp only [InstructionGroup.get?] at hi
  simp [resolve, hfind, hi]

theorem perform_eq_some {st : State V} {c : BuilderCall} {id : InstId} {type? : Option ValueType}
    {xs : List V} (hresolve : resolve insts c.method = some (id, i))
    (hneeds : c.type?.isSome = i.needsType) (harity : c.args.length = i.arity)
    (htype : st.given? c.type? = some type?) (hargs : c.args.mapM st.value? = some xs) :
    st.perform insts c = some ⟨id, type?, xs⟩ := by
  rw [State.perform, hresolve, Option.bind_some]
  exact (if_pos ⟨hneeds, harity⟩).trans (by rw [htype, hargs]; rfl)

theorem isSome_type?_builderCallOf (i : Instruction) (c : FlatCall) :
    (builderCallOf i c).type?.isSome = i.needsType := by
  cases hneeds : i.needsType <;> simp [builderCallOf, hneeds]

/-- A call without type arguments is given the controlling type of the matched instruction. -/
theorem type?_eq_matched_iff {c : FlatCall} :
    (builderCallOf i c).type? = some .matched ↔ i.needsType = true ∧ c.op.types = [] := by
  cases hneeds : i.needsType with
  | false => simp [builderCallOf, hneeds]
  | true => cases htypes : c.op.types <;> simp [builderCallOf, hneeds, htypes, typeArgument]

/-- A call with type arguments is given the first. -/
theorem type?_eq_constant_iff {c : FlatCall} {t : ValueType} :
    (builderCallOf i c).type? = some (.constant t) ↔
      i.needsType = true ∧ c.op.types.head? = some t := by
  cases hneeds : i.needsType with
  | false => simp [builderCallOf, hneeds]
  | true => cases htypes : c.op.types <;> simp [builderCallOf, hneeds, htypes, typeArgument]

theorem usesMatchedType_iff {c : FlatCall} :
    usesMatchedType insts c = true ↔
      ∃ i, insts.get? c.op.inst = some i ∧ i.needsType = true ∧ c.op.types = [] := by
  simp only [usesMatchedType, Option.any_eq_true, Bool.and_eq_true, List.isEmpty_iff]

/-- The builder's call of a flat call is performed as the call of its operation. -/
theorem perform_builderCallOf {st : State V} {c : FlatCall} {xs : List V}
    (hmethods : MethodsDistinct insts) (hi : insts.get? c.op.inst = some i)
    (harity : c.args.length = i.arity)
    (htype : usesMatchedType insts c → st.type? .matched = some type)
    (hargs : c.args.mapM st.value? = some xs) :
    st.perform insts (builderCallOf i c) = some (performed insts type c.op xs) := by
  refine perform_eq_some (resolve_methodName hmethods hi) (isSome_type?_builderCallOf i c) harity ?_
    hargs
  cases hneeds : i.needsType with
  | false => simp [builderCallOf, hneeds, explicitType?, hi, State.given?]
  | true =>
      have hgiven : st.type? (typeArgument c.op.types) = some (c.op.types.headD type) := by
        cases htypes : c.op.types with
        | nil => exact htype (by simp [usesMatchedType, hi, hneeds, htypes])
        | cons t ts => rfl
      simp [builderCallOf, hneeds, explicitType?, hi, State.given?, hgiven]

/-! ### States -/

/-- The states agree but for the names in `new` and the calls made. -/
structure SameBut (new : List String) (st st' : State V) : Prop where
  names : ∀ n, n ∉ new → st'.names n = st.names n
  results : st'.results = st.results
  removed : st'.removed = st.removed

theorem SameBut.refl (new : List String) (st : State V) : SameBut new st st :=
  ⟨fun _ _ => rfl, rfl, rfl⟩

theorem SameBut.trans {new new' : List String} {st st₁ st₂ : State V} (h : SameBut new st st₁)
    (h' : SameBut new' st₁ st₂) : SameBut (new ++ new') st st₂ := by
  refine ⟨?_, h'.results.trans h.results, h'.removed.trans h.removed⟩
  intro n hn
  rw [List.mem_append, not_or] at hn
  rw [h'.names n hn.2, h.names n hn.1]

/-- The graph and the cursor are there to insert calls, and so is the controlling type of the
matched instruction when `typed` holds. -/
structure Ready (k : Instance V) (typed : Prop) (st : State V) : Prop where
  graph : st.sees .graph
  cursor : st.sees .cursor
  matched : st.sees .matched
  type : typed → st.type? .matched = some k.type

theorem sees_of_names {st st' : State V} {b : Builtin}
    (h : st'.names b.name = st.names b.name) : st'.sees b = st.sees b := by
  rw [State.sees, h, State.sees]

theorem Builtin.name_mem_reservedNames (b : Builtin) : b.name ∈ reservedNames := by
  cases b <;> simp [reservedNames]

/-- A state stays ready when of the reserved names no other than that of the detached results
changes. -/
theorem Ready.of_names_but_detached {k : Instance V} {typed : Prop} {st st' : State V}
    (h : Ready k typed st)
    (hnames : ∀ n ∈ reservedNames, n ≠ Builtin.detached.name → st'.names n = st.names n) :
    Ready k typed st' := by
  have hsees : ∀ b : Builtin, b ≠ .detached → st'.sees b = st.sees b := by
    intro b hb
    have hname : b.name ≠ Builtin.detached.name := by
      cases b with
      | detached => exact absurd rfl hb
      | _ => decide
    exact sees_of_names (hnames _ b.name_mem_reservedNames hname)
  have htype : st'.type? .matched = st.type? .matched := by
    rw [State.type?, hnames _ (by simp [reservedNames]) (by decide), State.type?]
  exact ⟨hsees .graph (by simp) ▸ h.graph, hsees .cursor (by simp) ▸ h.cursor,
    hsees .matched (by simp) ▸ h.matched, fun ht => htype ▸ h.type ht⟩

/-- New names that are not reserved leave a state ready. -/
theorem Ready.of_names {k : Instance V} {typed : Prop} {st st' : State V} (h : Ready k typed st)
    (hnames : ∀ n ∈ reservedNames, st'.names n = st.names n) : Ready k typed st' :=
  h.of_names_but_detached fun n hn _ => hnames n hn

theorem value?_eq_some_iff {st : State V} {n : String} {x : V} :
    st.value? n = some x ↔ st.names n = some (.value x) := by
  rw [State.value?]
  split
  · rename_i y hy
    simp [hy]
  · rename_i hno
    exact ⟨fun h => (nomatch h), fun h => absurd h (hno x)⟩

theorem value?_bind_value (st : State V) (n : String) (x : V) :
    (st.bind n (.value x)).value? = Function.update st.value? n (some x) := by
  funext m
  by_cases hm : m = n
  · rw [hm, Function.update_self]
    simp [State.value?, State.bind]
  · rw [Function.update_of_ne hm]
    simp [State.value?, State.bind, Function.update_of_ne hm]

/-! ### Hoisted calls -/

/-- The state has the values and, after `base`, the calls of a state of flat calls. -/
structure Simulates (insts : InstructionGroup) (type : ValueType) (base : List (Performed V))
    (st : State V) (flat : FlatState V) : Prop where
  values : st.value? = flat.values
  log : st.log = base ++ flat.log.map fun c => performed insts type c.1 c.2

section

variable [Inhabited V] {I : Interpretation V} {k : Instance V} {typed : Prop}

theorem runEmitted_cons_ok (st : State V) (s : Statement) (es : List (Except Error Statement)) :
    runEmitted insts I k st (.ok s :: es) =
      (exec insts I k st s).bind fun st' => runEmitted insts I k st' es :=
  rfl

theorem runEmitted_append (st : State V) (es es' : List (Except Error Statement)) :
    runEmitted insts I k st (es ++ es') =
      (runEmitted insts I k st es).bind fun st' => runEmitted insts I k st' es' :=
  List.foldlM_append

/-- The arguments of a flat call are names. -/
theorem mapM_argumentName (c : FlatCall) :
    c.asCall.args.mapM (argumentName c.asCall) = .ok c.args := by
  have hargs : c.asCall.args = c.args.map .name := rfl
  have hname : ∀ n ∈ c.args, (argumentName c.asCall ∘ .name) n = .ok (id n) := fun _ _ => rfl
  rw [hargs, List.mapM_map, mapM_eq_ok_map hname, List.map_id]

/-- The builder's call of a flat call fails only when the instruction is unknown. -/
theorem builderCall_asCall (insts : InstructionGroup) (c : FlatCall) :
    builderCall insts c.asCall =
      match insts.get? c.op.inst with
      | none => .error (.unknownInstruction c.op.inst.index)
      | some i => .ok (builderCallOf i c) := by
  rw [builderCall, mapM_argumentName]
  rfl

theorem builderCall_eq_ok_iff {c : FlatCall} {call : BuilderCall} :
    builderCall insts c.asCall = .ok call ↔
      ∃ i, insts.get? c.op.inst = some i ∧ builderCallOf i c = call := by
  rw [builderCall_asCall]
  cases insts.get? c.op.inst <;> simp

theorem builderCall_eq_ok {c : FlatCall} (hi : insts.get? c.op.inst = some i) :
    builderCall insts c.asCall = .ok (builderCallOf i c) :=
  builderCall_eq_ok_iff.mpr ⟨i, hi, rfl⟩

/-- The statement of a hoisted call does what the call does as a flat call. -/
theorem exec_hoisted (hmethods : MethodsDistinct insts) {c : NamedCall} {st : State V}
    {base : List (Performed V)} {flat flat' : FlatState V} (hready : Ready k typed st)
    (hsim : Simulates insts k.type base st flat) (hi : insts.get? c.call.op.inst = some i)
    (harity : c.call.args.length = i.arity) (htyped : usesMatchedType insts c.call → typed)
    (hrun : c.run (operations insts I k.type) flat = some flat') :
    ∃ st', exec insts I k st (.hoisted c.name (builderCallOf i c.call)) = some st' ∧
      Simulates insts k.type base st' flat' ∧ SameBut [c.name] st st' := by
  rw [NamedCall.run, Option.bind_eq_bind, Option.bind_eq_some_iff] at hrun
  obtain ⟨xs, hxs, hflat⟩ := hrun
  obtain rfl := Option.some.inj hflat
  have hperform : st.perform insts (builderCallOf i c.call) =
      some (performed insts k.type c.call.op xs) :=
    perform_builderCallOf hmethods hi harity (fun h => hready.type (htyped h)) (hsim.values ▸ hxs)
  let p := performed insts k.type c.call.op xs
  refine ⟨(st.made p).bind c.name (.value ((I p).headD default)), ?_, ⟨?_, ?_⟩, ?_, rfl, rfl⟩
  · rw [exec, hready.graph, hready.cursor, hperform]
    rfl
  · have hvalue : (st.made p).value? = flat.values := hsim.values
    rw [value?_bind_value, hvalue]
    rfl
  · have hlog : ((st.made p).bind c.name (.value ((I p).headD default))).log = st.log ++ [p] := rfl
    rw [hlog, hsim.log, List.map_append, List.append_assoc]
    rfl
  · intro n hn
    exact Function.update_of_ne (by simpa using hn) _ _

/-- **The statements of hoisted calls** do what the calls do as flat calls. -/
theorem run_hoisted (hmethods : MethodsDistinct insts) {cs : List NamedCall} {st : State V}
    {base : List (Performed V)} {flat flat' : FlatState V} (hready : Ready k typed st)
    (hsim : Simulates insts k.type base st flat)
    (hknown : ∀ c ∈ cs, Known insts c.call.shape)
    (htyped : ∀ c ∈ cs, usesMatchedType insts c.call → typed)
    (hnames : ∀ c ∈ cs, c.name ∉ reservedNames)
    (hrun : cs.foldlM (NamedCall.run (operations insts I k.type)) flat = some flat') :
    ∃ st', runEmitted insts I k st
        (cs.map fun c => (builderCall insts c.call.asCall).map (.hoisted c.name)) = some st' ∧
      Simulates insts k.type base st' flat' ∧ SameBut (cs.map (·.name)) st st' := by
  induction cs generalizing st flat with
  | nil =>
      obtain rfl : flat = flat' := by simpa using hrun
      exact ⟨st, rfl, hsim, .refl _ _⟩
  | cons c cs ih =>
      rw [List.foldlM_cons, Option.bind_eq_bind, Option.bind_eq_some_iff] at hrun
      obtain ⟨flat₁, hc, hrun⟩ := hrun
      obtain ⟨i, hi, harity⟩ := hknown c List.mem_cons_self
      obtain ⟨st₁, hexec, hsim₁, hsame⟩ :=
        exec_hoisted hmethods hready hsim hi harity (htyped c List.mem_cons_self) hc
      -- the name of the call is not reserved, so the next calls find what they need
      have hready₁ : Ready k typed st₁ := by
        refine hready.of_names fun n hn => hsame.names n fun h => ?_
        obtain rfl := List.mem_singleton.mp h
        exact hnames c List.mem_cons_self hn
      obtain ⟨st', hst', hsim', hsame'⟩ := ih hready₁ hsim₁
        (fun c' h => hknown c' (List.mem_cons_of_mem _ h))
        (fun c' h => htyped c' (List.mem_cons_of_mem _ h))
        (fun c' h => hnames c' (List.mem_cons_of_mem _ h)) hrun
      refine ⟨st', ?_, hsim', hsame.trans hsame'⟩
      rw [List.map_cons, builderCall_eq_ok hi]
      exact (runEmitted_cons_ok st _ _).trans (by rw [hexec]; exact hst')

/-! ### The call of a definition -/

/-- The variables have distinct names, none of them reserved. -/
structure WellNamed (vars : List Var) : Prop where
  injective : ∀ v ∈ vars, ∀ w ∈ vars, v.name = w.name → v = w
  unreserved : ∀ v ∈ vars, v.name ∉ reservedNames

/-- The names of an arm: those of the variables of the rule, and the reserved ones. -/
def armNames (vars : List Var) : List String :=
  vars.map (·.name) ++ reservedNames

theorem mem_armNames_of_var {vars : List Var} {v : Var} (h : v ∈ vars) : v.name ∈ armNames vars :=
  List.mem_append_left _ (List.mem_map_of_mem h)

theorem mem_armNames_of_reserved {vars : List Var} {n : String} (h : n ∈ reservedNames) :
    n ∈ armNames vars :=
  List.mem_append_right _ h

/-- The call of a head. -/
def performedHead (insts : InstructionGroup) (type : ValueType) (c : Head × List V) :
    Performed V :=
  performed insts type c.1.operation c.2

variable {σ : Type} {next : Supply σ} {vars : List Var} {ρ : Var → V} {d : Definition}

/-- What it takes to build the value of a definition: its applications are known, the type they use
is there, and the variables it uses are bound. -/
structure Buildable (insts : InstructionGroup) (typed : Prop) (next : Supply σ) (vars : List Var)
    (d : Definition) : Prop where
  known : ∀ a : Application, a.Within d.value.expr →
    Known insts (a.head.operation, a.args.length)
  typed : ∀ s, ∀ c ∈ ((Call.ofApplication d.value).flatten next s).1.calls,
    usesMatchedType insts c → typed
  uses : ∀ v, d.Uses v → v ∈ vars

namespace Buildable

variable (hd : Buildable insts typed next vars d)

include hd

omit [Inhabited V] in
theorem uses_of_mem {v : Var} (hv : v ∈ Expr.varsAll d.value.args) : d.Uses v ∧ v ∈ vars :=
  have huses : d.Uses v := Definition.uses_iff_mem_uses.mpr hv
  ⟨huses, hd.uses v huses⟩

/-- The calls hoisted out of the definition are known. -/
theorem known_hoisted (s : σ) :
    ∀ c ∈ ((Call.ofApplication d.value).flatten next s).1.hoisted,
      Known insts c.call.shape := by
  intro c hc
  have hshape : c.call.shape ∈ CallArg.shapesAll (CallArg.ofExprs d.value.args) := by
    rw [← CallArg.hoistAll_shapes next _ s]
    exact List.mem_map_of_mem hc
  obtain ⟨e, he, a, ha, hca⟩ := CallArg.exists_within_of_mem_shapesAll _ _ hshape
  rw [hca]
  exact hd.known a (.arg he ha)

/-- The call that is left is known. -/
theorem known_top (s : σ) :
    Known insts ((Call.ofApplication d.value).flatten next s).1.top.shape := by
  have hlength : (CallArg.hoistAll next (CallArg.ofExprs d.value.args) s).2.1.length =
      d.value.args.length := by
    rw [CallArg.length_hoistAll, CallArg.ofExprs_eq_map, List.length_map]
  obtain ⟨i, hi, harity⟩ := hd.known d.value .self
  exact ⟨i, hi, hlength.trans harity⟩

end Buildable

/-- **The value of a definition.**  The calls hoisted out of it leave its own call to be made with
the values of its arguments, and change no name of the arm. -/
theorem run_value (hmethods : MethodsDistinct insts) (hnext : next.Avoids (armNames vars))
    (hd : Buildable insts typed next vars d) {st : State V} (hready : Ready k typed st)
    (hbound : ∀ v, d.Uses v → st.value? v.name = some (ρ v)) (s : σ) :
    ∃ st₁ call,
      runEmitted insts I k st
        (hoistedStatements insts ((Call.ofApplication d.value).flatten next s).1) = some st₁ ∧
      builderCall insts ((Call.ofApplication d.value).flatten next s).1.top.asCall = .ok call ∧
      st₁.perform insts call = some (performedHead insts k.type
        (d.value.head, Expr.values (operations insts I k.type).semantics ρ d.value.args)) ∧
      st₁.log ++ [performedHead insts k.type
          (d.value.head, Expr.values (operations insts I k.type).semantics ρ d.value.args)] =
        st.log ++ (d.value.expr.calls (operations insts I k.type).semantics ρ).map
          (performedHead insts k.type) ∧
      (∀ n ∈ armNames vars, st₁.names n = st.names n) ∧ st₁.results = st.results ∧
      st₁.removed = st.removed := by
  let flat := ((Call.ofApplication d.value).flatten next s).1
  have hnames : flat.hoisted.map (·.name) = next.take s (Expr.nodesAll d.value.args) := by
    rw [← CallArg.nodesAll_ofExprs]
    exact (CallArg.hoistAll_supply _ s).1
  have hnew : ∀ n ∈ armNames vars, n ∉ next.take s (Expr.nodesAll d.value.args) :=
    fun n hn hmem => (hnext s _).2 n hmem hn
  -- as flat calls, the hoisted ones evaluate the arguments
  obtain ⟨values, hflat, hleft, -⟩ : CallArg.Runs (operations insts I k.type) flat.hoisted
      flat.top.args _ _ _ ⟨st.value?, []⟩ :=
    CallArg.hoistAll_ofExprs_run d.value.args s ⟨st.value?, []⟩
      (fun v hv => hbound v (hd.uses_of_mem hv).1) (hnext s _).1
      fun v hv => hnew _ (mem_armNames_of_var (hd.uses_of_mem hv).2)
  have hsim : Simulates insts k.type st.log st ⟨st.value?, []⟩ := ⟨rfl, by simp⟩
  obtain ⟨st₁, hrun, hsim₁, hsame⟩ := run_hoisted hmethods hready hsim (hd.known_hoisted s)
    (fun c hc => hd.typed s c.call (List.mem_append_left _ (List.mem_map_of_mem hc)))
    (fun c hc hmem => hnew _ (mem_armNames_of_reserved hmem) (hnames ▸ List.mem_map_of_mem hc))
    hflat
  have hkept : ∀ n ∈ armNames vars, st₁.names n = st.names n :=
    fun n hn => hsame.names n fun h => hnew n hn (hnames ▸ h)
  have hready₁ : Ready k typed st₁ :=
    hready.of_names fun n hn => hkept n (mem_armNames_of_reserved hn)
  obtain ⟨i, hi, harity⟩ := hd.known_top s
  refine ⟨st₁, builderCallOf i flat.top, hrun, builderCall_eq_ok hi, ?_, ?_, hkept, hsame.results,
    hsame.removed⟩
  · have htyped : usesMatchedType insts flat.top → typed :=
      hd.typed s flat.top (List.mem_append_right _ List.mem_cons_self)
    refine perform_builderCallOf hmethods hi harity (fun h => hready₁.type (htyped h)) ?_
    rw [hsim₁.values]
    exact mapM_eq_some_of_map hleft
  · rw [hsim₁.log, Application.expr, Expr.calls, List.map_append, List.append_assoc]
    simp [performedHead, Head.call, Function.comp_def]

end

end Isaforge.Legalizer
