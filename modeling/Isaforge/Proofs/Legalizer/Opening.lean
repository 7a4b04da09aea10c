import Isaforge.Proofs.Legalizer.Calls

/-!
# Opening — what an arm binds before it builds

The opening of an arm binds the controlling type of the matched instruction when a call needs it,
its operands to the arguments of the source, and its detached results to the outputs that are
reused.

* `run_bindOperands`: every argument is bound to the value of the operand at its position.  Value
  operands are read from a list of their own, so their number among themselves counts.
* `run_bindResults`: every reused output is bound to the detached result at its position.
-/

namespace Isaforge.Legalizer

section

variable {V : Type} [Inhabited V] (insts : InstructionGroup) (I : Interpretation V)
  {k : Instance V} {typed : Prop} {st : State V}

theorem run_cons (s : Statement) (ss : List Statement) :
    run insts I k st (s :: ss) =
      (exec insts I k st s).bind fun st' => run insts I k st' ss :=
  rfl

/-! ### The controlling type -/

/-- Binding the controlling type makes it available. -/
theorem run_bindType (hready : Ready k False st) :
    run insts I k st [.bindType] = some (st.bind matchedTypeName (.type k.type)) ∧
      Ready k True (st.bind matchedTypeName (.type k.type)) := by
  refine ⟨?_, ?_⟩
  · rw [run_cons, exec, hready.graph, hready.matched]
    rfl
  · have hsees : ∀ b : Builtin, (st.bind matchedTypeName (.type k.type)).sees b = st.sees b := by
      intro b
      have hb : b.name ≠ matchedTypeName := by cases b <;> decide
      exact sees_of_names (Function.update_of_ne hb _ _)
    refine ⟨hsees _ ▸ hready.graph, hsees _ ▸ hready.cursor, hsees _ ▸ hready.matched, ?_⟩
    intro _
    simp [State.type?, State.bind]

/-! ### Operands -/

/-- Where an operand is read from, after the operands `pre`. -/
def placeAfter (pre : List (Operand × V)) (o : Operand) : OperandPlace :=
  match o.kind with
  | .value _ | .typeVar _ => .value (pre.filter (·.1.isValue)).length
  | .immediate _ => .immediate pre.length
  | .entity _ => .entity pre.length

omit [Inhabited V] in
/-- The place of an operand behind others reads the value of that operand. -/
theorem read_placeAfter {pre rest : List (Operand × V)} {o : Operand} {x : V}
    (h : k.operands = pre ++ (o, x) :: rest) : k.read (placeAfter pre o) = some x := by
  have hplace : k.operands[pre.length]? = some (o, x) := by simp [h]
  have hvalue : o.isValue → k.read (.value (pre.filter (·.1.isValue)).length) = some x := by
    intro ho
    simp [Instance.read, h, ho]
  cases hkind : o.kind with
  | value t =>
      rw [placeAfter, hkind]
      exact hvalue (by simp [Operand.isValue, hkind])
  | typeVar t =>
      rw [placeAfter, hkind]
      exact hvalue (by simp [Operand.isValue, hkind])
  | immediate t => simp [placeAfter, hkind, Instance.read, hplace]
  | entity t => simp [placeAfter, hkind, Instance.read, hplace]

omit [Inhabited V] in
theorem bindOperands_cons (pre : List (Operand × V)) (o : Operand) (x : V) (os : List Operand)
    (v : Var) (vs : List Var) :
    bindOperands pre.length (pre.filter (·.1.isValue)).length (o :: os) (v :: vs) =
      .bindOperand v.name (placeAfter pre o) ::
        bindOperands (pre ++ [(o, x)]).length ((pre ++ [(o, x)]).filter (·.1.isValue)).length
          os vs := by
  cases hkind : o.kind <;>
    simp [bindOperands, placeAfter, hkind, Operand.isValue, List.filter_append]

/-- **The operands** are bound to the arguments, each to the one at its position. -/
theorem run_bindOperands (pre : List (Operand × V)) {os : List Operand} {vs : List Var}
    {xs : List V} (hvs : vs.length = os.length) (hxs : xs.length = os.length)
    (hops : k.operands = pre ++ os.zip xs) (hnames : ∀ v ∈ vs, v.name ∉ reservedNames)
    (hready : Ready k typed st) :
    run insts I k st (bindOperands pre.length (pre.filter (·.1.isValue)).length os vs) =
      some { st with
        names := bindAs (fun x => some (.value x)) st.names (vs.map (·.name)) xs } := by
  induction os generalizing pre vs xs st with
  | nil =>
      obtain rfl : vs = [] := List.eq_nil_of_length_eq_zero hvs
      rfl
  | cons o os ih =>
      obtain ⟨v, vs, rfl⟩ := List.exists_cons_of_length_eq_add_one hvs
      obtain ⟨x, xs, rfl⟩ := List.exists_cons_of_length_eq_add_one hxs
      have hread : k.read (placeAfter pre o) = some x := read_placeAfter hops
      have hops' : k.operands = (pre ++ [(o, x)]) ++ os.zip xs := by simp [hops]
      have hready' : Ready k typed (st.bind v.name (.value x)) := by
        refine hready.of_names fun n hn => Function.update_of_ne (fun h => ?_) _ _
        exact hnames v List.mem_cons_self (h ▸ hn)
      rw [bindOperands_cons pre o x, run_cons, exec, hready.graph, hready.matched, hread]
      exact ih _ (by simpa using hvs) (by simpa using hxs) hops'
        (fun w hw => hnames w (List.mem_cons_of_mem _ hw)) hready'

/-! ### Results -/

theorem run_bindResultList (k : Instance V) {l : List (Var × Nat)}
    (hnames : ∀ p ∈ l, p.1.name ∉ reservedNames) (hsees : st.sees .detached) :
    run insts I k st (l.map fun p => .bindResult p.1.name p.2) =
      some { st with
        names := bindAs (fun index => some (.result index)) st.names (l.map (·.1.name))
          (l.map (·.2)) } := by
  induction l generalizing st with
  | nil => rfl
  | cons p l ih =>
      have hsees' : (st.bind p.1.name (.result p.2)).sees .detached := by
        have hne : Builtin.detached.name ≠ p.1.name :=
          fun h => hnames p List.mem_cons_self (h ▸ Builtin.name_mem_reservedNames .detached)
        rw [sees_of_names (Function.update_of_ne hne _ _), hsees]
      rw [List.map_cons, run_cons, exec, hsees]
      exact ih (fun q hq => hnames q (List.mem_cons_of_mem _ hq)) hsees'

/-- The outputs of the source that the rule reuses, with their positions. -/
def reusedOutputs (m : Matcher) : List (Var × Nat) :=
  m.outputs.zipIdx.filter fun p => m.rule.isOutput p.1

/-- The statements that bind the reused outputs to the detached results. -/
def detachStatements (m : Matcher) : List Statement :=
  if (reusedOutputs m).isEmpty then []
  else .detach :: (reusedOutputs m).map fun p => .bindResult p.1.name p.2

theorem bindResults_eq (m : Matcher) :
    bindResults (m.outputs.map fun v => ⟨v.name, m.rule.isOutput v⟩) = detachStatements m := by
  have hbind : ∀ results : List Result, bindResults results =
      if (results.zipIdx.filter (·.1.reused)).isEmpty then []
      else .detach ::
        (results.zipIdx.filter (·.1.reused)).map fun p => .bindResult p.1.name p.2 :=
    fun _ => rfl
  have hreused : ((m.outputs.map fun v => (⟨v.name, m.rule.isOutput v⟩ : Result)).zipIdx.filter
      (·.1.reused)) = (reusedOutputs m).map fun p => (⟨p.1.name, m.rule.isOutput p.1⟩, p.2) := by
    rw [reusedOutputs, List.zipIdx_map, List.filter_map]
    rfl
  simp only [hbind, hreused, detachStatements, List.isEmpty_map, List.map_map]
  rfl

/-- A result of the instruction is reused when it is an output of the rule. -/
theorem mem_reusedOutputs {m : Matcher} {v : Var} (hv : v ∈ m.outputs)
    (hout : m.rule.isOutput v) : (v, m.outputs.idxOf v) ∈ reusedOutputs m := by
  rw [reusedOutputs, List.mem_filter, List.mk_mem_zipIdx_iff_getElem?]
  exact ⟨List.getElem?_idxOf hv, hout⟩

theorem of_mem_reusedOutputs {m : Matcher} {p : Var × Nat} (h : p ∈ reusedOutputs m) :
    p.1 ∈ m.outputs ∧ m.rule.isOutput p.1 := by
  obtain ⟨hmem, hout⟩ := List.mem_filter.mp h
  exact ⟨List.fst_mem_of_mem_zipIdx hmem, hout⟩

/-- The outputs that are reused have distinct names. -/
theorem nodup_reusedOutputs {m : Matcher} {vars : List Var} (hvars : WellNamed vars)
    (hsub : m.outputs ⊆ vars) (hnd : m.outputs.Nodup) :
    ((reusedOutputs m).map (·.1.name)).Nodup := by
  have hfst : ((reusedOutputs m).map (·.1)).Nodup := by
    have hsublist : ((reusedOutputs m).map (·.1)).Sublist (m.outputs.zipIdx.map (·.1)) :=
      List.filter_sublist.map _
    rw [List.zipIdx_map_fst] at hsublist
    exact hnd.sublist hsublist
  have hmap : (reusedOutputs m).map (·.1.name) = ((reusedOutputs m).map (·.1)).map (·.name) := by
    rw [List.map_map]
    rfl
  have hin : ∀ v ∈ (reusedOutputs m).map (·.1), v ∈ vars := by
    intro v hv
    obtain ⟨p, hp, rfl⟩ := List.mem_map.mp hv
    exact hsub (of_mem_reusedOutputs hp).1
  rw [hmap]
  exact hfst.map_on fun v hv w hw => hvars.injective v (hin v hv) w (hin w hw)

/-- **The reused outputs** are bound to the detached results, each to the one at its position; no
other name of the arm changes but that of the list of results. -/
theorem run_bindResults {m : Matcher} {vars : List Var} (hvars : WellNamed vars)
    (hsub : m.outputs ⊆ vars) (hnd : m.outputs.Nodup) (hready : Ready k typed st) :
    ∃ names, run insts I k st (detachStatements m) = some { st with names := names } ∧
      (∀ v ∈ m.outputs, m.rule.isOutput v →
        names v.name = some (.result (m.outputs.idxOf v))) ∧
      ∀ n, n ≠ Builtin.detached.name → (∀ v ∈ m.outputs, m.rule.isOutput v → v.name ≠ n) →
        names n = st.names n := by
  rw [detachStatements]
  by_cases hempty : (reusedOutputs m).isEmpty
  · rw [if_pos hempty]
    refine ⟨st.names, rfl, ?_, fun _ _ _ => rfl⟩
    intro v hv hout
    have hmem := mem_reusedOutputs hv hout
    rw [List.isEmpty_iff.mp hempty] at hmem
    cases hmem
  · rw [if_neg hempty]
    let st₁ := st.bind Builtin.detached.name (.builtin .detached)
    have hsees : st₁.sees .detached := by simp [st₁, State.sees, State.bind]
    have hreserved : ∀ p ∈ reusedOutputs m, p.1.name ∉ reservedNames :=
      fun p hp => hvars.unreserved _ (hsub (of_mem_reusedOutputs hp).1)
    let names : String → Option (Referent V) := bindAs (fun index => some (.result index))
      st₁.names ((reusedOutputs m).map (·.1.name)) ((reusedOutputs m).map (·.2))
    refine ⟨names, ?_, ?_, ?_⟩
    · rw [run_cons, exec, hready.graph, hready.matched]
      exact run_bindResultList insts I k hreserved hsees
    · intro v hv hout
      obtain ⟨j, hj⟩ := List.getElem?_of_mem (mem_reusedOutputs hv hout)
      have hname : ((reusedOutputs m).map (·.1.name))[j]? = some v.name := by
        rw [List.getElem?_map, hj, Option.map_some]
      have hindex : ((reusedOutputs m).map (·.2)).getD j default = m.outputs.idxOf v := by
        rw [List.getD, List.getElem?_map, hj, Option.map_some, Option.getD_some]
      rw [← hindex]
      exact bindAs_of_nodup _ _ (nodup_reusedOutputs hvars hsub hnd) hname
    · intro n hne hn
      have hnot : n ∉ (reusedOutputs m).map (·.1.name) := by
        intro hmem
        obtain ⟨p, hp, hpn⟩ := List.mem_map.mp hmem
        obtain ⟨hmem', hout⟩ := of_mem_reusedOutputs hp
        exact hn p.1 hmem' hout hpn
      have hkept : names n = st₁.names n := bindAs_of_notMem _ _ hnot
      rw [hkept]
      exact Function.update_of_ne hne _ _

end

end Isaforge.Legalizer
