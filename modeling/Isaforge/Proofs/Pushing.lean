import Isaforge.Pattern.Growing
import Isaforge.Proofs.Occurrence

/-!
# Pushing — a definition is added in place, or nothing is changed

A push changes a growing pattern in place, and it is refused from the middle of its loop.  It goes
through all outputs before it records the first of them, so that nothing has been changed when it is
refused (`GrowingPattern.checkOutputs_run`).

* `GrowingPattern.pushed_eq`: the answer to a push and the pattern after it, as one equation.
* `GrowingPattern.Consistent`: the recorded variables are those that the definitions define, and
  none is defined twice.  A push keeps this, accepted or refused (`Consistent.pushed`).
* `GrowingPattern.Consistent.map_pushed`: a push does to the pattern that has grown what
  `Pattern.push` does.
* `GrowingPattern.pushAll_atomic`: **pushes are atomic**, after any sequence of them.
-/

namespace Isaforge.GrowingPattern

variable {p : GrowingPattern} {d : Definition}

/-! ### One push -/

/-- Of two changes, the second is made where the first is not refused. -/
theorem andThen_run (x y : Change) (p : GrowingPattern) :
    (x >>= fun _ => y).run.run p =
      match x.run.run p with
      | (.ok (), q) => y.run.run q
      | (.error e, q) => (.error e, q) := by
  rw [ExceptT.run_bind, StateT.run_bind]
  obtain ⟨answer, q⟩ := x.run.run p
  cases answer <;> rfl

theorem checkOutput_run (before : List Var) (v : Var) (p : GrowingPattern) :
    (checkOutput before v).run.run p =
      if p.defines v || v ∈ before then (.error (.duplicateDefinition v.name p.side), p)
      else (.ok (), p) := by
  have hrun : (checkOutput before v).run.run p =
      (if p.defines v || v ∈ before then throw (.duplicateDefinition v.name p.side)
        else pure () : Change).run.run p := rfl
  rw [hrun]
  split <;> rfl

/-- Going through the outputs changes nothing, wherever it stops. -/
theorem checkOutputs_run (before vs : List Var) (p : GrowingPattern) :
    (checkOutputs before vs).run.run p =
      match firstRepeat? (before.reverse ++ p.defined) vs with
      | some v => (.error (.duplicateDefinition v.name p.side), p)
      | none => (.ok (), p) := by
  induction vs generalizing before with
  | nil => rfl
  | cons v vs ih =>
      have hmem : v ∈ before.reverse ++ p.defined ↔ (p.defines v || v ∈ before) = true := by
        simp [defines, or_comm]
      rw [checkOutputs, firstRepeat?, andThen_run, checkOutput_run]
      by_cases h : (p.defines v || v ∈ before) = true
      · rw [if_pos h, if_pos (hmem.mpr h)]
      · rw [if_neg h, if_neg (hmem.not.mpr h), ← List.cons_append, ← List.reverse_concat]
        exact ih (before ++ [v])

/-- The pattern with the definition kept and its outputs recorded. -/
def extend (p : GrowingPattern) (d : Definition) : GrowingPattern :=
  { p with defs := p.defs ++ [d], defined := p.defined ++ d.outputs }

/-- A push decides by the variables defined so far: it changes nothing, or extends both. -/
theorem pushed_eq (p : GrowingPattern) (d : Definition) :
    p.pushed d =
      match firstRepeat? p.defined d.outputs with
      | some v => (.error (.duplicateDefinition v.name p.side), p)
      | none => (.ok (), p.extend d) := by
  have hchecked := checkOutputs_run [] d.outputs p
  rw [List.reverse_nil, List.nil_append] at hchecked
  rw [pushed, push, andThen_run, hchecked]
  cases firstRepeat? p.defined d.outputs <;> rfl

/-- A push is refused for an output that is found to be defined a second time, or else accepted. -/
theorem pushed_cases (p : GrowingPattern) (d : Definition) :
    (∃ v, firstRepeat? p.defined d.outputs = some v ∧
        p.pushed d = (.error (.duplicateDefinition v.name p.side), p)) ∨
      firstRepeat? p.defined d.outputs = none ∧ p.pushed d = (.ok (), p.extend d) := by
  rw [pushed_eq]
  cases firstRepeat? p.defined d.outputs with
  | none => exact .inr ⟨rfl, rfl⟩
  | some v => exact .inl ⟨v, rfl, rfl⟩

theorem side_pushed (p : GrowingPattern) (d : Definition) : (p.pushed d).2.side = p.side := by
  rcases p.pushed_cases d with ⟨v, -, hpushed⟩ | ⟨-, hpushed⟩
  · rw [hpushed]
  · rw [hpushed]
    rfl

/-- `v` is the first output of `d` that the pattern defines or that stands among the outputs
before it. -/
def FirstRedefined (p : GrowingPattern) (d : Definition) (v : Var) : Prop :=
  ∃ n, d.outputs[n]? = some v ∧ Repeats p.defined d.outputs n ∧
    ∀ m < n, ¬ Repeats p.defined d.outputs m

/-- The variable that is reported is the first one that is defined already. -/
theorem firstRedefined_iff {v : Var} :
    p.FirstRedefined d v ↔ firstRepeat? p.defined d.outputs = some v :=
  firstRepeat?_eq_some_iff_first.symm

/-- What a push of `d` does: it is refused when an output is defined a second time, for the first
such output and with nothing changed, and otherwise it keeps the definition and records its
outputs. -/
structure Atomic (p : GrowingPattern) (d : Definition) : Prop where
  refused_iff : (∃ e, (p.pushed d).1 = .error e) ↔ ∃ n, Repeats p.defined d.outputs n
  error_iff : ∀ e, (p.pushed d).1 = .error e ↔
    ∃ v, p.FirstRedefined d v ∧ e = .duplicateDefinition v.name p.side
  unchanged : ∀ e, (p.pushed d).1 = .error e → (p.pushed d).2 = p
  extended : (p.pushed d).1 = .ok () → (p.pushed d).2 = p.extend d

/-- One push is refused and changes nothing, or is accepted as a whole. -/
theorem atomic (p : GrowingPattern) (d : Definition) : Atomic p d := by
  have hrefused : (∃ v, firstRepeat? p.defined d.outputs = some v) ↔
      ∃ n, Repeats p.defined d.outputs n := exists_firstRepeat?_iff
  rcases p.pushed_cases d with ⟨v, hfound, hpushed⟩ | ⟨hfound, hpushed⟩
  · refine ⟨?_, fun e => ?_, fun e _ => ?_, fun h => ?_⟩
    · rw [← hrefused, hpushed]
      exact ⟨fun _ => ⟨v, hfound⟩, fun _ => ⟨_, rfl⟩⟩
    · rw [hpushed, Except.error.injEq]
      simp only [firstRedefined_iff, hfound, Option.some.injEq, exists_eq_left', eq_comm]
    · rw [hpushed]
    · rw [hpushed] at h
      cases h
  · refine ⟨?_, fun e => ?_, fun e h => ?_, fun _ => ?_⟩
    · simp [← hrefused, hpushed, hfound]
    · simp [firstRedefined_iff, hpushed, hfound]
    · rw [hpushed] at h
      cases h
    · rw [hpushed]

/-! ### What pushes keep -/

/-- The recorded variables are those that a definition defines, and none is defined twice. -/
structure Consistent (p : GrowingPattern) : Prop where
  mem_defined_iff : ∀ v, v ∈ p.defined ↔ ∃ d ∈ p.defs, v ∈ d.outputs
  nodup_outputs : p.pattern.outputs.Nodup

theorem consistent_new (side : Side) : Consistent { side } :=
  ⟨by simp, List.nodup_nil⟩

theorem Consistent.mem_outputs_iff (h : p.Consistent) {v : Var} :
    v ∈ p.defined ↔ v ∈ p.pattern.outputs :=
  (h.mem_defined_iff v).trans List.mem_flatMap.symm

/-- The step lemma: a push keeps the agreement, refused or not. -/
theorem Consistent.pushed (h : p.Consistent) (d : Definition) : (p.pushed d).2.Consistent := by
  rcases p.pushed_cases d with ⟨v, -, hpushed⟩ | ⟨hfound, hpushed⟩
  · rw [hpushed]
    exact h
  · obtain ⟨hnodup, hnew⟩ := firstRepeat?_eq_none_iff.mp hfound
    rw [hpushed]
    refine ⟨fun v => ?_, ?_⟩
    · simp [extend, h.mem_defined_iff, or_and_right, exists_or]
    · have happend : (p.extend d).pattern.outputs = p.pattern.outputs ++ d.outputs := by
        simp [extend, pattern, Pattern.outputs, Definition.outputsOf]
      rw [happend]
      exact h.nodup_outputs.append hnodup fun v hv hv' => hnew v hv' (h.mem_outputs_iff.mpr hv)

/-- On the pattern that has grown, a push is `Pattern.push`. -/
theorem Consistent.map_pushed (h : p.Consistent) (d : Definition) :
    (p.pushed d).1.map (fun _ => (p.pushed d).2.pattern) = p.pattern.push d := by
  have hsearch : firstRepeat? p.defined d.outputs = firstRepeat? p.pattern.outputs d.outputs :=
    firstRepeat?_congr fun v => h.mem_outputs_iff
  rw [Pattern.push, ← hsearch, pushed_eq]
  cases firstRepeat? p.defined d.outputs <;> rfl

/-! ### Any number of pushes -/

/-- Push the definitions one after the other, whatever is refused: the answers, and the pattern
after them. -/
def pushAll (p : GrowingPattern) : List Definition → List (Except Error Unit) × GrowingPattern
  | [] => ([], p)
  | d :: ds =>
    let (answer, q) := p.pushed d
    let (answers, q) := pushAll q ds
    (answer :: answers, q)

/-- The definitions whose pushes were accepted, in order. -/
def accepted (ds : List Definition) (answers : List (Except Error Unit)) : List Definition :=
  ((ds.zip answers).filter (·.2.isOk)).map (·.1)

theorem accepted_cons (d : Definition) (ds : List Definition) (answer : Except Error Unit)
    (answers : List (Except Error Unit)) :
    accepted (d :: ds) (answer :: answers) =
      (if answer.isOk then [d] else []) ++ accepted ds answers := by
  rw [accepted, List.zip_cons_cons, List.filter_cons]
  split <;> rfl

/-- What is true of a pattern after the pushes of `ds` and their answers. -/
structure Grown (side : Side) (ds : List Definition) (answers : List (Except Error Unit))
    (p : GrowingPattern) : Prop extends Consistent p where
  side_eq : p.side = side
  length_answers : answers.length = ds.length
  defs_eq : p.defs = accepted ds answers

/-- The run lemma: so do many, and the definitions that were accepted stand in their order. -/
theorem Consistent.pushAll (h : p.Consistent) (ds : List Definition) :
    (p.pushAll ds).2.Consistent ∧ (p.pushAll ds).2.side = p.side ∧
      (p.pushAll ds).1.length = ds.length ∧
      (p.pushAll ds).2.defs = p.defs ++ accepted ds (p.pushAll ds).1 := by
  induction ds generalizing p with
  | nil => exact ⟨h, rfl, rfl, (List.append_nil _).symm⟩
  | cons d ds ih =>
      obtain ⟨hconsistent, hside, hlength, hdefs⟩ := ih (h.pushed d)
      refine ⟨hconsistent, hside.trans (p.side_pushed d), congrArg (· + 1) hlength, ?_⟩
      have hanswers : (p.pushAll (d :: ds)).1 = (p.pushed d).1 :: ((p.pushed d).2.pushAll ds).1 :=
        rfl
      rw [hanswers, accepted_cons]
      refine hdefs.trans ?_
      rcases p.pushed_cases d with ⟨v, -, hpushed⟩ | ⟨-, hpushed⟩
      · rw [hpushed]
        rfl
      · rw [hpushed]
        exact List.append_assoc _ _ _

/-- **Pushes are atomic.**  After any sequence of pushes to a new pattern, the definitions kept are
those accepted, the variables recorded are those that they define, each defined once; and the next
push adds its definition, or is refused for the first output defined a second time and changes
nothing. -/
theorem pushAll_atomic (side : Side) (ds : List Definition) (d : Definition) :
    Grown side ds (pushAll { side } ds).1 (pushAll { side } ds).2 ∧
      Atomic (pushAll { side } ds).2 d := by
  obtain ⟨hconsistent, hside, hlength, hdefs⟩ := (consistent_new side).pushAll ds
  exact ⟨⟨hconsistent, hside, hlength, hdefs⟩, atomic _ d⟩

/-- The second `y` is found after `z`, and yet nothing of the definition is recorded. -/
example :
    let y : Var := ⟨1, "y"⟩
    let z : Var := ⟨2, "z"⟩
    let d : Definition := ⟨[y, z, y], ⟨⟨19⟩, "isplit_lohi", []⟩, [.var ⟨0, "x"⟩]⟩
    let p : GrowingPattern := { side := .destination }
    p.pushed d = (.error (.duplicateDefinition "y" .destination), p) := by
  rfl

end Isaforge.GrowingPattern
