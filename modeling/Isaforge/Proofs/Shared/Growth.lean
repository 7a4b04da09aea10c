import Mathlib.Data.List.Infix
import Mathlib.Tactic.IntervalCases
import Isaforge.Proofs.NameTable
import Isaforge.Shared.Instructions

/-!
# Growth — what a group of instructions keeps as it grows

A group grows by one instruction at a time or by the shared instructions all at once; either may
be refused.  `Shared.grow` makes the additions one after the other, on the group that the one before
has left, and writes down which instructions were accepted under which ids.

* `Shared.ids_define`: the ids that the definition of the shared instructions collects are those
  of its pushes, in order.
* `Shared.define_cases`: the shared instructions are all kept, or those before the first one whose
  name the group has already.
* `Shared.apply_grown`: one addition extends the group by the instructions that it accepts, and
  keeps its table consistent.
* `Shared.grown_sound`: every group that is reached agrees with its own record, whatever was
  refused on the way, and goes on to do so (`Recorded`, `Extendable`, `Definable`).
-/

namespace Isaforge.Shared

open GrowingGroup

variable {g g' : GrowingGroup} {ops ops' : Opcodes}

/-! ### The shared instructions -/

theorem nodup_names_instructions : (instructions.map (·.name)).Nodup := by
  decide

/-- The ids that are collected are those of the pushes. -/
theorem ids_define : Opcodes.ids <$> define = instructions.mapM push := by
  simp only [define, instructions, Opcodes.ids, List.mapM_cons, List.mapM_nil, map_bind, map_pure,
    bind_assoc, pure_bind]

theorem Opcodes.eq_of_ids_eq (h : ops.ids = ops'.ids) : ops = ops' := by
  cases ops
  cases ops'
  simpa [Opcodes.ids] using h

theorem ids_startingAt (n : Nat) :
    (Opcodes.startingAt n).ids = (List.range' n 21).map InstId.mk :=
  rfl

/-- Each of the ids from `n` on is in the place of its own instruction. -/
theorem withId_startingAt (n : Nat) {k : Nat} {i : Instruction} (h : instructions[k]? = some i) :
    (Opcodes.startingAt n).withId i.name ⟨n + k⟩ = some (.startingAt n) := by
  obtain ⟨hk, rfl⟩ := List.getElem?_eq_some_iff.mp h
  have hlt : k < 21 := hk
  interval_cases k <;> rfl

/-- The definition ends like the pushes of the instructions. -/
theorem perform_define (g : GrowingGroup) :
    ((g.perform define).1.map Opcodes.ids, (g.perform define).2) =
      g.perform (instructions.mapM push) := by
  rw [← perform_map, ids_define]

/-- The shared instructions are defined from the size of the group on, or up to the first whose
name the group has already. -/
theorem define_cases (g : GrowingGroup) :
    ((∀ i ∈ instructions, g.byName? i.name = none) ∧
        g.perform define = (.ok (.startingAt g.size), g.extendAll instructions) ∧
        g.handedOut instructions = numbered g.size instructions) ∨
      ∃ before i after id, instructions = before ++ i :: after ∧
        (∀ j ∈ before, g.byName? j.name = none) ∧ g.byName? i.name = some id ∧
        g.perform define = (.error (.duplicateInstruction g.name i.name), g.extendAll before) ∧
        g.handedOut instructions = numbered g.size before := by
  have hended : Ended g instructions _ _ := perform_mapM_push nodup_names_instructions
  rw [← perform_define] at hended
  rcases hdefine : g.perform define with ⟨answer, g'⟩
  rw [hdefine] at hended
  generalize hresult : (answer.map Opcodes.ids, g') = result at hended
  generalize g.handedOut instructions = ids at hended
  cases hended with
  | complete hall =>
      cases answer with
      | error e => cases hresult
      | ok ops =>
          obtain ⟨hids, rfl⟩ := Prod.mk.inj hresult
          have hops : ops = .startingAt g.size :=
            Opcodes.eq_of_ids_eq ((Except.ok.inj hids).trans (map_fst_numbered _ _))
          exact .inl ⟨hall, by rw [hops], rfl⟩
  | brokenOff before after i id his hbefore htaken =>
      cases answer with
      | error e =>
          cases hresult
          exact .inr ⟨before, i, after, id, his, hbefore, htaken, rfl, rfl⟩
      | ok ops => cases hresult

/-- A new group takes all of them. -/
theorem perform_define_new :
    let g : GrowingGroup := { name := "base", doc := "Shared base instruction set" }
    g.perform define = (.ok (.startingAt 0), g.extendAll instructions) ∧
      (g.extendAll instructions).group = group := by
  intro g
  refine ⟨?_, group_extendAll g instructions⟩
  rcases define_cases g with ⟨-, hdefine, -⟩ | ⟨-, i, -, id, -, -, htaken, -⟩
  · exact hdefine
  · cases htaken

/-! ### Additions -/

/-- What is added to a group in one go. -/
inductive Addition where
  | instruction (i : Instruction)
  | sharedInstructions
deriving Repr

/-- The instructions of an addition. -/
def Addition.instructions : Addition → List Instruction
  | .instruction i => [i]
  | .sharedInstructions => Shared.instructions

/-- The group after the addition, whether it is accepted or not. -/
def Addition.apply (g : GrowingGroup) : Addition → GrowingGroup
  | .instruction i => (g.perform (push i)).2
  | .sharedInstructions => (g.perform define).2

/-- The group after the additions, and the ids that were handed out, in order. -/
def grow (g : GrowingGroup) : List Addition → GrowingGroup × List (InstId × Instruction)
  | [] => (g, [])
  | a :: as =>
    let (g', later) := grow (a.apply g) as
    (g', g.handedOut a.instructions ++ later)

/-- `g'` is `g` with the instructions that were accepted at its end, under the ids from the size
of `g` on. -/
structure Grown (g g' : GrowingGroup) (handed : List (InstId × Instruction)) : Prop where
  consistent : g.Consistent → g'.Consistent
  eq_extendAll : g' = g.extendAll (handed.map (·.2))
  handed_eq : handed = numbered g.size (handed.map (·.2))

namespace Grown

theorem unchanged (g : GrowingGroup) : Grown g g [] :=
  ⟨id, rfl, rfl⟩

/-- The instructions are new to the group, one after the other. -/
theorem extendAll {is : List Instruction} (hnodup : (is.map (·.name)).Nodup)
    (hfree : ∀ i ∈ is, g.byName? i.name = none) :
    Grown g (g.extendAll is) (numbered g.size is) := by
  refine ⟨fun hg => ?_, by rw [map_snd_numbered], by rw [map_snd_numbered]⟩
  induction is generalizing g with
  | nil => exact hg
  | cons i is ih =>
      rw [List.map_cons, List.nodup_cons] at hnodup
      rw [List.forall_mem_cons] at hfree
      refine ih hnodup.2 (fun j hj => ?_) (hg.extend hfree.1)
      have hne : j.name ≠ i.name := fun heq => hnodup.1 (heq ▸ List.mem_map_of_mem hj)
      rw [byName?_extend_of_ne hne]
      exact hfree.2 j hj

protected theorem trans {g'' : GrowingGroup} {first later : List (InstId × Instruction)}
    (h : Grown g g' first) (h' : Grown g' g'' later) : Grown g g'' (first ++ later) := by
  have hsize : g'.size = g.size + (first.map (·.2)).length := by
    rw [h.eq_extendAll, size_extendAll]
  refine ⟨fun hg => h'.consistent (h.consistent hg), ?_, ?_⟩
  · rw [h'.eq_extendAll, h.eq_extendAll, List.map_append, extendAll_append]
  · rw [List.map_append, numbered_append, ← hsize, ← h.handed_eq, ← h'.handed_eq]

theorem group_eq {handed : List (InstId × Instruction)} (h : Grown g g' handed) :
    g'.group = { g.group with instructions := g.instructions ++ handed.map (·.2) } := by
  rw [h.eq_extendAll, group_extendAll]

theorem extends_group {handed : List (InstId × Instruction)} (h : Grown g g' handed) :
    g.group.Extends g'.group := by
  rw [h.group_eq]
  exact .append g.group _

end Grown

/-- One addition extends the group by what it accepts. -/
theorem apply_grown (a : Addition) : Grown g (a.apply g) (g.handedOut a.instructions) := by
  cases a with
  | instruction i =>
      rw [Addition.apply, Addition.instructions, handedOut]
      rcases g.perform_push_cases i with ⟨id, -, hpush⟩ | ⟨hfree, hpush⟩
      · rw [hpush]
        exact .unchanged g
      · have hgrown : Grown g (g.extendAll [i]) (numbered g.size [i]) :=
          .extendAll (List.nodup_singleton _) (List.forall_mem_singleton.mpr hfree)
        rw [hpush]
        exact hgrown
  | sharedInstructions =>
      rw [Addition.apply, Addition.instructions]
      rcases define_cases g with ⟨hfree, hdefine, hids⟩ |
          ⟨before, i, after, id, his, hfree, -, hdefine, hids⟩
      · rw [hdefine, hids]
        exact .extendAll nodup_names_instructions hfree
      · have hnodup : (before.map (·.name)).Nodup := by
          have hall := nodup_names_instructions
          rw [his, List.map_append] at hall
          exact hall.of_append_left
        rw [hdefine, hids]
        exact .extendAll hnodup hfree

/-- So do many. -/
theorem grow_grown (as : List Addition) : Grown g (grow g as).1 (grow g as).2 := by
  induction as generalizing g with
  | nil => exact .unchanged g
  | cons a as ih => exact (apply_grown a).trans ih

/-! ### Groups that are reached -/

/-- The group says of its instructions what was said when they were pushed: `handed` are the
instructions that were accepted, with their ids, in the order of the pushes. -/
structure Recorded (g : GrowingGroup) (handed : List (InstId × Instruction)) : Prop where
  /-- The ids are handed out from 0 on, without a gap. -/
  ids_eq : handed.map (·.1) = (List.range g.size).map InstId.mk
  /-- The instructions stand in the order of the pushes. -/
  instructions_eq : handed.map (·.2) = g.instructions
  /-- The table has a name exactly when an instruction has it, with the id of that one. -/
  byName?_iff : ∀ name id, g.byName? name = some id ↔ ∃ i, g.get? id = some i ∧ i.name = name
  /-- So it finds what a scan of the instructions finds. -/
  byName?_eq : ∀ name, g.byName? name = g.group.find? name
  /-- No two instructions have one name. -/
  id_eq : ∀ id id' i j, g.get? id = some i → g.get? id' = some j → i.name = j.name → id = id'

/-- What the next pushes do, to the instructions and to the table. -/
structure Extendable (g : GrowingGroup) : Prop where
  /-- An instruction is refused exactly when the table has its name. -/
  refused_iff : ∀ i, (g.perform (push i)).1 = .error (.duplicateInstruction g.name i.name) ↔
    ∃ id, g.byName? i.name = some id
  /-- There is no other reason to refuse one, and the refusal changes neither. -/
  refused : ∀ i e, (g.perform (push i)).1 = .error e →
    e = .duplicateInstruction g.name i.name ∧ (g.perform (push i)).2 = g
  /-- An instruction that is accepted is the last one, and is found under its name. -/
  accepted : ∀ i id, (g.perform (push i)).1 = .ok id → id = ⟨g.size⟩ ∧
    (g.perform (push i)).2.group = { g.group with instructions := g.instructions ++ [i] } ∧
    (g.perform (push i)).2.byName? i.name = some id
  /-- No addition changes which instruction an id stands for. -/
  get?_kept : ∀ as id i, g.get? id = some i → (grow g as).1.get? id = some i
  /-- No addition changes which id a name stands for. -/
  byName?_kept : ∀ as name id, g.byName? name = some id → (grow g as).1.byName? name = some id

/-- What the definition of the shared instructions does. -/
structure Definable (g : GrowingGroup) : Prop where
  /-- It succeeds exactly when the group has none of their names. -/
  succeeds_iff : (∃ ops, (g.perform define).1 = .ok ops) ↔
    ∀ i ∈ instructions, g.byName? i.name = none
  /-- Then they are all appended, the ids that it gives are those that its pushes hand out, which
  are consecutive, and each is in the place of its own instruction. -/
  success : ∀ ops, (g.perform define).1 = .ok ops →
    (g.perform define).2.group =
      { g.group with instructions := g.instructions ++ instructions } ∧
    ops.ids = (g.handedOut instructions).map (·.1) ∧
    ops.ids = (List.range' g.size 21).map InstId.mk ∧
    ∀ k i, instructions[k]? = some i →
      (g.perform define).2.byName? i.name = some ⟨g.size + k⟩ ∧
        ops.withId i.name ⟨g.size + k⟩ = some ops
  /-- Otherwise those before the first one whose name is there are appended. -/
  failure : ∀ e, (g.perform define).1 = .error e →
    ∃ before i after, instructions = before ++ i :: after ∧
      (∀ j ∈ before, g.byName? j.name = none) ∧ (∃ id, g.byName? i.name = some id) ∧
      e = .duplicateInstruction g.name i.name ∧
      (g.perform define).2.group = { g.group with instructions := g.instructions ++ before }

theorem recorded_of_grown {name doc : String} {handed : List (InstId × Instruction)}
    (h : Grown { name, doc } g handed) : Recorded g handed := by
  have hconsistent : g.Consistent := h.consistent (consistent_new name doc)
  have hinstructions : g.instructions = handed.map (·.2) :=
    congrArg InstructionGroup.instructions h.group_eq
  refine ⟨?_, hinstructions.symm, fun _ _ => hconsistent.byName?_eq_some_iff,
    hconsistent.byName?_eq, fun _ _ _ _ hi hj hname => hconsistent.reachable.id_eq hi hj hname⟩
  rw [h.handed_eq, map_fst_numbered, ← hinstructions, List.range_eq_range']
  rfl

theorem extendable (hg : g.Consistent) : Extendable g where
  refused_iff i := by
    rcases g.perform_push_cases i with ⟨id, htaken, hpush⟩ | ⟨hfree, hpush⟩
    · rw [hpush, htaken]
      exact ⟨fun _ => ⟨id, rfl⟩, fun _ => rfl⟩
    · rw [hpush, hfree]
      exact ⟨fun h => (nomatch h), fun ⟨_, h⟩ => (nomatch h)⟩
  refused i e he := by
    rcases g.perform_push_cases i with ⟨id, -, hpush⟩ | ⟨-, hpush⟩
    · rw [hpush] at he ⊢
      exact ⟨(Except.error.inj he).symm, rfl⟩
    · rw [hpush] at he
      cases he
  accepted i id hid := by
    rcases g.perform_push_cases i with ⟨_, -, hpush⟩ | ⟨-, hpush⟩
    · rw [hpush] at hid
      cases hid
    · rw [hpush] at hid ⊢
      cases hid
      exact ⟨rfl, g.group_extend i, g.byName?_extend_self i⟩
  get?_kept as _ _ hi := (grow_grown as).extends_group.get?_eq hi
  byName?_kept as name id hid := by
    rw [hg.byName?_eq] at hid
    rw [((grow_grown as).consistent hg).byName?_eq]
    exact (grow_grown as).extends_group.find?_eq hid

/-- The instructions that are appended stand behind the others. -/
theorem get?_extendAll {is : List Instruction} (k : Nat) :
    (g.extendAll is).get? ⟨g.size + k⟩ = is[k]? := by
  have hget : (g.extendAll is).get? ⟨g.size + k⟩ =
      (g.extendAll is).group.instructions[g.size + k]? := rfl
  rw [hget, group_extendAll]
  exact (List.getElem?_append_right (Nat.le_add_right _ _)).trans
    (congrArg (is[·]?) (Nat.add_sub_cancel_left _ _))

theorem definable (hg : g.Consistent) : Definable g := by
  have hgrown : Grown g (g.perform define).2 (g.handedOut instructions) :=
    apply_grown .sharedInstructions
  have hdefined : (g.perform define).2.Consistent := hgrown.consistent hg
  rcases define_cases g with ⟨hfree, hdefine, hids⟩ |
      ⟨before, i, after, id, his, hfree, htaken, hdefine, -⟩
  · rw [hdefine] at hdefined
    refine ⟨?_, fun ops hops => ?_, fun e he => ?_⟩
    · rw [hdefine]
      exact ⟨fun _ => hfree, fun _ => ⟨_, rfl⟩⟩
    · rw [hdefine] at hops ⊢
      cases hops
      refine ⟨group_extendAll g instructions, ?_, ids_startingAt g.size, fun k i hi => ?_⟩
      · rw [hids, map_fst_numbered]
        exact ids_startingAt g.size
      · exact ⟨hdefined.byName?_eq_some_iff.mpr ⟨i, (get?_extendAll k).trans hi, rfl⟩,
          withId_startingAt g.size hi⟩
    · rw [hdefine] at he
      cases he
  · refine ⟨?_, fun ops hops => ?_, fun e he => ?_⟩
    · rw [hdefine]
      refine ⟨fun ⟨_, h⟩ => (nomatch h), fun hall => ?_⟩
      have hnone := hall i (his ▸ List.mem_append_right _ List.mem_cons_self)
      cases htaken.symm.trans hnone
    · rw [hdefine] at hops
      cases hops
    · rw [hdefine] at he ⊢
      exact ⟨before, i, after, his, hfree, ⟨id, htaken⟩, (Except.error.inj he).symm,
        group_extendAll g before⟩

/-- However a group was reached, its names and ids agree. -/
theorem grown_sound (name doc : String) (additions : List Addition) :
    Recorded (grow { name, doc } additions).1 (grow { name, doc } additions).2 ∧
      Extendable (grow { name, doc } additions).1 ∧
      Definable (grow { name, doc } additions).1 := by
  have hgrown := grow_grown (g := { name, doc }) additions
  have hconsistent := hgrown.consistent (consistent_new name doc)
  exact ⟨recorded_of_grown hgrown, extendable hconsistent, definable hconsistent⟩

end Isaforge.Shared
