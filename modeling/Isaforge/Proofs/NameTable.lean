import Isaforge.Catalog.Growing
import Isaforge.Proofs.Catalog

/-!
# The table of names — what it finds is what stands in the group

A growing group holds its instructions twice: in order, and in a table under their names.  A push
decides by the table alone, and writes to both or to none.

* `GrowingGroup.perform_push`: the answer to a push and the group after it, as one equation.
* `GrowingGroup.Consistent`: no two instructions have one name, and looking a name up in the table
  finds what a scan of the instructions finds.  A push keeps this, accepted or refused
  (`Consistent.perform_push`).
* `GrowingGroup.Consistent.map_push`: a push does to the group that has grown what
  `InstructionGroup.push` does.
* `GrowingGroup.perform_mapM_push`: several pushes go on to the first that is refused; the
  instructions before it are kept and numbered from the size of the group on (`Ended`).
-/

namespace Isaforge.GrowingGroup

variable {α β : Type} {g : GrowingGroup} {i j : Instruction} {id : InstId} {name : String}

/-! ### Changes -/

/-- Of two changes, the second is made where the first is not refused. -/
theorem perform_bind (g : GrowingGroup) (c : Change α) (f : α → Change β) :
    g.perform (c >>= f) =
      match g.perform c with
      | (.ok a, g') => g'.perform (f a)
      | (.error e, g') => (.error e, g') := by
  rw [perform, perform, ExceptT.run_bind, StateT.run_bind]
  obtain ⟨answer, g'⟩ := c.run.run g
  cases answer <;> rfl

/-- Mapping the answer of a change leaves what it does. -/
theorem perform_map (g : GrowingGroup) (f : α → β) (c : Change α) :
    g.perform (f <$> c) = ((g.perform c).1.map f, (g.perform c).2) := by
  rw [map_eq_pure_bind, perform_bind]
  obtain ⟨answer, g'⟩ := g.perform c
  cases answer <;> rfl

/-! ### One push -/

/-- The group with the instruction kept and the next id entered under its name. -/
def extend (g : GrowingGroup) (i : Instruction) : GrowingGroup :=
  { g with instructions := g.instructions ++ [i], ids := (i.name, ⟨g.size⟩) :: g.ids }

/-- The only two outcomes of a push: the name is in the table and nothing changes, or the
instruction is kept at the end and entered in the table. -/
theorem perform_push (g : GrowingGroup) (i : Instruction) :
    g.perform (push i) =
      match g.byName? i.name with
      | some _ => (.error (.duplicateInstruction g.name i.name), g)
      | none => (.ok ⟨g.size⟩, g.extend i) := by
  have hrun : g.perform (push i) =
      g.perform (if (g.byName? i.name).isSome then throw (.duplicateInstruction g.name i.name)
        else do
          enter i.name ⟨g.size⟩
          keep i
          return ⟨g.size⟩) := rfl
  rw [hrun]
  cases g.byName? i.name <;> rfl

/-- A push is refused for a name that the table has, or else accepted. -/
theorem perform_push_cases (g : GrowingGroup) (i : Instruction) :
    (∃ id, g.byName? i.name = some id ∧
        g.perform (push i) = (.error (.duplicateInstruction g.name i.name), g)) ∨
      g.byName? i.name = none ∧ g.perform (push i) = (.ok ⟨g.size⟩, g.extend i) := by
  rw [perform_push]
  cases g.byName? i.name with
  | none => exact .inr ⟨rfl, rfl⟩
  | some id => exact .inl ⟨id, rfl, rfl⟩

theorem group_extend (g : GrowingGroup) (i : Instruction) :
    (g.extend i).group = { g.group with instructions := g.instructions ++ [i] } :=
  rfl

theorem size_extend (g : GrowingGroup) (i : Instruction) : (g.extend i).size = g.size + 1 :=
  List.length_append

/-- The instruction that was added is found under its name, with the id that it was given. -/
theorem byName?_extend_self (g : GrowingGroup) (i : Instruction) :
    (g.extend i).byName? i.name = some ⟨g.size⟩ := by
  rw [byName?, extend, List.lookup_cons_self]

/-- The entries of other names stay. -/
theorem byName?_extend_of_ne (h : name ≠ i.name) : (g.extend i).byName? name = g.byName? name := by
  rw [byName?, extend, List.lookup_cons, beq_eq_false_iff_ne.mpr h]
  rfl

/-! ### What pushes keep -/

/-- No two instructions have one name, and the table finds what a scan of the instructions finds. -/
structure Consistent (g : GrowingGroup) : Prop where
  names_nodup : (g.instructions.map (·.name)).Nodup
  byName?_eq : ∀ name, g.byName? name = g.group.find? name

theorem consistent_new (name doc : String) : Consistent { name, doc } :=
  ⟨List.nodup_nil, fun _ => rfl⟩

namespace Consistent

/-- Without its table, the group is one that pushes put together. -/
theorem reachable (h : g.Consistent) : g.group.Reachable :=
  InstructionGroup.reachable_iff_nodup.mpr h.names_nodup

/-- A name is found in the table exactly at the instruction that has it. -/
theorem byName?_eq_some_iff (h : g.Consistent) :
    g.byName? name = some id ↔ ∃ i, g.get? id = some i ∧ i.name = name := by
  rw [h.byName?_eq]
  exact h.reachable.find?_eq_some_iff

/-- The table lacks a name exactly when no instruction bears it. -/
theorem byName?_eq_none_iff (h : g.Consistent) :
    g.byName? name = none ↔ name ∉ g.instructions.map (·.name) := by
  rw [h.byName?_eq]
  exact InstructionGroup.find?_eq_none_iff

/-- An instruction of a new name is added to both. -/
theorem extend (h : g.Consistent) (hfree : g.byName? i.name = none) : (g.extend i).Consistent := by
  have hpush : g.group.push i = .ok ((g.extend i).group, ⟨g.size⟩) :=
    InstructionGroup.push_eq_ok_iff.mpr ⟨h.byName?_eq_none_iff.mp hfree, rfl, rfl⟩
  refine ⟨InstructionGroup.reachable_iff_nodup.mp (h.reachable.push hpush), fun name => ?_⟩
  rw [InstructionGroup.find?_of_push hpush]
  by_cases hname : name = i.name
  · rw [if_pos hname, hname, byName?_extend_self]
  · rw [if_neg hname, byName?_extend_of_ne hname, h.byName?_eq]

/-- The step lemma: after a push, refused or not, the table still says what stands in the group. -/
theorem perform_push (h : g.Consistent) (i : Instruction) :
    (g.perform (push i)).2.Consistent := by
  rcases g.perform_push_cases i with ⟨id, -, hpush⟩ | ⟨hfree, hpush⟩
  · rw [hpush]
    exact h
  · rw [hpush]
    exact h.extend hfree

/-- On the group that has grown, a push is `InstructionGroup.push`. -/
theorem map_push (h : g.Consistent) (i : Instruction) :
    (g.perform (push i)).1.map (fun id => ((g.perform (push i)).2.group, id)) =
      g.group.push i := by
  rw [InstructionGroup.push, ← h.byName?_eq, GrowingGroup.perform_push]
  cases g.byName? i.name <;> rfl

end Consistent

/-! ### Several pushes -/

/-- The group with the instructions kept, in order, and each entered under its name with the next
id. -/
def extendAll (g : GrowingGroup) (is : List Instruction) : GrowingGroup :=
  is.foldl extend g

theorem group_extendAll (g : GrowingGroup) (is : List Instruction) :
    (g.extendAll is).group = { g.group with instructions := g.instructions ++ is } := by
  induction is generalizing g with
  | nil => exact congrArg (InstructionGroup.mk g.name g.doc) (List.append_nil _).symm
  | cons i is ih =>
      have hassoc : (g.extend i).instructions ++ is = g.instructions ++ i :: is :=
        List.append_assoc _ _ _
      rw [extendAll, List.foldl_cons, ← extendAll, ih, hassoc, group_extend]

theorem size_extendAll (g : GrowingGroup) (is : List Instruction) :
    (g.extendAll is).size = g.size + is.length := by
  have hsize : (g.extendAll is).size = (g.extendAll is).group.size := rfl
  rw [hsize, group_extendAll]
  exact List.length_append

theorem extendAll_append (g : GrowingGroup) (is js : List Instruction) :
    g.extendAll (is ++ js) = (g.extendAll is).extendAll js :=
  List.foldl_append

/-- The ids that pushes of the instructions hand out, one after the other and up to the first that
is refused, each with its instruction. -/
def handedOut (g : GrowingGroup) : List Instruction → List (InstId × Instruction)
  | [] => []
  | i :: is =>
    match g.perform (push i) with
    | (.ok id, g') => (id, i) :: handedOut g' is
    | (.error _, _) => []

/-- The instructions with their ids, from `n` on. -/
def numbered (n : Nat) (is : List Instruction) : List (InstId × Instruction) :=
  (is.zipIdx n).map fun (i, k) => (⟨k⟩, i)

@[simp] theorem numbered_nil (n : Nat) : numbered n [] = [] := rfl

@[simp] theorem numbered_cons (n : Nat) (i : Instruction) (is : List Instruction) :
    numbered n (i :: is) = (⟨n⟩, i) :: numbered (n + 1) is := rfl

@[simp] theorem map_snd_numbered (n : Nat) (is : List Instruction) :
    (numbered n is).map (·.2) = is := by
  rw [numbered, List.map_map]
  exact List.zipIdx_map_fst n is

/-- The ids are consecutive. -/
theorem map_fst_numbered (n : Nat) (is : List Instruction) :
    (numbered n is).map (·.1) = (List.range' n is.length).map InstId.mk := by
  rw [numbered, List.map_map, ← List.zipIdx_map_snd, List.map_map]
  rfl

theorem numbered_append (n : Nat) (is js : List Instruction) :
    numbered n (is ++ js) = numbered n is ++ numbered (n + is.length) js := by
  rw [numbered, List.zipIdx_append, List.map_append]
  rfl

/-- How pushing the instructions `is` to `g` ends: their names are all new and they are kept, or
those are that stand before the first whose name the table has.  The last argument are the ids that
are handed out. -/
inductive Ended (g : GrowingGroup) (is : List Instruction) :
    Except Error (List InstId) × GrowingGroup → List (InstId × Instruction) → Prop where
  | complete : (∀ i ∈ is, g.byName? i.name = none) →
      Ended g is (.ok ((numbered g.size is).map (·.1)), g.extendAll is) (numbered g.size is)
  | brokenOff (before after : List Instruction) (i : Instruction) (id : InstId) :
      is = before ++ i :: after → (∀ j ∈ before, g.byName? j.name = none) →
      g.byName? i.name = some id →
      Ended g is (.error (.duplicateInstruction g.name i.name), g.extendAll before)
        (numbered g.size before)

/-- The first instruction is new, and of the others none has its name. -/
theorem Ended.cons {is : List Instruction} {result : Except Error (List InstId) × GrowingGroup}
    {ids : List (InstId × Instruction)} (hfree : g.byName? i.name = none)
    (hne : ∀ j ∈ is, j.name ≠ i.name) (h : Ended (g.extend i) is result ids) :
    Ended g (i :: is) (result.1.map (⟨g.size⟩ :: ·), result.2) ((⟨g.size⟩, i) :: ids) := by
  cases h with
  | complete hall =>
      rw [size_extend]
      refine .complete (List.forall_mem_cons.mpr ⟨hfree, fun j hj => ?_⟩)
      rw [← byName?_extend_of_ne (hne j hj)]
      exact hall j hj
  | brokenOff before after k id his hbefore htaken =>
      subst his
      rw [size_extend]
      refine .brokenOff (i :: before) after k id rfl
        (List.forall_mem_cons.mpr ⟨hfree, fun j hj => ?_⟩) ?_
      · rw [← byName?_extend_of_ne (hne j (List.mem_append_left _ hj))]
        exact hbefore j hj
      · rw [← byName?_extend_of_ne (hne k (List.mem_append_right _ List.mem_cons_self))]
        exact htaken

/-- The run lemma: pushes of instructions with distinct names go on to the end, or to the first name
that was there before, and keep what came until then. -/
theorem perform_mapM_push {is : List Instruction} (hnodup : (is.map (·.name)).Nodup) :
    Ended g is (g.perform (is.mapM push)) (handedOut g is) := by
  induction is generalizing g with
  | nil => exact .complete (List.forall_mem_nil _)
  | cons i is ih =>
      rw [List.map_cons, List.nodup_cons] at hnodup
      obtain ⟨hnew, hnodup⟩ := hnodup
      rw [List.mapM_cons, perform_bind, handedOut]
      rcases g.perform_push_cases i with ⟨id, htaken, hpush⟩ | ⟨hfree, hpush⟩
      · rw [hpush]
        exact .brokenOff [] is i id rfl (List.forall_mem_nil _) htaken
      · have hrest := (ih hnodup).cons hfree fun j hj heq => hnew (heq ▸ List.mem_map_of_mem hj)
        rw [← perform_map, map_eq_pure_bind] at hrest
        rw [hpush]
        exact hrest

end Isaforge.GrowingGroup
