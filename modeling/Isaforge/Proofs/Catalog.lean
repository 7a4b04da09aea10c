import Mathlib.Data.List.Induction
import Mathlib.Data.List.Nodup
import Isaforge.Catalog
import Isaforge.Proofs.Repetition

/-!
# Catalog — groups of instructions

The groups that there are begin without instructions and grow by `InstructionGroup.push`.  These
are the groups without two instructions of one name (`InstructionGroup.reachable_iff_nodup`), so
that the name of an instruction says which one it is (`InstructionGroup.Reachable.id_eq`) and
looking it up finds that one (`InstructionGroup.Reachable.find?_eq_some_iff`).  A group only grows
at its end, and one that extends another answers for the instructions of that one as it did
(`InstructionGroup.Extends`).
-/

namespace Isaforge.InstructionGroup

variable {g g' : InstructionGroup} {i j : Instruction} {id id' : InstId}

/-- The group is reached by pushing instructions to an empty one. -/
inductive Reachable : InstructionGroup → Prop where
  | empty (name doc : String) : Reachable ⟨name, doc, []⟩
  | push {g g' : InstructionGroup} {i : Instruction} {id : InstId} :
      Reachable g → g.push i = .ok (g', id) → Reachable g'

/-- A name is found where an instruction has it. -/
theorem isSome_find?_iff {name : String} :
    (g.find? name).isSome = true ↔ name ∈ g.instructions.map (·.name) := by
  rw [find?, Option.isSome_map, List.findIdx?_isSome, List.any_eq_true, List.mem_map]
  simp only [decide_eq_true_eq]

theorem find?_eq_none_iff {name : String} :
    g.find? name = none ↔ name ∉ g.instructions.map (·.name) := by
  rw [← isSome_find?_iff, Bool.not_eq_true, Option.isSome_eq_false_iff, Option.isNone_iff_eq_none]

/-- Pushing is refused to an instruction whose name is taken. -/
theorem push_eq_ok_iff :
    g.push i = .ok (g', id) ↔
      i.name ∉ g.instructions.map (·.name) ∧
        g' = { g with instructions := g.instructions ++ [i] } ∧ id = ⟨g.size⟩ := by
  rw [← isSome_find?_iff, push]
  split
  · rename_i htaken
    exact ⟨fun h => (nomatch h), fun h => absurd htaken h.1⟩
  · rename_i hfree
    rw [Except.ok.injEq, Prod.mk.injEq]
    exact ⟨fun h => ⟨hfree, h.1.symm, h.2.symm⟩, fun h => ⟨h.2.1.symm, h.2.2.symm⟩⟩

theorem push_eq_error_iff {e : Error} :
    g.push i = .error e ↔
      i.name ∈ g.instructions.map (·.name) ∧ e = .duplicateInstruction g.name i.name := by
  rw [← isSome_find?_iff, push]
  split
  · rename_i htaken
    rw [Except.error.injEq]
    exact ⟨fun h => ⟨htaken, h.symm⟩, fun h => h.2.symm⟩
  · rename_i hfree
    exact ⟨fun h => (nomatch h), fun h => absurd h.1 hfree⟩

/-- A push adds the name of its instruction to those that are found. -/
theorem find?_of_push (h : g.push i = .ok (g', id)) {name : String} :
    g'.find? name = if name = i.name then some id else g.find? name := by
  obtain ⟨hfree, rfl, rfl⟩ := push_eq_ok_iff.mp h
  have happend : find? { g with instructions := g.instructions ++ [i] } name =
      (g.find? name).or (if name = i.name then some ⟨g.size⟩ else none) := by
    rw [find?, List.findIdx?_append, Option.map_or, find?]
    congr 1
    by_cases hname : name = i.name
    · simp [hname, size]
    · simp [hname, Ne.symm hname]
  rw [happend]
  split
  · rename_i hname
    rw [hname, find?_eq_none_iff.mpr hfree, Option.none_or]
  · exact Option.or_none

theorem reachable_iff_nodup : Reachable g ↔ (g.instructions.map (·.name)).Nodup := by
  constructor
  · intro h
    induction h with
    | empty name doc => exact List.nodup_nil
    | push _ hpush ih =>
        obtain ⟨hfree, rfl, -⟩ := push_eq_ok_iff.mp hpush
        rw [List.map_append, List.map_singleton, ← List.concat_eq_append]
        exact ih.concat hfree
  · obtain ⟨name, doc, is⟩ := g
    intro h
    -- The last instruction was pushed last.
    induction is using List.reverseRecOn with
    | nil => exact .empty name doc
    | append_singleton is i ih =>
        rw [List.map_append, List.map_singleton, List.nodup_append] at h
        obtain ⟨hnodup, -, hdisjoint⟩ := h
        have hfree : i.name ∉ is.map (·.name) :=
          fun hmem => hdisjoint _ hmem _ (List.mem_singleton_self _) rfl
        exact .push (ih hnodup) (push_eq_ok_iff.mpr ⟨hfree, rfl, rfl⟩)

/-- Instructions of one name are the same. -/
theorem Reachable.id_eq (h : Reachable g) (hi : g.get? id = some i) (hj : g.get? id' = some j)
    (hname : i.name = j.name) : id = id' := by
  obtain ⟨index⟩ := id
  obtain ⟨index'⟩ := id'
  exact congrArg InstId.mk (place_eq_of_key_eq (reachable_iff_nodup.mp h) hi hj hname)

/-- A name is found at the instruction that has it. -/
theorem Reachable.find?_eq_some_iff (h : Reachable g) {name : String} :
    g.find? name = some id ↔ ∃ i, g.get? id = some i ∧ i.name = name := by
  constructor
  · intro hfind
    obtain ⟨n, hn, rfl⟩ := Option.map_eq_some_iff.mp hfind
    obtain ⟨hlt, hname, -⟩ := List.findIdx?_eq_some_iff_getElem.mp hn
    exact ⟨_, List.getElem?_eq_getElem hlt, of_decide_eq_true hname⟩
  · rintro ⟨i, hi, rfl⟩
    exact congrArg (Option.map InstId.mk) (findIdx?_key (reachable_iff_nodup.mp h) hi)

/-! ### Growth -/

/-- `g'` is `g` with more instructions at its end. -/
structure Extends (g g' : InstructionGroup) : Prop where
  name_eq : g'.name = g.name
  doc_eq : g'.doc = g.doc
  instructions : g.instructions <+: g'.instructions

namespace Extends

protected theorem refl (g : InstructionGroup) : Extends g g :=
  ⟨rfl, rfl, List.prefix_refl _⟩

protected theorem trans {g'' : InstructionGroup} (h : Extends g g') (h' : Extends g' g'') :
    Extends g g'' :=
  ⟨h'.name_eq.trans h.name_eq, h'.doc_eq.trans h.doc_eq, h.instructions.trans h'.instructions⟩

theorem append (g : InstructionGroup) (is : List Instruction) :
    Extends g { g with instructions := g.instructions ++ is } :=
  ⟨rfl, rfl, List.prefix_append _ _⟩

theorem get?_eq (h : Extends g g') (hi : g.get? id = some i) : g'.get? id = some i := by
  obtain ⟨rest, hrest⟩ := h.instructions
  rw [get?, ← hrest, List.getElem?_append_left (List.getElem?_eq_some_iff.mp hi).1]
  exact hi

/-- The first instruction of a name stays the first. -/
theorem find?_eq (h : Extends g g') {name : String} (hfind : g.find? name = some id) :
    g'.find? name = some id := by
  obtain ⟨rest, hrest⟩ := h.instructions
  obtain ⟨n, hn, rfl⟩ := Option.map_eq_some_iff.mp hfind
  rw [find?, ← hrest, List.findIdx?_append, hn]
  rfl

end Extends

end Isaforge.InstructionGroup
