import Isaforge.Proofs.CamelCase
import Isaforge.Proofs.Catalog
import Isaforge.Proofs.Legalizer.Dispatch

/-!
# Opcodes — which instructions generated code tells apart

A group tells its instructions apart by their names, and generated code by names made of them: the
opcode is the name in camel case, and the method is the name, with an underscore after a reserved
word.  When names are in snake case, instructions have different opcodes and methods, and a function
takes each of its arms for the opcode of that arm (`opcodes_kept_apart`).

No check asks for snake case.  `escapedGroup` has the instructions `return` and `return_`, whose
opcode and method are the same, so that the arm of the second is never taken
(`escapedGroup_confused`).
-/

namespace Isaforge

open Text

/-! ### Names of instructions -/

namespace Instruction

variable {i j : Instruction}

/-- The name of `j` is the one that keeps the method of `i` from being a reserved word. -/
def Escapes (i j : Instruction) : Prop :=
  i.name ∈ reservedWords ∧ j.name = i.name ++ "_"

theorem concat_not_reserved {name : String} : name ++ "_" ∉ reservedWords := by
  intro hmem
  have hlast : ∀ word ∈ reservedWords, word.toList.getLast? ≠ some '_' := by
    decide
  exact hlast _ hmem (by simp)

theorem methodName_of_escapes (h : Escapes i j) : i.methodName = j.methodName := by
  obtain ⟨hreserved, hname⟩ := h
  rw [methodName, methodName, if_pos hreserved, hname, if_neg concat_not_reserved]

/-- Methods are confused only where a name is a reserved word with an underscore. -/
theorem methodName_eq_iff (hne : i.name ≠ j.name) :
    i.methodName = j.methodName ↔ Escapes i j ∨ Escapes j i := by
  constructor
  · intro h
    rw [methodName, methodName] at h
    split at h
    · rename_i hi
      split at h
      · exact absurd (String.append_left_inj _ |>.mp h) hne
      · exact .inl ⟨hi, h.symm⟩
    · split at h
      · rename_i hj
        exact .inr ⟨hj, h⟩
      · exact absurd h hne
  · rintro (h | h)
    · exact methodName_of_escapes h
    · exact (methodName_of_escapes h).symm

theorem Escapes.not_isSnakeCase (h : Escapes i j) : ¬ IsSnakeCase j.name := by
  rw [IsSnakeCase, h.2, String.toList_append]
  exact (Bool.not_eq_true _).mpr (snakeChars_concat_underscore true i.name.toList)

/-- Instructions of different names in snake case have different opcodes and methods. -/
theorem names_ne (hi : IsSnakeCase i.name) (hj : IsSnakeCase j.name) (hne : i.name ≠ j.name) :
    i.camelName ≠ j.camelName ∧ i.methodName ≠ j.methodName := by
  refine ⟨fun h => hne (eq_of_camelCase_eq hi hj h), fun h => ?_⟩
  rcases (methodName_eq_iff hne).mp h with hescapes | hescapes
  · exact hescapes.not_isSnakeCase hj
  · exact hescapes.not_isSnakeCase hi

end Instruction

namespace Legalizer

open Source

variable {insts : InstructionGroup} {g : RuleGroup} {i j : Instruction} {arms : List FunctionArm}

/-! ### Arms -/

theorem usable_of_generated (hgen : (groupEmission insts g).error? = none) (n : Nat) :
    ¬ Unusable g.rules n := by
  cases hms : matchers g with
  | error cause =>
      rw [groupEmission, hms] at hgen
      cases hgen
  | ok ms => exact (usable_of_matchersFrom hms).1 n

/-- An arm is for the instruction of the source of its rule. -/
theorem FunctionArm.IsOf.source {r : Rule} {a : FunctionArm} (h : a.IsOf insts r) :
    ∃ d ∈ r.src.defs, insts.get? d.value.head.inst = some a.inst := by
  obtain ⟨m, hof, hi, -⟩ := h
  obtain ⟨hsrc, -⟩ := Matcher.ofRule_eq_ok_iff.mp hof
  exact ⟨⟨m.outputs, ⟨m.head, m.args.map .var⟩⟩, hsrc ▸ List.mem_cons_self, hi⟩

/-- The arms of a function whose rules are for instructions with names in snake case have distinct
opcodes. -/
theorem nodup_opcodes (hreach : insts.Reachable) (hgen : (groupEmission insts g).error? = none)
    (hforall : List.Forall₂ (FunctionArm.IsOf insts) g.rules arms)
    (hsnake : ∀ r ∈ g.rules, ∀ d ∈ r.src.defs, ∀ i, insts.get? d.value.head.inst = some i →
      IsSnakeCase i.name) :
    (arms.map (·.inst.camelName)).Nodup := by
  rw [List.nodup_iff_getElem?_ne_getElem?]
  intro k n hkn hn heq
  rw [List.length_map] at hn
  have hk : k < arms.length := Nat.lt_trans hkn hn
  obtain ⟨hlength, hget⟩ := List.forall₂_iff_get.mp hforall
  have hk' : k < g.rules.length := hlength ▸ hk
  have hn' : n < g.rules.length := hlength ▸ hn
  obtain ⟨d, hd, hi⟩ := (hget k hk' hk).source
  obtain ⟨d', hd', hj⟩ := (hget n hn' hn).source
  have hopcode : arms[k].inst.camelName = arms[n].inst.camelName := by
    simpa [hk, hn] using heq
  -- rules for one instruction are refused, so these are two, and so are their names
  have hinst : d'.value.head.inst ≠ d.value.head.inst := fun hsame =>
    usable_of_generated hgen n (.repeated (List.getElem?_eq_getElem hn') hkn
      (List.getElem?_eq_getElem hk') hd' hd hsame)
  have hname : arms[k].inst.name ≠ arms[n].inst.name := fun hsame =>
    hinst (hreach.id_eq hj hi hsame.symm)
  exact (Instruction.names_ne (hsnake _ (List.getElem_mem hk') d hd _ hi)
    (hsnake _ (List.getElem_mem hn') d' hd' _ hj) hname).1 hopcode

/-- A function with arms of distinct opcodes takes each arm for its own. -/
theorem reached?_of_nodup (h : (arms.map (·.inst.camelName)).Nodup) {n : Nat} {a : FunctionArm}
    (ha : arms[n]? = some a) : reached? arms a.inst.camelName = some n :=
  findIdx?_key h ha

/-- **Distinct instructions are kept apart.**  Take two instructions of a group that was reached by
pushing.  Their methods are the same only when the name of one is a reserved word and that of the
other is the same with an underscore; when both names are in snake case, their opcodes and their
methods differ.  So when a function is generated for rules whose source instructions have names in
snake case, its arms have distinct opcodes, and for each there is an opcode that it is taken for. -/
theorem opcodes_kept_apart (hreach : insts.Reachable) :
    (∀ id id' i j, id ≠ id' → insts.get? id = some i → insts.get? id' = some j →
      (i.methodName = j.methodName ↔ i.Escapes j ∨ j.Escapes i) ∧
      (IsSnakeCase i.name → IsSnakeCase j.name →
        i.camelName ≠ j.camelName ∧ i.methodName ≠ j.methodName)) ∧
    ∀ g, (groupEmission insts g).error? = none →
      (∀ r ∈ g.rules, ∀ d ∈ r.src.defs, ∀ i, insts.get? d.value.head.inst = some i →
        IsSnakeCase i.name) →
      ∃ arms : List FunctionArm, List.Forall₂ (FunctionArm.IsOf insts) g.rules arms ∧
        (groupEmission insts g).lines = functionCode g arms ∧
        (arms.map (·.inst.camelName)).Nodup ∧
        ∀ n a, arms[n]? = some a → reached? arms a.inst.camelName = some n := by
  refine ⟨fun id id' i j hne hi hj => ?_, fun g hgen hsnake => ?_⟩
  · have hname : i.name ≠ j.name := fun hsame => hne (hreach.id_eq hi hj hsame)
    exact ⟨Instruction.methodName_eq_iff hname,
      fun hsi hsj => Instruction.names_ne hsi hsj hname⟩
  · obtain ⟨arms, hforall, hlines⟩ := exists_arms hgen
    have hnodup := nodup_opcodes hreach hgen hforall hsnake
    exact ⟨arms, hforall, hlines, hnodup, fun n a ha => reached?_of_nodup hnodup ha⟩

/-- The shared instructions have different opcodes and methods, and the arms of `selfDifference` and
`boundSum` are taken for theirs. -/
theorem shared_kept_apart :
    (∀ id id' i j, id ≠ id' → Shared.group.get? id = some i → Shared.group.get? id' = some j →
      i.camelName ≠ j.camelName ∧ i.methodName ≠ j.methodName) ∧
      ∃ a a' : FunctionArm,
        (groupEmission Shared.group ⟨"expand", "", [selfDifference, boundSum]⟩).lines =
          functionCode ⟨"expand", "", [selfDifference, boundSum]⟩ [a, a'] ∧
        reached? [a, a'] "Isub" = some 0 ∧ reached? [a, a'] "Iadd" = some 1 := by
  have hreach : Shared.group.Reachable := InstructionGroup.reachable_iff_nodup.mpr (by decide)
  have hsnake : ∀ i ∈ Shared.group.instructions, IsSnakeCase i.name := by decide
  have hgen :
      (groupEmission Shared.group ⟨"expand", "", [selfDifference, boundSum]⟩).error? = none := rfl
  obtain ⟨hnames, hgroups⟩ := opcodes_kept_apart hreach
  obtain ⟨arms, hforall, hlines, -, hreached⟩ := hgroups _ hgen
    fun r _ d _ i hi => hsnake i (List.mem_of_getElem? hi)
  obtain ⟨a, arms, ha, hrest, rfl⟩ := List.forall₂_cons_left_iff.mp hforall
  obtain ⟨a', arms, ha', hnil, rfl⟩ := List.forall₂_cons_left_iff.mp hrest
  obtain rfl := List.forall₂_nil_left_iff.mp hnil
  have hopcode : a.inst.camelName = "Isub" := by
    obtain ⟨d, hd, hi⟩ := ha.source
    rw [List.mem_singleton.mp hd] at hi
    rw [← Option.some.inj hi]
    rfl
  have hopcode' : a'.inst.camelName = "Iadd" := by
    obtain ⟨d, hd, hi⟩ := ha'.source
    rw [List.mem_singleton.mp hd] at hi
    rw [← Option.some.inj hi]
    rfl
  refine ⟨fun id id' i j hne hi hj => ?_, a, a', hlines, hopcode ▸ hreached 0 a rfl,
    hopcode' ▸ hreached 1 a' rfl⟩
  exact (hnames id id' i j hne hi hj).2 (hsnake i (List.mem_of_getElem? hi))
    (hsnake j (List.mem_of_getElem? hj))

/-- A group with the instructions `return` and `return_`, from a value to a value. -/
def escapedGroup : InstructionGroup where
  name := "custom"
  doc := ""
  instructions := ["return", "return_"].map fun name =>
    ⟨name, "", [Shared.valueOf "x" Shared.int], [Shared.valueOf "a" Shared.int], false⟩

/-- The rule `a << return(x) => a << return_(x)`. -/
def escapedReturn : Rule where
  site := "expand"
  src := ⟨.source, [⟨[Shared.a], ⟨⟨⟨0⟩, "return", []⟩, [.var Shared.x]⟩⟩]⟩
  dst := ⟨.destination, [⟨[Shared.a], ⟨⟨⟨1⟩, "return_", []⟩, [.var Shared.x]⟩⟩]⟩
  inputs := [Shared.x]
  roles := ⟨[(Shared.a, .output), (Shared.x, .input)]⟩

/-- The rule `a << return_(x) => a << return(x)`. -/
def plainReturn : Rule where
  site := "expand"
  src := ⟨.source, [⟨[Shared.a], ⟨⟨⟨1⟩, "return_", []⟩, [.var Shared.x]⟩⟩]⟩
  dst := ⟨.destination, [⟨[Shared.a], ⟨⟨⟨0⟩, "return", []⟩, [.var Shared.x]⟩⟩]⟩
  inputs := [Shared.x]
  roles := ⟨[(Shared.a, .output), (Shared.x, .input)]⟩

theorem escapedReturn_accepted : escapedReturn.Accepted escapedGroup.catalog := by
  have hvar : ∀ e ∈ [Expr.var Shared.x], e.Made escapedGroup.catalog := by
    simp [Expr.Made.var]
  exact Rule.accepted_of_close rfl rfl (.unbound rfl rfl rfl hvar) (.unbound rfl rfl rfl hvar)
    (by decide) (by decide) rfl

theorem plainReturn_accepted : plainReturn.Accepted escapedGroup.catalog := by
  have hvar : ∀ e ∈ [Expr.var Shared.x], e.Made escapedGroup.catalog := by
    simp [Expr.Made.var]
  exact Rule.accepted_of_close rfl rfl (.unbound rfl rfl rfl hvar) (.unbound rfl rfl rfl hvar)
    (by decide) (by decide) rfl

/-- Both instructions can be pushed, though their opcode and their method are the same.  Rules for
both are accepted and a function is generated for them, with two arms of one opcode, the second of
which is never taken. -/
theorem escapedGroup_confused :
    escapedGroup.Reachable ∧
      (∃ i j, escapedGroup.get? ⟨0⟩ = some i ∧ escapedGroup.get? ⟨1⟩ = some j ∧
        i.camelName = j.camelName ∧ i.methodName = j.methodName) ∧
      (∀ r ∈ [escapedReturn, plainReturn], r.Accepted escapedGroup.catalog) ∧
      ∃ a a' : FunctionArm, a.IsOf escapedGroup escapedReturn ∧ a'.IsOf escapedGroup plainReturn ∧
        (groupEmission escapedGroup ⟨"expand", "", [escapedReturn, plainReturn]⟩).lines =
          functionCode ⟨"expand", "", [escapedReturn, plainReturn]⟩ [a, a'] ∧
        a.inst.camelName = "Return" ∧ a'.inst.camelName = "Return" ∧
        ∀ opcode, reached? [a, a'] opcode ≠ some 1 := by
  have hgen : (groupEmission escapedGroup
      ⟨"expand", "", [escapedReturn, plainReturn]⟩).error? = none := rfl
  obtain ⟨arms, hforall, hlines⟩ := exists_arms hgen
  obtain ⟨a, arms, ha, hrest, rfl⟩ := List.forall₂_cons_left_iff.mp hforall
  obtain ⟨a', arms, ha', hnil, rfl⟩ := List.forall₂_cons_left_iff.mp hrest
  obtain rfl := List.forall₂_nil_left_iff.mp hnil
  have hopcode : a.inst.camelName = "Return" := by
    obtain ⟨d, hd, hi⟩ := ha.source
    rw [List.mem_singleton.mp hd] at hi
    rw [← Option.some.inj hi]
    rfl
  have hopcode' : a'.inst.camelName = "Return" := by
    obtain ⟨d, hd, hi⟩ := ha'.source
    rw [List.mem_singleton.mp hd] at hi
    rw [← Option.some.inj hi]
    rfl
  refine ⟨InstructionGroup.reachable_iff_nodup.mpr (by decide), ⟨_, _, rfl, rfl, rfl, rfl⟩,
    by simp [escapedReturn_accepted, plainReturn_accepted], a, a', ha, ha', hlines, hopcode,
    hopcode', fun opcode h => ?_⟩
  -- what the second arm is for, the first is for as well
  have hsecond := opcode_of_reached (a := a') rfl h
  rw [hopcode'] at hsecond
  simp [reached?, List.findIdx?_cons, hopcode, ← hsecond] at h

end Legalizer

end Isaforge
