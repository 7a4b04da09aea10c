import Isaforge.Proofs.Legalizer.Scope

/-!
# Blocks — the lines of one definition of a destination

Between its opening and its closing an arm has a block of lines for each definition of the
destination, in their order (`exists_arm_blocks`).  A block inserts the calls hoisted out of the
definition, and ends with the call of the definition itself: it is inserted for the outputs of the
definition, or replaces the matched instruction, and then they are the outputs of the source
(`Block`).

* `forall₂_flatten_of_blocks`: what relates each definition to its block relates all of them to the
  lines of the destination.
-/

namespace Isaforge.Legalizer

variable {insts : InstructionGroup} {m : Matcher} {i : Instruction}

/-- The line inserts the hoisted call. -/
def Hoists (insts : InstructionGroup) (c : NamedCall) (s : Statement) : Prop :=
  ∃ call, builderCall insts c.call.asCall = .ok call ∧ s = .hoisted c.name call

/-- The lines are those of a definition of the destination. -/
inductive Block (insts : InstructionGroup) (m : Matcher) (p : Definition × FlatSequence) :
    List Statement → Prop where
  | define {hoisted : List Statement} {call : BuilderCall} :
      List.Forall₂ (Hoists insts) p.2.hoisted hoisted →
      builderCall insts p.2.top.asCall = .ok call →
      Block insts m p
        (hoisted ++ [.define (p.1.outputs.map fun v => ⟨v.name, m.rule.isOutput v⟩) call])
  | replace {hoisted : List Statement} {call : BuilderCall} :
      p.1.outputs = m.outputs →
      List.Forall₂ (Hoists insts) p.2.hoisted hoisted →
      builderCall insts p.2.top.asCall = .ok call →
      Block insts m p (hoisted ++ [.replace call])

/-! ### The blocks of a destination -/

theorem forall₂_hoists {calls : FlatSequence} {ss : List Statement}
    (h : hoistedStatements insts calls = ss.map .ok) :
    List.Forall₂ (Hoists insts) calls.hoisted ss := by
  refine (forall₂_of_emitted h).imp fun c s hc => ?_
  obtain ⟨call, hcall, rfl⟩ := map_eq_ok_iff.mp hc
  exact ⟨call, hcall, rfl⟩

/-- The lines of a definition that is inserted. -/
theorem block_of_definitionStatements {p : Definition × FlatSequence}
    (houtputs : p.1.outputs ⊆ m.rule.roles.vars) {ss : List Statement}
    (h : definitionStatements insts m.rule p = ss.map .ok) : Block insts m p ss := by
  obtain ⟨hoisted, top, rfl, hhoisted, htop⟩ := List.map_eq_append_iff.mp h.symm
  obtain ⟨s, rfl, hs⟩ := List.map_eq_singleton_iff.mp htop
  rw [defineStatement_eq houtputs] at hs
  obtain ⟨call, hcall, rfl⟩ := map_eq_ok_iff.mp hs.symm
  exact .define (forall₂_hoists hhoisted.symm) hcall

/-- The lines of a definition that replaces the matched instruction. -/
theorem block_of_replaceStatements {p : Definition × FlatSequence} (hlast : p.1.outputs = m.outputs)
    {ss : List Statement} (h : replaceStatements insts p.2 = ss.map .ok) : Block insts m p ss := by
  obtain ⟨hoisted, top, rfl, hhoisted, htop⟩ := List.map_eq_append_iff.mp h.symm
  obtain ⟨s, rfl, hs⟩ := List.map_eq_singleton_iff.mp htop
  obtain ⟨call, hcall, rfl⟩ := map_eq_ok_iff.mp hs.symm
  exact .replace hlast (forall₂_hoists hhoisted.symm) hcall

theorem exists_blocks {l : List (Definition × FlatSequence)}
    (hl : ∀ p ∈ l, p.1.outputs ⊆ m.rule.roles.vars) {ss : List Statement}
    (h : l.flatMap (definitionStatements insts m.rule) = ss.map .ok) :
    ∃ blocks, ss = blocks.flatten ∧ List.Forall₂ (Block insts m) l blocks := by
  induction l generalizing ss with
  | nil =>
      obtain rfl : ss = [] := by simpa using h.symm
      exact ⟨[], rfl, .nil⟩
  | cons p l ih =>
      rw [List.flatMap_cons] at h
      obtain ⟨ss₁, ss₂, rfl, h₁, h₂⟩ := List.map_eq_append_iff.mp h.symm
      obtain ⟨blocks, rfl, hblocks⟩ := ih (fun q hq => hl q (List.mem_cons_of_mem _ hq)) h₂.symm
      have hfirst := block_of_definitionStatements (hl p List.mem_cons_self) h₁.symm
      exact ⟨ss₁ :: blocks, List.flatten_cons.symm, .cons hfirst hblocks⟩

/-- **The blocks of a destination**, one for each of its definitions. -/
theorem exists_blocks_buildStatements
    (hroles : m.rule.roles = .classify m.rule.src.defs m.rule.dst.defs) {built : List Statement}
    (h : buildStatements insts m.rule m.replaces m.destination = built.map .ok) :
    ∃ blocks, built = blocks.flatten ∧ List.Forall₂ (Block insts m) m.destination blocks := by
  have houtputs : ∀ p ∈ m.destination, p.1.outputs ⊆ m.rule.roles.vars :=
    fun p hp => outputs_subset_of_mem_destination hroles hp
  cases hreplaces : m.replaces with
  | false =>
      rw [hreplaces, buildStatements_of_not] at h
      exact exists_blocks houtputs h
  | true =>
      obtain ⟨init, last, s, -, hlast, hdestination⟩ := m.exists_last_of_replaces hreplaces
      rw [hdestination] at houtputs
      rw [hreplaces, hdestination, buildStatements_replace] at h
      obtain ⟨ss₁, ss₂, rfl, h₁, h₂⟩ := List.map_eq_append_iff.mp h.symm
      obtain ⟨blocks, rfl, hblocks⟩ :=
        exists_blocks (fun p hp => houtputs p (List.mem_append_left _ hp)) h₁.symm
      have hreplacing : Block insts m (last, _) ss₂ := block_of_replaceStatements hlast h₂.symm
      refine ⟨blocks ++ [ss₂], by simp, ?_⟩
      rw [hdestination]
      exact List.rel_append hblocks (.cons hreplacing .nil)

/-- **The blocks of an arm** stand between its opening and its closing. -/
theorem exists_arm_blocks {arm : List Statement}
    (hsrc : m.rule.src.defs = [⟨m.outputs, ⟨m.head, m.args.map .var⟩⟩])
    (hroles : m.rule.roles = .classify m.rule.src.defs m.rule.dst.defs)
    (harm : m.statements insts i = arm.map .ok) :
    ∃ blocks, arm = m.opening insts i ++ blocks.flatten ++ m.closing ∧
      List.Forall₂ (Block insts m) m.destination blocks := by
  obtain ⟨built, rfl, hbuilt⟩ := exists_arm_parts (outputs_subset_vars hsrc hroles) harm
  obtain ⟨blocks, rfl, hblocks⟩ := exists_blocks_buildStatements hroles hbuilt
  exact ⟨blocks, rfl, hblocks⟩

/-! ### From blocks to lines -/

/-- What relates each definition to its block relates the definitions to the lines. -/
theorem forall₂_flatten_of_blocks {α : Type} {R : α → Statement → Prop}
    {f : Definition × FlatSequence → List α} {l : List (Definition × FlatSequence)}
    {blocks : List (List Statement)} (h : List.Forall₂ (Block insts m) l blocks)
    (hblock : ∀ p ∈ l, ∀ ss, Block insts m p ss → List.Forall₂ R (f p) ss) :
    List.Forall₂ R (l.flatMap f) blocks.flatten := by
  induction h with
  | nil => exact .nil
  | @cons p ss l blocks hp _ ih =>
      rw [List.flatMap_cons, List.flatten_cons]
      exact List.rel_append (hblock p List.mem_cons_self ss hp)
        (ih fun q hq => hblock q (List.mem_cons_of_mem _ hq))

end Isaforge.Legalizer
