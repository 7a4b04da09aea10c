import Isaforge.Proofs.Legalizer.ControllingType
import Isaforge.Proofs.Legalizer.Results

/-!
# Result counts — the lines of an arm have as many results as the rule says

How many results an application has is not for the instruction to say: a definition has the outputs
that the rule gives it, and a nested application is used as one value (`Definition.counts`).  No
catalog that a rule is put together against knows better, and the lines of an arm follow the rule
(`followsRule_arm`).  So they follow the instructions when the rule agrees with them, which is for
its author to see to (`ResultsAgree`).

* `indexed_arm`: a line that binds a detached result reads the one at the place of the output.
* `results_counted`: the results in an arm are counted as in the rule, and as the instructions have
  them exactly when the rule agrees with them.
* `doubledSum_generated`: a rule that does not agree is accepted, and a function generated for it.
-/

namespace Isaforge

/-! ### What a rule says -/

/-- The heads of the applications of a definition, in the order they are called, with the number of
results that the rule takes each to have. -/
def Definition.counts (d : Definition) : List (Head × Nat) :=
  (Expr.headsAll d.value.args).map (·, 1) ++ [(d.value.head, d.outputs.length)]

theorem Definition.map_fst_counts (d : Definition) : d.counts.map (·.1) = d.value.expr.heads := by
  obtain ⟨outputs, head, args⟩ := d
  simp [counts, Application.expr, Expr.heads, Function.comp_def]

/-- The definition takes its instructions to have as many results as they have output operands. -/
structure ResultsAgree (insts : InstructionGroup) (d : Definition) : Prop where
  own : ∃ i, insts.get? d.value.head.inst = some i ∧ i.outs.length = d.outputs.length
  nested : ∀ e ∈ d.value.args, ∀ a : Application, a.Within e →
    ∃ i, insts.get? a.head.inst = some i ∧ i.outs.length = 1

theorem resultsAgree_iff {insts : InstructionGroup} {d : Definition} :
    ResultsAgree insts d ↔
      ∀ q ∈ d.counts, ∃ i, insts.get? q.1.inst = some i ∧ i.outs.length = q.2 := by
  have hnested : ∀ head, head ∈ Expr.headsAll d.value.args ↔
      ∃ e ∈ d.value.args, ∃ a : Application, a.Within e ∧ a.head = head := by
    intro head
    simp only [Expr.headsAll_eq_flatMap, List.mem_flatMap, Expr.mem_heads_iff]
  constructor
  · intro h q hq
    rcases List.mem_append.mp hq with hq | hq
    · obtain ⟨head, hhead, rfl⟩ := List.mem_map.mp hq
      obtain ⟨e, he, a, ha, rfl⟩ := (hnested head).mp hhead
      exact h.nested e he a ha
    · obtain rfl := List.mem_singleton.mp hq
      exact h.own
  · intro h
    refine ⟨h _ (List.mem_append_right _ (List.mem_singleton_self _)), fun e he a ha => ?_⟩
    have hhead := (hnested a.head).mpr ⟨e, he, a, ha, rfl⟩
    exact h _ (List.mem_append_left _ (List.mem_map_of_mem hhead))

instance (insts : InstructionGroup) (d : Definition) : Decidable (ResultsAgree insts d) :=
  decidable_of_iff
    (∀ q ∈ d.counts, (insts.get? q.1.inst).any (·.outs.length = q.2)) <| by
      simp only [resultsAgree_iff, Option.any_eq_true, decide_eq_true_iff]

end Isaforge

namespace Isaforge.Legalizer

open Source

variable {insts : InstructionGroup} {g : RuleGroup} {r : Rule} {m : Matcher} {i : Instruction}

/-! ### What a line says -/

/-- How many results a line with a call has: those that it binds, and when the call replaces the
matched instruction, the `outputs` of the source. -/
def Statement.resultCount? (outputs : Nat) : Statement → Option Nat
  | .hoisted _ _ => some 1
  | .define results _ => some results.length
  | .replace _ => some outputs
  | .remark _ | .bindType | .bindOperand _ _ | .detach | .bindResult _ _ | .gap | .remove
  | .done => none

/-- The line binds so many results of the call, and attaches results to as many, or it replaces the
matched instruction. -/
inductive Binds (outputs n : Nat) (call : String) : String → Prop where
  | insert {names : List String} : names.length = n →
      Binds outputs n call
        ("let " ++ Definition.bindingText names ++ " = dfg.ins(pos)." ++ call ++ ";")
  | attach {names slots : List String} : names.length = n → slots.length = n →
      Binds outputs n call
        ("let " ++ Definition.bindingText names ++ " = dfg.ins(pos).with_results([" ++
          ", ".intercalate slots ++ "])." ++ call ++ ";")
  | replace : n = outputs → Binds outputs n call ("dfg.replace(inst)." ++ call ++ ";")

/-- The line makes the call of an application that the rule takes to have so many results. -/
def Statement.FollowsRule (insts : InstructionGroup) (outputs : Nat) (q : Head × Nat)
    (s : Statement) : Prop :=
  ∃ call, s.call? = some call ∧ CallsFor insts q.1 call ∧ s.resultCount? outputs = some q.2 ∧
    Binds outputs q.2 call.text s.text

/-- The line has as many results as the instruction of its call has output operands. -/
def Statement.FollowsInstruction (insts : InstructionGroup) (outputs : Nat) (head : Head)
    (s : Statement) : Prop :=
  ∃ i, insts.get? head.inst = some i ∧ s.resultCount? outputs = some i.outs.length

/-- The lines of an arm that make a call. -/
def callLines (arm : List Statement) : List Statement :=
  arm.filter (·.call?.isSome)

theorem binds_hoisted (outputs : Nat) (name : String) (call : BuilderCall) :
    Binds outputs 1 call.text (Statement.hoisted name call).text := by
  have htext : (Statement.hoisted name call).text =
      "let " ++ Definition.bindingText [name] ++ " = dfg.ins(pos)." ++ call.text ++ ";" := rfl
  rw [htext]
  exact .insert rfl

theorem binds_define (outputs : Nat) (results : List Result) (call : BuilderCall) :
    Binds outputs results.length call.text (Statement.define results call).text := by
  have hnames : (results.map (·.name)).length = results.length := List.length_map _
  cases hreused : results.any (·.reused) with
  | true =>
      have htext : (Statement.define results call).text =
          "let " ++ Definition.bindingText (results.map (·.name)) ++
            " = dfg.ins(pos).with_results([" ++ ", ".intercalate (results.map (·.slot)) ++ "])." ++
            call.text ++ ";" := by
        simp [Statement.text_define, builderText, hreused, ← String.toList_inj,
          String.toList_append]
      rw [htext]
      exact .attach hnames (List.length_map _)
  | false =>
      have htext : (Statement.define results call).text =
          "let " ++ Definition.bindingText (results.map (·.name)) ++ " = dfg.ins(pos)." ++
            call.text ++ ";" := by
        simp [Statement.text_define, builderText, hreused, ← String.toList_inj,
          String.toList_append]
      rw [htext]
      exact .insert hnames

/-! ### Detached results -/

section

variable {arm : List Statement}
  (hsrc : m.rule.src.defs = [⟨m.outputs, ⟨m.head, m.args.map .var⟩⟩])
  (hroles : m.rule.roles = .classify m.rule.src.defs m.rule.dst.defs)
  (harm : m.statements insts i = arm.map .ok)

theorem exists_output_of_mem_detachStatements {name : String} {index : Nat}
    (h : .bindResult name index ∈ detachStatements m) :
    ∃ v, m.outputs[index]? = some v ∧ v.name = name := by
  rw [detachStatements] at h
  split at h
  · cases h
  · rcases List.mem_cons.mp h with h | h
    · cases h
    · obtain ⟨⟨v, n⟩, hp, heq⟩ := List.mem_map.mp h
      cases heq
      exact ⟨v, List.mk_mem_zipIdx_iff_getElem?.mp (List.mem_filter.mp hp).1, rfl⟩

include hsrc hroles harm

/-- A line that binds a detached result reads the one at the place of the output. -/
theorem indexed_arm {name : String} {index : Nat} (h : .bindResult name index ∈ arm) :
    ∃ v, m.outputs[index]? = some v ∧ v.name = name := by
  obtain ⟨built, rfl, hmakes⟩ := exists_arm_lines hsrc hroles harm
  rcases List.mem_append.mp h with h | h
  · rcases List.mem_append.mp h with h | h
    · simp only [Matcher.opening, List.mem_append, List.mem_singleton] at h
      rcases h with (((h | h) | h) | h) | h
      · cases h
      · split at h
        · cases List.mem_singleton.mp h
        · cases h
      · obtain ⟨v, -, place, h⟩ := exists_of_mem_bindOperands h
        cases h
      · split at h
        · cases h
        · exact exists_output_of_mem_detachStatements h
      · cases h
    · cases hmakes _ h
  · rcases of_mem_closing h with h | h
    · cases h
    · cases h

end

/-! ### Calls -/

/-- The lines of the calls hoisted out of a definition follow the rule. -/
theorem followsRule_hoisted (outputs : Nat) {heads : List Head} {calls : List NamedCall}
    {ss : List Statement} (hops : calls.map (·.call.op) = heads.map Head.operation)
    (h : List.Forall₂ (Hoists insts) calls ss) :
    List.Forall₂ (Statement.FollowsRule insts outputs) (heads.map (·, 1)) ss := by
  have hop : List.Forall₂ (fun op s => ∃ c : NamedCall, c.call.op = op ∧ Hoists insts c s)
      (calls.map (·.call.op)) ss :=
    List.forall₂_map_left_iff.mpr (h.imp fun c _ hc => ⟨c, rfl, hc⟩)
  rw [hops, List.forall₂_map_left_iff] at hop
  refine List.forall₂_map_left_iff.mpr (hop.imp fun head s hs => ?_)
  obtain ⟨c, hc, call, hcall, rfl⟩ := hs
  exact ⟨call, rfl, callsFor_of_builderCall hc hcall, rfl, binds_hoisted outputs c.name call⟩

/-- The lines of a definition follow the rule. -/
theorem followsRule_block {p : Definition × FlatSequence} {ss : List Statement}
    (hops : p.2.calls.map (·.op) = p.1.value.expr.heads.map Head.operation)
    (h : Block insts m p ss) :
    List.Forall₂ (Statement.FollowsRule insts m.outputs.length) p.1.counts ss := by
  obtain ⟨⟨outputs, head, args⟩, hoisted, top⟩ := p
  rw [FlatSequence.calls, List.map_append, List.map_map, Application.expr, Expr.heads,
    List.map_append] at hops
  obtain ⟨hhoisted, htop⟩ := List.append_inj' hops rfl
  have htop : top.op = head.operation := by simpa using htop
  cases h with
  | @define ss call hh hcall =>
      refine List.rel_append (followsRule_hoisted _ hhoisted hh) (.cons ?_ .nil)
      have hbinds := binds_define m.outputs.length
        (outputs.map fun v => ⟨v.name, m.rule.isOutput v⟩) call
      rw [List.length_map] at hbinds
      exact ⟨call, rfl, callsFor_of_builderCall htop hcall, by simp [Statement.resultCount?],
        hbinds⟩
  | @replace ss call hlast hh hcall =>
      refine List.rel_append (followsRule_hoisted _ hhoisted hh) (.cons ?_ .nil)
      have hlength : outputs.length = m.outputs.length := congrArg List.length hlast
      exact ⟨call, rfl, callsFor_of_builderCall htop hcall, congrArg some hlength.symm,
        .replace hlength⟩

theorem ops_of_mem_flattenAll {σ : Type} (next : Supply σ) {ds : List Definition} {s : σ}
    {p : Definition × FlatSequence} (hp : p ∈ Matcher.flattenAll next ds s) :
    p.2.calls.map (·.op) = p.1.value.expr.heads.map Head.operation := by
  induction ds generalizing s with
  | nil => cases hp
  | cons d ds ih =>
      rw [flattenAll_cons] at hp
      rcases List.mem_cons.mp hp with rfl | hp
      · exact CallArg.ops_flatten next d.value s
      · exact ih hp

section

variable {arm : List Statement}
  (hsrc : m.rule.src.defs = [⟨m.outputs, ⟨m.head, m.args.map .var⟩⟩])
  (hroles : m.rule.roles = .classify m.rule.src.defs m.rule.dst.defs)
  (harm : m.statements insts i = arm.map .ok)

include hsrc hroles harm

/-- **The lines with calls follow the rule.** -/
theorem followsRule_arm :
    List.Forall₂ (Statement.FollowsRule insts m.outputs.length)
      (m.rule.dst.defs.flatMap Definition.counts) (callLines arm) := by
  obtain ⟨blocks, rfl, hblocks⟩ := exists_arm_blocks hsrc hroles harm
  have hlines : List.Forall₂ (Statement.FollowsRule insts m.outputs.length)
      (m.destination.flatMap (·.1.counts)) blocks.flatten :=
    forall₂_flatten_of_blocks hblocks fun p hp ss h =>
      followsRule_block (ops_of_mem_flattenAll _ hp) h
  have hdefs : m.destination.flatMap (·.1.counts) = m.rule.dst.defs.flatMap Definition.counts := by
    rw [← map_fst_flattenAll (Fresh.supply m.taken) m.rule.dst.defs 0, List.flatMap_map]
    rfl
  have hopening : callLines (m.opening insts i) = [] :=
    List.filter_eq_nil_iff.mpr fun s hs => by simp [(opens_of_mem hs).call?_eq_none]
  have hclosing : callLines m.closing = [] := by
    refine List.filter_eq_nil_iff.mpr fun s hs => ?_
    rcases of_mem_closing hs with rfl | rfl
    · simp [Statement.call?]
    · simp [Statement.call?]
  have hbuilt : callLines blocks.flatten = blocks.flatten := by
    have hcalls : List.Forall₂ (fun s q => s.call?.isSome ∧ s.FollowsRule insts m.outputs.length q)
        blocks.flatten (m.destination.flatMap (·.1.counts)) := by
      refine hlines.flip.imp fun s q h => ⟨?_, h⟩
      obtain ⟨call, hcall, -⟩ := h
      rw [hcall]
      rfl
    exact List.filter_eq_self.mpr ((List.forall₂_and_left _ _).mp hcalls).1
  simp only [callLines] at hopening hclosing hbuilt ⊢
  rw [List.filter_append, List.filter_append, hopening, hclosing, hbuilt, List.nil_append,
    List.append_nil, ← hdefs]
  exact hlines

end

theorem followsInstruction_iff {outputs : Nat} {q : Head × Nat} {s : Statement}
    (h : s.FollowsRule insts outputs q) :
    s.FollowsInstruction insts outputs q.1 ↔
      ∃ i, insts.get? q.1.inst = some i ∧ i.outs.length = q.2 := by
  obtain ⟨call, -, -, hcount, -⟩ := h
  rw [Statement.FollowsInstruction, hcount]
  simp [eq_comm]

theorem forall₂_iff_of_forall₂ {α β : Type} {R S : α → β → Prop} {p : α → Prop} {as : List α}
    {bs : List β} (h : List.Forall₂ R as bs) (hS : ∀ a b, R a b → (S a b ↔ p a)) :
    List.Forall₂ S as bs ↔ ∀ a ∈ as, p a := by
  induction h with
  | nil => simp
  | cons hab _ ih => rw [List.forall₂_cons, hS _ _ hab, ih, List.forall_mem_cons]

/-- Lines that follow the rule follow the instructions when the rule does. -/
theorem followsInstruction_iff_resultsAgree {outputs : Nat} {ds : List Definition}
    {lines : List Statement}
    (h : List.Forall₂ (Statement.FollowsRule insts outputs) (ds.flatMap Definition.counts) lines) :
    List.Forall₂ (Statement.FollowsInstruction insts outputs) (ds.flatMap (·.value.expr.heads))
      lines ↔ ∀ d ∈ ds, ResultsAgree insts d := by
  have hheads : ds.flatMap (·.value.expr.heads) = (ds.flatMap Definition.counts).map (·.1) := by
    rw [List.map_flatMap]
    exact List.flatMap_congr fun d _ => d.map_fst_counts.symm
  have hagree : (∀ d ∈ ds, ResultsAgree insts d) ↔
      ∀ q ∈ ds.flatMap Definition.counts, ∃ i, insts.get? q.1.inst = some i ∧
        i.outs.length = q.2 := by
    simp only [List.forall_mem_flatMap, resultsAgree_iff]
  rw [hheads, List.forall₂_map_left_iff, hagree]
  exact forall₂_iff_of_forall₂ h fun q s => followsInstruction_iff

/-! ### The results of an arm -/

/-- How the results of the calls in the arm of a rule are counted, the matched instruction
included. -/
structure ResultsCounted (insts : InstructionGroup) (r : Rule) (i : Instruction)
    (arm : List Statement) : Prop where
  /-- A line that binds a detached result reads the one at the place of an output of the source. -/
  indexed : ∀ name index, .bindResult name index ∈ arm →
    ∃ v, r.src.outputs[index]? = some v ∧ v.name = name
  /-- The matched instruction has this result when the source is right about it. -/
  index_lt : (∀ d ∈ r.src.defs, ResultsAgree insts d) →
    ∀ name index, .bindResult name index ∈ arm → index < i.outs.length
  /-- The lines with calls are those of the applications of the destination, with the results that
  the rule takes these to have. -/
  counted : List.Forall₂ (Statement.FollowsRule insts r.src.outputs.length)
    (r.dst.defs.flatMap Definition.counts) (callLines arm)
  /-- They are as many as the instructions have when the destination is right about them, and only
  then. -/
  agree_iff : List.Forall₂ (Statement.FollowsInstruction insts r.src.outputs.length)
      (r.dst.defs.flatMap (·.value.expr.heads)) (callLines arm) ↔
    ∀ d ∈ r.dst.defs, ResultsAgree insts d

/-- **Results are counted as in the rule.**  Take a rule of a group that a function is generated
for, closed over any catalog.  Its arm reads detached results at the places of the outputs of the
source, and each of its calls has as many results as the rule takes the application to have: the
outputs of the definition, or one when it is nested.  So the results are those of the instructions
when the rule agrees with them. -/
theorem results_counted {c : Catalog} (hgen : (groupEmission insts g).error? = none)
    (hr : r ∈ g.rules) (hclosed : r.ClosedOver c) :
    ∃ (m : Matcher) (i : Instruction) (arm : List Statement),
      Matcher.ofRule r = .ok m ∧ insts.get? m.head.inst = some i ∧
      m.statements insts i = arm.map .ok ∧
      (armCode i arm).nested.nested <:+: (groupEmission insts g).lines ∧
      ResultsCounted insts r i arm := by
  obtain ⟨m, i, arm, hof, hi, harm, hcode⟩ := exists_arm hgen hr
  obtain ⟨hsrc, rfl⟩ := Matcher.ofRule_eq_ok_iff.mp hof
  have hroles := hclosed.sound.roles_eq
  have houtputs : m.rule.src.outputs = m.outputs := source_outputs hsrc
  have hindexed : ∀ name index, .bindResult name index ∈ arm →
      ∃ v, m.rule.src.outputs[index]? = some v ∧ v.name = name :=
    fun name index h => houtputs.symm ▸ indexed_arm hsrc hroles harm h
  have hcounted := followsRule_arm hsrc hroles harm
  rw [← houtputs] at hcounted
  refine ⟨m, i, arm, hof, hi, harm, hcode, hindexed, ?_, hcounted,
    followsInstruction_iff_resultsAgree hcounted⟩
  intro hagree name index h
  obtain ⟨v, hv, -⟩ := hindexed name index h
  obtain ⟨i', hi', hlength⟩ := (hagree _ (hsrc ▸ List.mem_cons_self)).own
  obtain rfl : i = i' := Option.some.inj (hi.symm.trans hi')
  rw [hlength, ← houtputs]
  exact (List.getElem?_eq_some_iff.mp hv).1

/-- The arm of `splitSum` counts results as its instructions do. -/
theorem splitSum_counted :
    ∃ (m : Matcher) (i : Instruction) (arm : List Statement),
      Matcher.ofRule splitSum = .ok m ∧ Shared.group.get? m.head.inst = some i ∧
      m.statements Shared.group i = arm.map .ok ∧
      (armCode i arm).nested.nested <:+:
        (groupEmission Shared.group ⟨"expand", "", [splitSum]⟩).lines ∧
      ResultsCounted Shared.group splitSum i arm ∧
      (∀ name index, .bindResult name index ∈ arm → index < i.outs.length) ∧
      List.Forall₂ (Statement.FollowsInstruction Shared.group splitSum.src.outputs.length)
        (splitSum.dst.defs.flatMap (·.value.expr.heads)) (callLines arm) := by
  have hgen : (groupEmission Shared.group ⟨"expand", "", [splitSum]⟩).error? = none := rfl
  obtain ⟨m, i, arm, hof, hi, harm, hcode, hcounted⟩ :=
    results_counted hgen List.mem_cons_self splitSum_closed
  have hagree : ∀ d ∈ splitSum.src.defs ++ splitSum.dst.defs, ResultsAgree Shared.group d := by
    decide
  refine ⟨m, i, arm, hof, hi, harm, hcode, hcounted, ?_, ?_⟩
  · exact hcounted.index_lt fun d hd => hagree d (List.mem_append_left _ hd)
  · exact hcounted.agree_iff.mpr fun d hd => hagree d (List.mem_append_right _ hd)

/-- The rule `(a, b) << isub(x, y) => (b, a) << iadd(x, iadd_cout(x, y))`. -/
def doubledSum : Rule where
  site := "expand"
  src := ⟨.source, [⟨[⟨2, "a"⟩, ⟨3, "b"⟩],
    ⟨⟨⟨4⟩, "isub", []⟩, [.var ⟨0, "x"⟩, .var ⟨1, "y"⟩]⟩⟩]⟩
  dst := ⟨.destination, [⟨[⟨3, "b"⟩, ⟨2, "a"⟩], ⟨⟨⟨3⟩, "iadd", []⟩, [.var ⟨0, "x"⟩,
    .app ⟨⟨9⟩, "iadd_cout", []⟩ [.var ⟨0, "x"⟩, .var ⟨1, "y"⟩]]⟩⟩]⟩
  inputs := [⟨0, "x"⟩, ⟨1, "y"⟩]
  roles := ⟨[(⟨2, "a"⟩, .output), (⟨3, "b"⟩, .output), (⟨0, "x"⟩, .input), (⟨1, "y"⟩, .input)]⟩

theorem doubledSum_accepted : doubledSum.Accepted Shared.group.catalog := by
  have hvars : ∀ e ∈ [Expr.var ⟨0, "x"⟩, .var ⟨1, "y"⟩], e.Made Shared.group.catalog := by
    simp [Expr.Made.var]
  have hsum : (Expr.app ⟨⟨9⟩, "iadd_cout", []⟩ [.var ⟨0, "x"⟩, .var ⟨1, "y"⟩]).Made
      Shared.group.catalog := .unbound rfl rfl rfl hvars
  refine Rule.accepted_of_close rfl rfl (.unbound rfl rfl rfl hvars) (.unbound rfl rfl rfl ?_)
    (by decide) (by decide) rfl
  simp [Expr.Made.var, hsum]

/-- A rule that does not agree with its instructions is accepted, and a function generated for it.
A difference has one result, and the arm reads a second; a sum with carry has two, and the arm binds
one; a sum has one, and the arm binds two. -/
theorem doubledSum_generated :
    doubledSum.Accepted Shared.group.catalog ∧
      (groupEmission Shared.group ⟨"expand", "", [doubledSum]⟩).error? = none ∧
      ∃ (m : Matcher) (i sumCarry sum : Instruction) (arm : List Statement),
        Matcher.ofRule doubledSum = .ok m ∧ Shared.group.get? m.head.inst = some i ∧
        m.statements Shared.group i = arm.map .ok ∧
        (armCode i arm).nested.nested <:+:
          (groupEmission Shared.group ⟨"expand", "", [doubledSum]⟩).lines ∧
        i.outs.length = 1 ∧ .bindResult "b" 1 ∈ arm ∧
        Shared.group.get? ⟨9⟩ = some sumCarry ∧ sumCarry.methodName = "iadd_cout" ∧
        sumCarry.outs.length = 2 ∧
        Shared.group.get? ⟨3⟩ = some sum ∧ sum.methodName = "iadd" ∧ sum.outs.length = 1 ∧
        (callLines arm).map (·.text) =
          ["let tmp1 = dfg.ins(pos).iadd_cout(x, y);",
            "let (b, a) = dfg.ins(pos).with_results([Some(b), Some(a)]).iadd(x, tmp1);"] := by
  have hgen : (groupEmission Shared.group ⟨"expand", "", [doubledSum]⟩).error? = none := rfl
  obtain ⟨m, i, arm, hof, hi, harm, hcode⟩ := exists_arm hgen List.mem_cons_self
  have hm : Matcher.ofRule doubledSum = .ok ⟨doubledSum, [⟨2, "a"⟩, ⟨3, "b"⟩],
    ⟨⟨4⟩, "isub", []⟩, [⟨0, "x"⟩, ⟨1, "y"⟩]⟩ := rfl
  obtain rfl := Except.ok.inj (hm.symm.trans hof)
  cases hi
  have harm' := eq_filterMap_of_map_ok harm
  refine ⟨doubledSum_accepted, hgen, _, _, _, _, arm, hof, rfl, harm, hcode, rfl, ?_, rfl, rfl, rfl,
    rfl, rfl, rfl, ?_⟩
  · rw [harm']
    decide
  · rw [harm']
    rfl

end Isaforge.Legalizer
