import Mathlib.Data.List.Flatten
import Isaforge.Proofs.Characters
import Isaforge.Proofs.Legalizer.Names

/-!
# Results — the results of the matched instruction are attached again

A line of an arm says by its first characters what it does with the results of the matched
instruction (`ResultUse.ofLine?`), because the names in it have no character that could end a `let`
early or begin a list (`Unmarked`).

* `ofLine?_text`: the text of a line says what its statement does.
* `withUse_definitions`: of the statements that define the variables of a destination, those attach
  results whose definition has an output of the rule.
* `exists_replace`, `exists_attach`: the two ways to write an arm.
* `arm_reattaches`: an arm replaces the instruction in place, or gives each output of the rule to
  one call.
-/

namespace Isaforge.Legalizer

/-! ### Reading lines -/

/-- What a line does with the matched instruction or its results. -/
inductive ResultUse where
  /-- It replaces the instruction by a call. -/
  | replace
  /-- It detaches the results. -/
  | detach
  /-- It binds one of the detached results. -/
  | bind
  /-- It hands results to the builder of a call. -/
  | attach
  /-- It removes the instruction. -/
  | remove
deriving DecidableEq

namespace ResultUse

/-- What a `let` does that binds the value, which begins with the equals sign. -/
def ofValue? (value : List Char) : Option ResultUse :=
  if value = "= dfg.detach_results(inst);".toList then some .detach
  else if "= results[".toList.isPrefixOf value then some .bind
  else if "= dfg.ins(pos).with_results([".toList.isPrefixOf value then some .attach
  else none

/-- What a line does, by its text: a `let` does what the value does, which begins at the first
equals sign. -/
def ofLine? (line : List Char) : Option ResultUse :=
  if "dfg.replace(inst).".toList.isPrefixOf line then some .replace
  else if line = "assert_eq!(pos.remove_inst(), inst);".toList then some .remove
  else if "let ".toList.isPrefixOf line then ofValue? (line.dropWhile (· ≠ '='))
  else none

end ResultUse

/-- What the statement does. -/
def Statement.resultUse? : Statement → Option ResultUse
  | .replace _ => some .replace
  | .detach => some .detach
  | .bindResult _ _ => some .bind
  | .define results _ => if results.any (·.reused) then some .attach else none
  | .remove => some .remove
  | .remark _ | .bindType | .bindOperand _ _ | .gap | .hoisted _ _ | .done => none

/-- Neither the equals sign nor a bracket is in the text: identifiers have none. -/
def Unmarked (s : String) : Prop :=
  Free ['=', '['] s

instance (s : String) : Decidable (Unmarked s) :=
  inferInstanceAs (Decidable (Free ['=', '['] s))

open ResultUse

/-- A `let` does what the value does that it binds. -/
theorem ofLine?_let {name : List Char} (hname : '=' ∉ name) (value : List Char) :
    ofLine? ("let ".toList ++ name ++ ' ' :: '=' :: value) = ofValue? ('=' :: value) := by
  have hvalue : ("let ".toList ++ name ++ ' ' :: '=' :: value).dropWhile (· ≠ '=') =
      '=' :: value := by
    have hfree : ∀ c ∈ "let ".toList ++ name ++ [' '], (c ≠ '=' : Bool) = true := by
      intro c hc
      have hne : c ≠ '=' := by
        rintro rfl
        simp [hname] at hc
      simpa using hne
    rw [List.append_cons, List.dropWhile_append_of_pos hfree]
    rfl
  have hlet : "let ".toList = ['l', 'e', 't', ' '] := by simp
  rw [ofLine?, hvalue, hlet]
  simp

theorem ofLine?_let_text {name : String} (hname : '=' ∉ name.toList) (value : String) :
    ofLine? ("let " ++ name ++ " = " ++ value).toList = ofValue? ("= " ++ value).toList := by
  have hline : ("let " ++ name ++ " = " ++ value).toList =
      "let ".toList ++ name.toList ++ ' ' :: '=' :: ' ' :: value.toList := by
    simp [String.toList_append]
  have hvalue : ("= " ++ value).toList = '=' :: ' ' :: value.toList := by
    simp [String.toList_append]
  rw [hline, hvalue, ofLine?_let hname]

/-- A call that is inserted without results attaches none. -/
theorem ofValue?_insert {call : String} (hcall : '[' ∉ call.toList) :
    ofValue? ("= " ++ ("dfg.ins(pos)." ++ call)).toList = none := by
  have hvalue : ("= " ++ ("dfg.ins(pos)." ++ call)).toList =
      "= dfg.ins(pos).".toList ++ call.toList := by
    simp [String.toList_append]
  have hattach : "= dfg.ins(pos).with_results([".toList.isPrefixOf
      ("= dfg.ins(pos).".toList ++ call.toList) = false := by
    rw [Bool.eq_false_iff]
    intro h
    have hmem : '[' ∈ "= dfg.ins(pos).".toList ++ call.toList :=
      (List.isPrefixOf_iff_prefix.mp h).subset (by decide)
    rcases List.mem_append.mp hmem with hmem | hmem
    · exact absurd hmem (by decide)
    · exact hcall hmem
  rw [hvalue, ofValue?, hattach]
  simp

/-- A call that is inserted with results attaches them. -/
theorem ofValue?_attach (rest : String) :
    ofValue? ("= " ++ ("dfg.ins(pos).with_results([" ++ rest)).toList = some .attach := by
  rw [ofValue?]
  simp [String.toList_append]

theorem ofValue?_place (place : OperandPlace) :
    ofValue? ("= " ++ (place.text ++ ";")).toList = none := by
  cases place with
  | value n =>
      rw [ofValue?, OperandPlace.text_value]
      simp [String.toList_append]
  | immediate n =>
      rw [ofValue?, OperandPlace.text_immediate]
      simp [String.toList_append]
  | entity n =>
      rw [ofValue?, OperandPlace.text_entity]
      simp [String.toList_append]

theorem ofValue?_result (rest : String) :
    ofValue? ("= " ++ ("results[" ++ rest)).toList = some .bind := by
  rw [ofValue?]
  simp [String.toList_append]

theorem BuilderCall.Named.unmarked_text {call : BuilderCall} (h : call.Named Unmarked) :
    Unmarked call.text :=
  call.free_text (by decide) h.method h.args

/-- **The text of a line says what the statement does**, when the names in it are unmarked. -/
theorem ofLine?_text {s : Statement} (h : s.Named Unmarked) :
    ofLine? s.text.toList = s.resultUse? := by
  have hcall : ∀ {call : BuilderCall}, call.Named Unmarked → '[' ∉ (call.text ++ ";").toList := by
    intro call hcall hmem
    have hend : Unmarked ";" := by decide
    exact (hcall.unmarked_text.append hend) '[' hmem (by decide)
  have hname : ∀ {name : String}, Unmarked name → '=' ∉ name.toList :=
    fun hname hmem => hname '=' hmem (by decide)
  cases s with
  | remark text =>
      rw [Statement.text_remark, ofLine?]
      simp [String.toList_append, Statement.resultUse?]
  | bindType =>
      have htext : Statement.bindType.text =
          "let " ++ matchedTypeName ++ " = " ++ "dfg.ctrl_typevar(inst);" := by decide
      rw [htext, ofLine?_let_text (by decide)]
      decide
  | bindOperand name place =>
      rw [Statement.text_bindOperand, ofLine?_let_text (hname h), ofValue?_place]
      rfl
  | detach => decide
  | bindResult name index =>
      rw [Statement.text_bindResult, ofLine?_let_text (hname h), ofValue?_result]
      rfl
  | gap => decide
  | hoisted name call =>
      rw [Statement.text_hoisted, ofLine?_let_text (hname h.1), ofValue?_insert (hcall h.2)]
      rfl
  | define results call =>
      have hbinding : Unmarked (Definition.bindingText (results.map (·.name))) :=
        Definition.free_bindingText (by decide) (List.forall_mem_map.mpr h.1)
      rw [Statement.text_define, ofLine?_let_text (hname hbinding), builderText,
        Statement.resultUse?]
      split
      · simp only [String.append_assoc]
        exact ofValue?_attach _
      · exact ofValue?_insert (hcall h.2)
  | replace call =>
      rw [Statement.text_replace, ofLine?]
      simp [String.toList_append, Statement.resultUse?]
  | remove => decide
  | done => decide

/-- Those of the lines that do this. -/
def ResultUse.among (use : ResultUse) (lines : List String) : List String :=
  lines.filter fun line => ofLine? line.toList = some use

/-- Those of the statements that do this. -/
def withUse (use : ResultUse) (ss : List Statement) : List Statement :=
  ss.filter fun s => s.resultUse? = some use

theorem ResultUse.among_texts {ss : List Statement} (h : ∀ s ∈ ss, s.Named Unmarked)
    (use : ResultUse) : use.among (ss.map (·.text)) = (withUse use ss).map (·.text) := by
  rw [among, List.filter_map, withUse]
  refine congrArg (List.map _) (List.filter_congr fun s hs => ?_)
  rw [Function.comp_apply, ofLine?_text (h s hs)]

theorem withUse_append (use : ResultUse) (ss ss' : List Statement) :
    withUse use (ss ++ ss') = withUse use ss ++ withUse use ss' :=
  List.filter_append ..

theorem withUse_cons (use : ResultUse) (s : Statement) (ss : List Statement) :
    withUse use (s :: ss) = withUse use [s] ++ withUse use ss :=
  withUse_append use [s] ss

theorem withUse_done (use : ResultUse) (s : Statement) :
    withUse use [s, .done] = withUse use [s] :=
  (withUse_cons use s [.done]).trans (List.append_nil _)

theorem withUse_eq_nil {use : ResultUse} {ss : List Statement}
    (h : ∀ s ∈ ss, s.resultUse? ≠ some use) : withUse use ss = [] :=
  List.filter_eq_nil_iff.mpr fun s hs => by simpa using h s hs

/-! ### The opening -/

variable {insts : InstructionGroup} {r : Rule} {m : Matcher} {i : Instruction}

/-- The opening does nothing with the results but to detach and bind them. -/
theorem withUse_opening (use : ResultUse) :
    withUse use (m.opening insts i) =
      withUse use (if m.replaces then [] else detachStatements m) := by
  have htype : withUse use (if m.typed insts then [.bindType] else []) = [] := by
    refine withUse_eq_nil fun s hs => ?_
    have hs : s ∈ [Statement.bindType] := by
      split at hs
      · exact hs
      · cases hs
    rw [List.mem_singleton.mp hs]
    exact (Option.some_ne_none use).symm
  have hoperands : withUse use (bindOperands 0 0 i.ins m.args) = [] := by
    refine withUse_eq_nil fun s hs => ?_
    obtain ⟨v, -, place, rfl⟩ := exists_of_mem_bindOperands hs
    exact (Option.some_ne_none use).symm
  rw [Matcher.opening, withUse_append, withUse_append, withUse_append, withUse_append, htype,
    hoperands]
  exact List.append_nil _

/-- Nothing is reused when the source has no output of the rule. -/
theorem isEmpty_reusedOutputs (m : Matcher) :
    (reusedOutputs m).isEmpty = !m.outputs.any m.rule.isOutput := by
  have hfst : (reusedOutputs m).map (·.1) = m.outputs.filter m.rule.isOutput := by
    have hcomp : m.outputs.zipIdx.filter (fun p => m.rule.isOutput p.1) =
        m.outputs.zipIdx.filter (m.rule.isOutput ∘ Prod.fst) := rfl
    rw [reusedOutputs, hcomp, ← List.filter_map, List.zipIdx_map_fst]
  rw [← List.isEmpty_map (f := Prod.fst), hfst, Bool.eq_iff_iff]
  simp

theorem withUse_detachStatements (m : Matcher) (use : ResultUse) :
    withUse use (detachStatements m) =
      match use with
      | .detach => if m.outputs.any m.rule.isOutput then [.detach] else []
      | .bind => (reusedOutputs m).map fun p => .bindResult p.1.name p.2
      | .replace | .attach | .remove => [] := by
  have hbind : ∀ l : List (Var × Nat),
      withUse .bind (l.map fun p => .bindResult p.1.name p.2) =
        l.map fun p => .bindResult p.1.name p.2 := fun l =>
    List.filter_eq_self.mpr (List.forall_mem_map.mpr fun _ _ => rfl)
  have hother : ∀ (use : ResultUse) (l : List (Var × Nat)), use ≠ .bind →
      withUse use (l.map fun p => .bindResult p.1.name p.2) = [] := fun use l hne =>
    withUse_eq_nil (List.forall_mem_map.mpr fun _ _ h => hne (Option.some.inj h).symm)
  have hempty := isEmpty_reusedOutputs m
  rw [detachStatements, hempty]
  cases hany : m.outputs.any m.rule.isOutput with
  | false =>
      rw [hany] at hempty
      rw [List.isEmpty_iff.mp hempty]
      cases use <;> rfl
  | true =>
      rw [Bool.not_true, if_neg Bool.false_ne_true, withUse_cons]
      cases use with
      | detach => exact congrArg ([Statement.detach] ++ ·) (hother .detach _ (by decide))
      | bind => exact hbind _
      | replace => exact hother .replace _ (by decide)
      | attach => exact hother .attach _ (by decide)
      | remove => exact hother .remove _ (by decide)

/-! ### Slots -/

/-- What the list of results to attach has for an output. -/
def slot (r : Rule) (v : Var) : String :=
  if r.isOutput v then "Some(" ++ v.name ++ ")" else "None"

theorem slot_eq_some_iff {v w : Var} :
    slot r w = "Some(" ++ v.name ++ ")" ↔ r.isOutput w ∧ w.name = v.name := by
  rw [slot, ← String.toList_inj]
  split
  · rename_i hout
    simp [hout, String.toList_append, String.toList_inj]
  · rename_i hout
    simp [hout, String.toList_append]

/-- An output has one slot among those of variables with distinct names. -/
theorem count_slot {vs : List Var} (hnd : vs.Nodup)
    (hnames : ∀ w ∈ vs, ∀ v ∈ vs, w.name = v.name → w = v) {v : Var} (hv : v ∈ vs)
    (hout : r.isOutput v) : (vs.map (slot r)).count ("Some(" ++ v.name ++ ")") = 1 := by
  rw [← List.count_eq_one_of_mem hnd hv, List.count, List.countP_map, List.count]
  refine List.countP_congr fun w hw => ?_
  rw [Function.comp_apply, beq_iff_eq, beq_iff_eq, slot_eq_some_iff]
  exact ⟨fun h => hnames w hw v hv h.2, fun h => ⟨h ▸ hout, h ▸ rfl⟩⟩

/-! ### What an arm does with the results -/

/-- The last definition of the destination has exactly the outputs of the source, in order. -/
def Recomputed (r : Rule) : Prop :=
  ∃ d, r.dst.defs.getLast? = some d ∧ d.outputs = r.src.outputs

/-- The definitions of the destination that define an output of the rule. -/
def attachingDefinitions (r : Rule) : List Definition :=
  r.dst.defs.filter (·.outputs.any r.isOutput)

/-- **Each output has one slot**: the destination defines it once. -/
theorem count_slots_of_sound {c : Catalog} (hsound : r.Sound c) {v : Var} (hout : r.isOutput v) :
    ((attachingDefinitions r).flatMap fun d => d.outputs.map (slot r)).count
      ("Some(" ++ v.name ++ ")") = 1 := by
  have hsub : ((attachingDefinitions r).flatMap (·.outputs)).Sublist r.dst.outputs :=
    List.filter_sublist.flatMap _
  have hmentioned : ∀ w ∈ (attachingDefinitions r).flatMap (·.outputs),
      Roles.Mentioned (r.src.defs ++ r.dst.defs) w := by
    intro w hw
    obtain ⟨d, hd, hw⟩ := Definition.mem_outputsOf.mp (hsub.subset hw)
    exact ⟨d, List.mem_append_right _ hd, .inl hw⟩
  obtain ⟨d, hd, hv⟩ :=
    Definition.mem_outputsOf.mp ((Rule.isOutput_iff hsound.roles_eq).mp hout).2
  have hattaching : d ∈ attachingDefinitions r :=
    List.mem_filter.mpr ⟨hd, List.any_eq_true.mpr ⟨v, hv, hout⟩⟩
  rw [← List.map_flatMap]
  exact count_slot (hsound.destination_outputs_nodup.sublist hsub)
    (fun w hw v hv => hsound.names_distinct w v (hmentioned w hw) (hmentioned v hv))
    (List.mem_flatMap.mpr ⟨d, hattaching, hv⟩) hout

/-- The last call replaces the instruction, and no line detaches, binds or attaches a result or
removes the instruction. -/
structure ReplacedInPlace (lines : List String) : Prop where
  replaced : ∃ call, Unmarked call ∧
    ResultUse.replace.among lines = ["dfg.replace(inst)." ++ call ++ ";"] ∧
    ["dfg.replace(inst)." ++ call ++ ";", "true"] <:+ lines
  nothing_else : ∀ use : ResultUse, use ≠ .replace → use.among lines = []

/-- The line inserts a call for the definition, with a slot for each of its outputs. -/
def Attaches (r : Rule) (d : Definition) (line : String) : Prop :=
  ∃ call, Unmarked call ∧ line = "let " ++ Definition.bindingText (d.outputs.map (·.name)) ++
    " = dfg.ins(pos).with_results([" ++ ", ".intercalate (d.outputs.map (slot r)) ++ "])." ++
      call ++ ";"

/-- The instruction is removed at the end.  Before, the outputs of the rule are detached, each is
bound to the result at its place, and the calls of the definitions that have them are given a slot
for each of their outputs: each output of the rule is in one of the slots. -/
structure Reattached (r : Rule) (lines : List String) : Prop where
  not_replaced : ResultUse.replace.among lines = []
  removed : ResultUse.remove.among lines = ["assert_eq!(pos.remove_inst(), inst);"]
  last : ["assert_eq!(pos.remove_inst(), inst);", "true"] <:+ lines
  detached : ResultUse.detach.among lines =
    if r.src.outputs.any r.isOutput then ["let results = dfg.detach_results(inst);"] else []
  bound : ResultUse.bind.among lines =
    (r.src.outputs.zipIdx.filter fun (v, _) => r.isOutput v).map fun (v, index) =>
      "let " ++ v.name ++ " = results[" ++ toString index ++ "];"
  attached : List.Forall₂ (Attaches r) (attachingDefinitions r) (ResultUse.attach.among lines)
  once : ∀ v, r.isOutput v →
    ((attachingDefinitions r).flatMap fun d => d.outputs.map (slot r)).count
      ("Some(" ++ v.name ++ ")") = 1

/-! ### The calls -/

/-- The statement inserts a call for the definition, to which results are attached. -/
def Statement.Inserts (r : Rule) (d : Definition) (s : Statement) : Prop :=
  ∃ call, s = .define (d.outputs.map fun v => ⟨v.name, r.isOutput v⟩) call

theorem withUse_hoistedStatements {calls : FlatSequence} {ss : List Statement}
    (h : hoistedStatements insts calls = ss.map .ok) (use : ResultUse) : withUse use ss = [] := by
  refine withUse_eq_nil fun s hs => ?_
  have hmem : .ok s ∈ hoistedStatements insts calls := h ▸ List.mem_map_of_mem hs
  obtain ⟨c, -, hc⟩ := List.mem_map.mp hmem
  obtain ⟨call, -, rfl⟩ := map_eq_ok_iff.mp hc
  exact (Option.some_ne_none use).symm

theorem withUse_definitionStatements {p : Definition × FlatSequence}
    (hd : p.1.outputs ⊆ r.roles.vars) {ss : List Statement}
    (h : definitionStatements insts r p = ss.map .ok) :
    ∃ s, s.Inserts r p.1 ∧ ∀ use, withUse use ss = withUse use [s] := by
  obtain ⟨hoisted, top, rfl, hhoisted, htop⟩ := List.map_eq_append_iff.mp h.symm
  obtain ⟨s, rfl, hs⟩ := List.map_eq_singleton_iff.mp htop
  refine ⟨s, ?_, fun use => ?_⟩
  · rw [defineStatement_eq hd] at hs
    obtain ⟨call, -, rfl⟩ := map_eq_ok_iff.mp hs.symm
    exact ⟨call, rfl⟩
  · rw [withUse_append, withUse_hoistedStatements hhoisted.symm, List.nil_append]

/-- The statement attaches results when its definition has an output of the rule. -/
theorem Statement.Inserts.resultUse?_eq {d : Definition} {s : Statement} (h : s.Inserts r d) :
    s.resultUse? = if d.outputs.any r.isOutput then some .attach else none := by
  obtain ⟨call, rfl⟩ := h
  rw [Statement.resultUse?, List.any_map]
  rfl

theorem Statement.Inserts.attaches {d : Definition} {s : Statement} (h : s.Inserts r d)
    (hd : d.outputs.any r.isOutput = true) (hnamed : s.Named Unmarked) : Attaches r d s.text := by
  obtain ⟨call, rfl⟩ := h
  have hbuilder : builderText (d.outputs.map fun v => ⟨v.name, r.isOutput v⟩) =
      "dfg.ins(pos).with_results([" ++ ", ".intercalate (d.outputs.map (slot r)) ++ "])" := by
    have hreused : (d.outputs.map fun v => (⟨v.name, r.isOutput v⟩ : Result)).any (·.reused) := by
      rw [List.any_map]
      exact hd
    rw [builderText, if_pos hreused, List.map_map]
    rfl
  refine ⟨call.text, hnamed.2.unmarked_text, ?_⟩
  have hsplit : ∀ slots : String, "let " ++ Definition.bindingText (d.outputs.map (·.name)) ++
      " = dfg.ins(pos).with_results([" ++ slots ++ "])." ++ call.text ++ ";" =
      "let " ++ Definition.bindingText (d.outputs.map (·.name)) ++
      (" = " ++ "dfg.ins(pos).with_results([") ++ slots ++ ("])" ++ ".") ++ call.text ++ ";" :=
    fun _ => rfl
  rw [Statement.text_define, hbuilder, hsplit, List.map_map]
  simp only [String.append_assoc]
  rfl

/-- **The definitions attach results**, in order, those that define an output of the rule. -/
theorem withUse_definitions {l : List (Definition × FlatSequence)}
    (hl : ∀ p ∈ l, p.1.outputs ⊆ r.roles.vars) {ss : List Statement}
    (h : l.flatMap (definitionStatements insts r) = ss.map .ok) :
    List.Forall₂ (fun d s => s.Inserts r d) ((l.map (·.1)).filter (·.outputs.any r.isOutput))
        (withUse .attach ss) ∧
      ∀ use, use ≠ .attach → withUse use ss = [] := by
  induction l generalizing ss with
  | nil =>
      obtain rfl : ss = [] := by simpa using h.symm
      exact ⟨.nil, fun _ _ => rfl⟩
  | cons p l ih =>
      rw [List.flatMap_cons] at h
      obtain ⟨ss₁, ss₂, rfl, h₁, h₂⟩ := List.map_eq_append_iff.mp h.symm
      obtain ⟨hattach, hnone⟩ := ih (fun p' hp' => hl p' (List.mem_cons_of_mem _ hp')) h₂.symm
      obtain ⟨s, hs, huse⟩ := withUse_definitionStatements (hl p List.mem_cons_self) h₁.symm
      have hresult := hs.resultUse?_eq
      simp only [withUse_append, huse, List.map_cons, List.filter_cons]
      cases hany : p.1.outputs.any r.isOutput with
      | false =>
          rw [hany, if_neg Bool.false_ne_true] at hresult
          have hskip : ∀ use, withUse use [s] = [] := fun use => withUse_eq_nil
            (List.forall_mem_singleton.mpr (hresult ▸ (Option.some_ne_none use).symm))
          simp only [hskip, List.nil_append]
          exact ⟨hattach, hnone⟩
      | true =>
          rw [hany, if_pos rfl] at hresult
          refine ⟨?_, fun use hne => ?_⟩
          · have hkeep : withUse .attach [s] = [s] :=
              List.filter_eq_self.mpr (List.forall_mem_singleton.mpr (by simp [hresult]))
            rw [hkeep, List.singleton_append]
            exact .cons hs hattach
          · rw [hnone use hne, List.append_nil]
            exact withUse_eq_nil (List.forall_mem_singleton.mpr (by simpa [hresult] using hne.symm))

theorem attaches_of_inserts {ds : List Definition} {ss : List Statement}
    (h : List.Forall₂ (fun d s => s.Inserts r d) ds ss)
    (hds : ∀ d ∈ ds, d.outputs.any r.isOutput = true) (hnamed : ∀ s ∈ ss, s.Named Unmarked) :
    List.Forall₂ (Attaches r) ds (ss.map (·.text)) := by
  induction h with
  | nil => exact .nil
  | cons hs _ ih =>
      rw [List.forall_mem_cons] at hds hnamed
      exact .cons (hs.attaches hds.1 hnamed.1) (ih hds.2 hnamed.2)

section

variable {arm : List Statement}
  (hsrc : m.rule.src.defs = [⟨m.outputs, ⟨m.head, m.args.map .var⟩⟩])
  {c : Catalog} (hsound : m.rule.Sound c) (harm : m.statements insts i = arm.map .ok)

include hsrc hsound

/-- When the last definition has the outputs of the source, no other has an output of the rule. -/
theorem filter_init_eq_nil {init : List Definition} {last : Definition}
    (hdefs : m.rule.dst.defs = init ++ [last]) (hlast : last.outputs = m.outputs) :
    init.filter (·.outputs.any m.rule.isOutput) = [] := by
  have hnd := hsound.destination_outputs_nodup
  rw [Pattern.outputs, hdefs, Definition.outputsOf_append, Definition.outputsOf_singleton, hlast,
    List.nodup_append'] at hnd
  refine List.filter_eq_nil_iff.mpr fun d hd hany => ?_
  obtain ⟨v, hv, hout⟩ := List.any_eq_true.mp hany
  rw [Rule.isOutput_iff hsound.roles_eq, source_outputs hsrc] at hout
  exact hnd.2.2 (Definition.mem_outputsOf.mpr ⟨d, hd, hv⟩) hout.1

include harm

/-- When the instruction is replaced in place, no line before that is about its results. -/
theorem exists_replace (hreplaces : m.replaces = true) :
    ∃ front call, arm = front ++ [.replace call, .done] ∧ ∀ use, withUse use front = [] := by
  obtain ⟨built, rfl, hbuilt⟩ := exists_arm_parts (outputs_subset_vars hsrc hsound.roles_eq) harm
  obtain ⟨init, last, s, hdefs, hlast, hdestination⟩ := m.exists_last_of_replaces hreplaces
  rw [hreplaces, hdestination, buildStatements_replace] at hbuilt
  obtain ⟨inserting, replacing, rfl, hinserting, hreplacing⟩ :=
    List.map_eq_append_iff.mp hbuilt.symm
  obtain ⟨hoisted, top, rfl, hhoisted, htop⟩ := List.map_eq_append_iff.mp hreplacing
  obtain ⟨s', rfl, hs'⟩ := List.map_eq_singleton_iff.mp htop
  obtain ⟨call, -, rfl⟩ := map_eq_ok_iff.mp hs'.symm
  have hvars : ∀ p ∈ Matcher.flattenAll (Fresh.supply m.taken) init 0,
      p.1.outputs ⊆ m.rule.roles.vars := fun p hp =>
    outputs_subset_of_mem_destination hsound.roles_eq (hdestination ▸ List.mem_append_left _ hp)
  obtain ⟨hattach, hnone⟩ := withUse_definitions hvars hinserting.symm
  rw [map_fst_flattenAll, filter_init_eq_nil hsrc hsound hdefs hlast,
    List.forall₂_nil_left_iff] at hattach
  refine ⟨m.opening insts i ++ inserting ++ hoisted, call, ?_, fun use => ?_⟩
  · simp [Matcher.closing, hreplaces]
  · have hskip : withUse use inserting = [] := by
      by_cases hne : use = .attach
      · rw [hne, hattach]
      · exact hnone use hne
    rw [withUse_append, withUse_append, withUse_opening, hreplaces, hskip,
      withUse_hoistedStatements hhoisted.symm]
    rfl

variable (hnamed : ∀ s ∈ arm, s.Named Unmarked)

include hnamed

/-- Otherwise the outputs of the rule are attached to the calls that define them. -/
theorem exists_attach (hreplaces : m.replaces = false) :
    ∃ opening built, arm = opening ++ built ++ [.remove, .done] ∧
      (∀ use, withUse use opening = withUse use (detachStatements m)) ∧
      List.Forall₂ (Attaches m.rule) (attachingDefinitions m.rule)
        ((withUse .attach built).map (·.text)) ∧
      ∀ use, use ≠ .attach → withUse use built = [] := by
  obtain ⟨built, rfl, hbuilt⟩ := exists_arm_parts (outputs_subset_vars hsrc hsound.roles_eq) harm
  rw [hreplaces, buildStatements_of_not] at hbuilt
  obtain ⟨hattach, hnone⟩ := withUse_definitions
    (fun p hp => outputs_subset_of_mem_destination hsound.roles_eq hp) hbuilt
  rw [Matcher.destination, map_fst_flattenAll] at hattach
  have hattaches := attaches_of_inserts hattach (fun d hd => (List.mem_filter.mp hd).2)
    (fun s hs => hnamed s (by simp [List.mem_of_mem_filter hs]))
  refine ⟨m.opening insts i, built, ?_, fun use => ?_, hattaches, hnone⟩
  · simp [Matcher.closing, hreplaces]
  · rw [withUse_opening, hreplaces]
    rfl

theorem replacedInPlace_arm (hreplaces : m.replaces = true) :
    ReplacedInPlace (arm.map (·.text)) := by
  obtain ⟨front, call, rfl, hfront⟩ := exists_replace hsrc hsound harm hreplaces
  have huse : ∀ use, withUse use (front ++ [.replace call, .done]) =
      withUse use [.replace call] := by
    intro use
    rw [withUse_append, hfront, List.nil_append, withUse_done]
  refine ⟨⟨call.text, ?_, ?_, ?_⟩, fun use hne => ?_⟩
  · exact (hnamed (.replace call) (by simp)).unmarked_text
  · rw [ResultUse.among_texts hnamed, huse]
    rfl
  · rw [List.map_append]
    exact List.suffix_append _ _
  · rw [ResultUse.among_texts hnamed, huse]
    have hother : withUse use [.replace call] = [] := withUse_eq_nil
      (List.forall_mem_singleton.mpr fun h => hne (Option.some.inj h).symm)
    rw [hother, List.map_nil]

theorem reattached_arm (hreplaces : m.replaces = false) :
    Reattached m.rule (arm.map (·.text)) := by
  obtain ⟨opening, built, hparts, hopening, hattach, hbuilt⟩ :=
    exists_attach hsrc hsound harm hnamed hreplaces
  have huse : ∀ use : ResultUse, use.among (arm.map (·.text)) =
      (withUse use (detachStatements m) ++ withUse use built ++ withUse use [.remove]).map
        (·.text) := by
    intro use
    rw [ResultUse.among_texts hnamed, hparts, withUse_append, withUse_append, hopening,
      withUse_done]
  have houtputs : m.rule.src.outputs = m.outputs := source_outputs hsrc
  constructor
  · rw [huse, withUse_detachStatements, hbuilt _ (by decide)]
    rfl
  · rw [huse, withUse_detachStatements, hbuilt _ (by decide)]
    rfl
  · rw [hparts, List.map_append]
    exact List.suffix_append _ _
  · rw [huse, withUse_detachStatements, hbuilt _ (by decide), houtputs]
    cases m.outputs.any m.rule.isOutput <;> rfl
  · rw [huse, withUse_detachStatements, hbuilt _ (by decide), houtputs]
    have hremove : withUse .bind [.remove] = [] := rfl
    rw [hremove, List.append_nil, List.append_nil, List.map_map]
    rfl
  · rw [huse, withUse_detachStatements]
    exact (List.append_nil (withUse .attach built)).symm ▸ hattach
  · exact fun v hout => count_slots_of_sound hsound hout

end

theorem replaces_iff (hsrc : m.rule.src.defs = [⟨m.outputs, ⟨m.head, m.args.map .var⟩⟩]) :
    m.replaces = true ↔ Recomputed m.rule := by
  rw [Matcher.replaces, Option.any_eq_true, Recomputed, source_outputs hsrc]
  simp

/-- **Results are attached again.**  Take a rule of a group that a function is generated for,
closed over any catalog, and let neither variables nor instructions have an equals sign or a bracket
in their names.  When the last definition of the destination has exactly the outputs of the source,
the arm replaces the instruction in place.  Otherwise the arm detaches the outputs of the rule,
attaches each of them to one call, and removes the instruction. -/
theorem arm_reattaches {g : RuleGroup} {c : Catalog} (hgen : (groupEmission insts g).error? = none)
    (hr : r ∈ g.rules) (hclosed : r.ClosedOver c)
    (hvars : ∀ v ∈ r.roles.vars, Unmarked v.name)
    (hinsts : ∀ i ∈ insts.instructions, Unmarked i.name) :
    ∃ (m : Matcher) (i : Instruction) (arm : List Statement),
      Matcher.ofRule r = .ok m ∧ insts.get? m.head.inst = some i ∧
      m.statements insts i = arm.map .ok ∧
      (armCode i arm).nested.nested <:+: (groupEmission insts g).lines ∧
      (Recomputed r → ReplacedInPlace (arm.map (·.text))) ∧
      (¬ Recomputed r → Reattached r (arm.map (·.text))) := by
  obtain ⟨m, i, arm, hof, hi, harm, hcode⟩ := exists_arm hgen hr
  obtain ⟨hsrc, rfl⟩ := Matcher.ofRule_eq_ok_iff.mp hof
  have hsound : m.rule.Sound c := hclosed.sound
  have hnamed : ∀ s ∈ arm, s.Named Unmarked := by
    refine named_of_mem_arm ?_ ?_ hvars hsound.roles_eq hsrc harm
    · exact fun _ _ _ _ hname => (Fresh.common_of_mem_take hname).free (by decide)
    · exact fun i hi => Instruction.free_methodName (by decide) (hinsts i hi)
  refine ⟨m, i, arm, hof, hi, harm, hcode, fun h => ?_, fun h => ?_⟩
  · exact replacedInPlace_arm hsrc hsound harm hnamed ((replaces_iff hsrc).mpr h)
  · rw [← replaces_iff hsrc, Bool.not_eq_true] at h
    exact reattached_arm hsrc hsound harm hnamed h

/-- The rule `(a, c) << iadd_cout(x, y) => (t, c) << iadd_cout(y, x); a << iadd(x, y)`. -/
def splitSum : Rule where
  site := "expand"
  src := ⟨.source, [⟨[⟨0, "a"⟩, ⟨1, "c"⟩],
    ⟨⟨⟨9⟩, "iadd_cout", []⟩, [.var ⟨2, "x"⟩, .var ⟨3, "y"⟩]⟩⟩]⟩
  dst := ⟨.destination,
    [⟨[⟨4, "t"⟩, ⟨1, "c"⟩], ⟨⟨⟨9⟩, "iadd_cout", []⟩, [.var ⟨3, "y"⟩, .var ⟨2, "x"⟩]⟩⟩,
      ⟨[⟨0, "a"⟩], ⟨⟨⟨3⟩, "iadd", []⟩, [.var ⟨2, "x"⟩, .var ⟨3, "y"⟩]⟩⟩]⟩
  inputs := [⟨2, "x"⟩, ⟨3, "y"⟩]
  roles := ⟨[(⟨0, "a"⟩, .output), (⟨1, "c"⟩, .output), (⟨2, "x"⟩, .input), (⟨3, "y"⟩, .input),
    (⟨4, "t"⟩, .temporary)]⟩

theorem splitSum_closed : splitSum.ClosedOver Shared.group.catalog := by
  have hvars : ∀ (v w : Var), ∀ e ∈ [Expr.var v, .var w], e.Made Shared.group.catalog := by
    simp [Expr.Made.var]
  refine ⟨"expand", splitSum.src, splitSum.dst, ⟨by decide, by decide, ?_⟩,
    ⟨by decide, by decide, ?_⟩, rfl⟩
  · exact List.forall_mem_singleton.mpr (.unbound rfl rfl rfl (hvars _ _))
  · exact List.forall_mem_cons.mpr ⟨.unbound rfl rfl rfl (hvars _ _),
      List.forall_mem_singleton.mpr (.unbound rfl rfl rfl (hvars _ _))⟩

/-- Both results of the sum are detached; the carry is attached to the first call, and the sum to
the second. -/
theorem splitSum_reattached :
    ∃ (m : Matcher) (i : Instruction) (arm : List Statement),
      Matcher.ofRule splitSum = .ok m ∧ Shared.group.get? m.head.inst = some i ∧
      m.statements Shared.group i = arm.map .ok ∧
      (armCode i arm).nested.nested <:+:
        (groupEmission Shared.group ⟨"expand", "", [splitSum]⟩).lines ∧
      Reattached splitSum (arm.map (·.text)) ∧
      ResultUse.bind.among (arm.map (·.text)) = ["let a = results[0];", "let c = results[1];"] ∧
      ResultUse.attach.among (arm.map (·.text)) =
        ["let (t, c) = dfg.ins(pos).with_results([None, Some(c)]).iadd_cout(y, x);",
          "let a = dfg.ins(pos).with_results([Some(a)]).iadd(x, y);"] := by
  have hgen : (groupEmission Shared.group ⟨"expand", "", [splitSum]⟩).error? = none := rfl
  obtain ⟨m, i, arm, hof, hi, harm, hcode, -, hreattached⟩ :=
    arm_reattaches hgen List.mem_cons_self splitSum_closed (by decide) (by decide)
  have hnot : ¬ Recomputed splitSum := by
    rintro ⟨d, hd, houtputs⟩
    cases hd
    exact absurd houtputs (by decide)
  have hlines := hreattached hnot
  refine ⟨m, i, arm, hof, hi, harm, hcode, hlines, hlines.bound, ?_⟩
  have hm : Matcher.ofRule splitSum = .ok ⟨splitSum, [⟨0, "a"⟩, ⟨1, "c"⟩],
    ⟨⟨9⟩, "iadd_cout", []⟩, [⟨2, "x"⟩, ⟨3, "y"⟩]⟩ := rfl
  obtain rfl := Except.ok.inj (hm.symm.trans hof)
  cases hi
  rw [eq_filterMap_of_map_ok harm]
  rfl

end Isaforge.Legalizer
