import Isaforge.Proofs.Nesting
import Isaforge.Proofs.Legalizer.Dispatch
import Isaforge.Proofs.Legalizer.Names
import Isaforge.Proofs.Settings.Nesting

/-!
# Nesting — the function of a legalization pass

The function that is generated for a group of rules is made of blocks (`braced_groupEmission`) when
the names of the group, of its variables and of the instructions have no braces and no line breaks.
So it is nested, on whatever page it is written, and each of its lines begins with text of the
generator.

The names in the lines of an arm are those of variables and of builder methods, and those that
hoisted calls are given, which end in digits.

With the flags of a group of settings this covers all generated sources (`sources_nested`).  In
the flags of `spacedGroup` a variant begins with a space, and its line does not stand where the
braces say (`spacedGroup_misplaced`).
-/

namespace Isaforge

open Source

/-! ### Texts -/

namespace Source.Inline

theorem join {ts : List String} (h : ∀ t ∈ ts, Inline t) : Inline (String.join ts) := by
  intro c hc
  rw [String.toList_join, List.mem_flatMap] at hc
  obtain ⟨t, ht, hc⟩ := hc
  exact h t ht c hc

end Source.Inline

theorem ValueType.inline_text (t : ValueType) : Inline t.text :=
  .of_common fun _ hc => .inl (isAlphanum_of_mem_text hc)

theorem Head.inline_text {h : Head} (hname : Inline h.name) : Inline h.text :=
  .append hname (.join (List.forall_mem_map.mpr fun t _ => .append (by decide) t.inline_text))

theorem Definition.inline_bindingText {names : List String} (h : ∀ n ∈ names, Inline n) :
    Inline (bindingText names) :=
  Inline.iff_free.mpr (free_bindingText (by decide) fun n hn => Inline.iff_free.mp (h n hn))

namespace Legalizer

variable {insts : InstructionGroup} {g : RuleGroup} {m : Matcher} {i : Instruction}
  {own : String → Prop}

/-- The source of a matcher as text. -/
theorem inline_sourceText (hsrc : m.rule.src.defs = [⟨m.outputs, ⟨m.head, m.args.map .var⟩⟩])
    (hhead : Inline m.head.name) (hargs : ∀ v ∈ m.args, Inline v.name)
    (houtputs : ∀ v ∈ m.outputs, Inline v.name) : Inline m.sourceText := by
  have hbinding : Inline (Definition.bindingText (m.outputs.map (·.name))) :=
    Definition.inline_bindingText (List.forall_mem_map.mpr houtputs)
  have hargs : Inline (", ".intercalate (Expr.textAll (m.args.map .var))) := by
    rw [Expr.textAll_eq_map, List.map_map]
    exact .intercalate (by decide) (List.forall_mem_map.mpr hargs)
  rw [Matcher.sourceText, Pattern.text, hsrc, List.map_singleton, String.intercalate_singleton,
    Definition.text, Application.text, Application.expr, Expr.text]
  exact .append (.append hbinding (by decide))
    (.append (.append (.append (Head.inline_text hhead) (by decide)) hargs) (by decide))

/-! ### Lines -/

/-- The method and the arguments of the call have no braces and no line breaks. -/
structure BuilderCall.Inline (c : BuilderCall) : Prop where
  method : Source.Inline c.method
  args : ∀ a ∈ c.args, Source.Inline a

/-- The texts in the line have no braces and no line breaks. -/
def Statement.Inline : Statement → Prop
  | .remark text => Source.Inline text
  | .bindOperand name _ | .bindResult name _ => Source.Inline name
  | .hoisted name call => Source.Inline name ∧ call.Inline
  | .define results call => (∀ r ∈ results, Source.Inline r.name) ∧ call.Inline
  | .replace call => call.Inline
  | .bindType | .detach | .gap | .remove | .done => True

/-- A statement whose names are inline is an inline line, but for a remark, whose text has to be
too. -/
theorem Statement.Named.inline {s : Statement} (h : s.Named Source.Inline)
    (hremark : ∀ text, s = .remark text → Source.Inline text) : s.Inline := by
  cases s with
  | remark text => exact hremark text rfl
  | bindOperand name _ | bindResult name _ => exact h
  | hoisted name call => exact ⟨h.1, h.2.method, h.2.args⟩
  | define results call => exact ⟨h.1, h.2.method, h.2.args⟩
  | replace call => exact ⟨h.method, h.args⟩
  | bindType | detach | gap | remove | done => trivial

theorem OperandPlace.inline_text (place : OperandPlace) : Inline place.text := by
  cases place with
  | value n | immediate n | entity n =>
      exact .append (.append (by decide) (.of_digits n)) (by decide)

/-- A call is written inline when its names are. -/
theorem BuilderCall.Inline.text {c : BuilderCall} (h : c.Inline) : Source.Inline c.text :=
  Inline.iff_free.mpr (c.free_text (by decide) (Inline.iff_free.mp h.method)
    fun a ha => Inline.iff_free.mp (h.args a ha))

theorem inline_builderText {results : List Result} (h : ∀ r ∈ results, Inline r.name) :
    Inline (builderText results) := by
  have hslots : Inline (", ".intercalate (results.map (·.slot))) := by
    refine .intercalate (by decide) (List.forall_mem_map.mpr fun r hr => ?_)
    rw [Result.slot]
    split
    · exact .append (.append (by decide) (h r hr)) (by decide)
    · decide
  rw [builderText]
  split
  · exact .append (.append (by decide) hslots) (by decide)
  · decide

/-- A line of an arm begins with text of the generator, and opens and closes nothing. -/
theorem braced_statement {s : Statement} (h : s.Inline) : Braced own (Code.line s.text) := by
  cases s with
  | remark text =>
      have htext : (Statement.remark text).text = "//" ++ (" " ++ text) := by
        rw [← String.append_assoc]
        rfl
      have hbreak : '\n' ∉ (" " ++ text).toList := (Inline.append (by decide) h).unbroken
      rw [htext]
      exact .line (flat_comment hbreak) (tidy_of_unindented (unindented_slashes _))
  | gap => exact .blank
  | bindType | detach | remove | done => exact .text (by decide) (by decide)
  | bindOperand name place =>
      refine .text ?_ (.append (.append (.append (.append (by decide) _) _) _) _)
      exact .append (.append (.append (.append (by decide) h) (by decide)) place.inline_text)
        (by decide)
  | bindResult name index =>
      refine .text ?_ (.append (.append (.append (.append (by decide) _) _) _) _)
      exact .append (.append (.append (.append (by decide) h) (by decide)) (.of_digits index))
        (by decide)
  | hoisted name call =>
      refine .text ?_ (.append (.append (.append (.append (by decide) _) _) _) _)
      exact .append (.append (.append (.append (by decide) h.1) (by decide)) h.2.text) (by decide)
  | define results call =>
      have hbinding : Inline (Definition.bindingText (results.map (·.name))) :=
        Definition.inline_bindingText (List.forall_mem_map.mpr h.1)
      refine .text ?_ (.append (.append (.append (.append (.append (.append (by decide) _) _) _) _)
        _) _)
      exact .append (.append (.append (.append (.append (.append (by decide) hbinding) (by decide))
        (inline_builderText h.1)) (by decide)) h.2.text) (by decide)
  | replace call =>
      exact .around (by decide) (by decide) h.text (by decide)

/-! ### Arms -/

section

variable (hinsts : ∀ i ∈ insts.instructions, Inline i.name)
  (hvars : ∀ v ∈ m.rule.roles.vars, Inline v.name)
  (hroles : m.rule.roles = .classify m.rule.src.defs m.rule.dst.defs)

include hinsts hvars hroles

/-- The lines of an arm. -/
theorem inline_of_mem_arm (hsrc : m.rule.src.defs = [⟨m.outputs, ⟨m.head, m.args.map .var⟩⟩])
    (hhead : Inline m.head.name) {arm : List Statement}
    (harm : m.statements insts i = arm.map .ok) : ∀ s ∈ arm, s.Inline := by
  have hargs : ∀ v ∈ m.args, Inline v.name := fun v hv =>
    hvars v (args_subset_vars hsrc hroles hv)
  have houtputs : ∀ v ∈ m.outputs, Inline v.name := fun v hv =>
    hvars v (outputs_subset_vars hsrc hroles hv)
  have hnamed : ∀ s ∈ arm, s.Named Inline := by
    refine named_of_mem_arm ?_ ?_ hvars hroles hsrc harm
    · exact fun _ _ _ _ hname => .of_common (Fresh.common_of_mem_take hname)
    · exact fun i hi => Inline.iff_free.mpr
        (i.free_methodName (by decide) (Inline.iff_free.mp (hinsts i hi)))
  intro s hs
  refine (hnamed s hs).inline ?_
  rintro text rfl
  obtain rfl := text_of_remark_mem_arm hsrc hroles harm hs
  exact .append (by decide) (inline_sourceText hsrc hhead hargs houtputs)

end

/-- An arm is braced when its statements are inline. -/
theorem braced_armCode (hname : Inline i.name) {arm : List Statement}
    (harm : ∀ s ∈ arm, s.Inline) : Braced own (armCode i arm) := by
  have hlines : Braced own (arm.map fun s => ⟨0, s.text⟩) := by
    rw [List.map_eq_flatMap]
    exact .flatMap fun s hs => braced_statement (harm s hs)
  exact .block (opening_around (by decide) (by decide) hname.camelCase (by decide) (by decide))
    closing_brace hlines

/-! ### Functions -/

/-- The names that the function of a group is written with have no braces and no line breaks. -/
structure InlineNames (insts : InstructionGroup) (g : RuleGroup) : Prop where
  group : Inline g.name
  instruction : ∀ i ∈ insts.instructions, Inline i.name
  source : ∀ r ∈ g.rules, ∀ d ∈ r.src.defs, Inline d.value.head.name
  var : ∀ r ∈ g.rules, ∀ v ∈ r.roles.vars, Inline v.name

/-- The arm of a rule that was built. -/
theorem braced_arm (hnames : InlineNames insts g) {r : Rule} (hr : r ∈ g.rules) (hbuilt : r.Built)
    {a : FunctionArm} (hof : a.IsOf insts r) : Braced own (armCode a.inst a.statements) := by
  obtain ⟨m, hof, hi, harm⟩ := hof
  obtain ⟨hsrc, rfl⟩ := Matcher.ofRule_eq_ok_iff.mp hof
  have hhead : Inline m.head.name := hnames.source m.rule hr _ (mem_source hsrc)
  have hlines : ∀ s ∈ a.statements, s.Inline :=
    inline_of_mem_arm hnames.instruction (hnames.var m.rule hr) hbuilt.close_eq.1 hsrc hhead harm
  exact braced_armCode (hnames.instruction a.inst (List.mem_of_getElem? hi)) hlines

/-- A function is braced when its arms are. -/
theorem braced_functionCode (hname : Inline g.name) {arms : List FunctionArm}
    (harms : ∀ a ∈ arms, Braced own (armCode a.inst a.statements)) :
    Braced own (functionCode g arms) := by
  have hcursor : Braced own (Code.line "use ir::InstBuilder;" ++
      Code.block "let inst = match pos.current_inst() \x7b"
        (Code.line "Some(inst) => inst," ++ Code.line "None => return false,") "\x7d;") := by
    refine .append (.text (by decide) (by decide)) (.block ?_ ?_ ?_)
    · exact opening_of_begun (by decide) (by decide) (by decide)
    · exact closing_of_closes (by decide) (by decide) (by decide) (by decide)
    · exact .append (.text (by decide) (by decide)) (.text (by decide) (by decide))
  have hdispatch : Braced own (Code.block "match dfg[inst].opcode() \x7b"
      (arms.flatMap (fun a => armCode a.inst a.statements) ++ Code.line "_ => false,") "\x7d") :=
    .block (opening_of_begun (by decide) (by decide) (by decide)) closing_brace
      (.append (.flatMap harms) (.text (by decide) (by decide)))
  have hopening : Opening ("pub fn " ++ g.name ++
      "(dfg: &mut ir::DataFlowGraph, pos: &mut ir::Cursor) -> bool \x7b") :=
    opening_around (by decide) (by decide) hname (by decide) (by decide)
  exact .append (.append (braced_doc g.doc) (.text (by decide) (by decide)))
    (.block hopening closing_brace (.append hcursor hdispatch))

/-- The function of a group is made of blocks. -/
theorem braced_groupEmission (hnames : InlineNames insts g) (hbuilt : ∀ r ∈ g.rules, r.Built)
    (hgen : (groupEmission insts g).error? = none) :
    Braced own (groupEmission insts g).lines := by
  obtain ⟨arms, hforall, hlines⟩ := exists_arms hgen
  rw [hlines]
  refine braced_functionCode hnames.group fun a ha => ?_
  obtain ⟨hlength, hget⟩ := List.forall₂_iff_get.mp hforall
  obtain ⟨n, rfl⟩ := List.get_of_mem ha
  have hn : n < g.rules.length := hlength.symm ▸ n.isLt
  have hr := List.get_mem g.rules ⟨n, hn⟩
  exact braced_arm hnames hr (hbuilt _ hr) (hget n hn n.isLt)

end Legalizer

/-! ### Generated sources -/

/-- **Generated sources are nested.**  Take a page at any depth.  The function of a group of rules
that were built, when it does not break off, and the flags of a group of settings add to it lines
that are balanced in braces and indented by them, as long as names and values have no braces and no
line breaks.  Only the lines of a variant whose name begins with white space, and those that display
the variants of a type whose name does, are indented further. -/
theorem sources_nested (p : Page) :
    (∀ (insts : InstructionGroup) (g : RuleGroup) (q : Page), Legalizer.InlineNames insts g →
      (∀ r ∈ g.rules, r.Built) → p.emit (Legalizer.groupEmission insts g) = (q, .ok ()) →
      ∃ added, q = { p with lines := p.lines ++ added } ∧
        Nested (fun _ => False) p.depth added) ∧
    ∀ g : SettingGroup, g.Inline →
      ∃ added, p.write (Flags.ofGroup g).code = { p with lines := p.lines ++ added } ∧
        Nested (Flags.ofGroup g).Spaced p.depth added := by
  refine ⟨fun insts g q hnames hbuilt hemit => ?_, fun g hg => ⟨_, rfl, ?_⟩⟩
  · obtain ⟨hgen, rfl⟩ := Page.emit_eq_ok_iff.mp hemit
    exact ⟨_, rfl, (Legalizer.braced_groupEmission hnames hbuilt hgen).nested p.depth⟩
  · exact (Flags.inline_ofGroup hg).braced_code.nested p.depth

/-- An enumeration whose second value begins with a space, and a number. -/
def spacedGroup : SettingGroup :=
  ⟨"g", "", none, [⟨"level", "The level.", .enum ["low", " high"]⟩, ⟨"size", "", .num 3⟩]⟩

/-- What holds of its names and values. -/
theorem spacedGroup_forall {P : String → Prop} (h : ∀ s ∈ ["level", "low", " high", "size"], P s) :
    (∀ d ∈ spacedGroup.declarations, P d.name) ∧
      ∀ d ∈ spacedGroup.declarations, ∀ values, d.kind = .enum values → ∀ v ∈ values, P v := by
  simp only [List.forall_mem_cons] at h
  obtain ⟨hlevel, hlow, hhigh, hsize, -⟩ := h
  refine ⟨?_, fun d hd values hkind => ?_⟩
  · exact List.forall_mem_cons.mpr ⟨hlevel, List.forall_mem_singleton.mpr hsize⟩
  · rcases List.mem_cons.mp hd with rfl | hd
    · cases hkind
      exact List.forall_mem_cons.mpr ⟨hlow, List.forall_mem_singleton.mpr hhigh⟩
    · obtain rfl := List.mem_singleton.mp hd
      cases hkind

theorem spacedGroup_inline : spacedGroup.Inline :=
  ⟨(spacedGroup_forall (by decide)).1, (spacedGroup_forall (by decide)).2⟩

/-- Its names and values have no braces, quotation marks or line breaks, and the flags are not
nested without exception: the line of ` high` is indented by five columns, with one brace open. -/
theorem spacedGroup_misplaced :
    SettingGroup.make "g" "" none spacedGroup.declarations = .ok spacedGroup ∧
      (∀ d ∈ spacedGroup.declarations, Free ['\x7b', '\x7d', '"', '\n'] d.name) ∧
      (∀ d ∈ spacedGroup.declarations, ∀ values, d.kind = .enum values →
        ∀ v ∈ values, Free ['\x7b', '\x7d', '"', '\n'] v) ∧
      ¬ Nested (fun _ => False) 0 (Page.write {} (Flags.ofGroup spacedGroup).code).lines := by
  obtain ⟨hnames, hvalues⟩ := spacedGroup_forall (P := Free ['\x7b', '\x7d', '"', '\n']) (by decide)
  refine ⟨rfl, hnames, hvalues, fun hnested => ?_⟩
  have hsplit : (Page.write {} (Flags.ofGroup spacedGroup).code).lines =
      (Page.write {} (Flags.ofGroup spacedGroup).code).lines.take 8 ++ "     high," ::
        (Page.write {} (Flags.ofGroup spacedGroup).code).lines.drop 9 := rfl
  have hopen : ((Page.write {} (Flags.ofGroup spacedGroup).code).lines.take 8).foldlM readLine 0 =
      some 1 := rfl
  obtain ⟨n, hread, hplaced⟩ := hnested.placed _ _ _ hsplit
  obtain rfl := Option.some.inj (hopen.symm.trans hread)
  obtain ⟨k, hk, hindented | ⟨-, habsurd, -⟩⟩ := hplaced.indented (by decide)
  · have hflat : closes "     high," = false := by decide
    have hfive : indentation "     high," = spaces 5 := by decide
    rw [hflat] at hk
    obtain rfl : k = 1 := hk.symm
    rw [hfive] at hindented
    exact absurd hindented (by decide)
  · exact habsurd

/-- One block deep, the function of a rule is nested, and so are the flags of a group, but for the
line of a variant that has a space of its own. -/
theorem expansion_nested :
    (∃ q, Page.emit ⟨1, []⟩ (Legalizer.groupEmission Shared.group
        ⟨"expand", "", [Legalizer.nestedExpansion]⟩) = (q, .ok ()) ∧
      ∃ added, q = ⟨1, added⟩ ∧ Nested (fun _ => False) 1 added) ∧
    SettingGroup.make "g" "" none spacedGroup.declarations = .ok spacedGroup ∧
    ∃ added, Page.write ⟨1, []⟩ (Flags.ofGroup spacedGroup).code = ⟨1, added⟩ ∧
      Nested (Flags.ofGroup spacedGroup).Spaced 1 added := by
  have hnames : Legalizer.InlineNames Shared.group
      ⟨"expand", "", [Legalizer.nestedExpansion]⟩ :=
    ⟨by decide, by decide, by decide, by decide⟩
  have hbuilt : ∀ r ∈ [Legalizer.nestedExpansion], r.Built :=
    List.forall_mem_singleton.mpr Legalizer.nestedExpansion_accepted.built
  exact ⟨⟨_, rfl, (sources_nested ⟨1, []⟩).1 Shared.group _ _ hnames hbuilt rfl⟩, rfl,
    (sources_nested ⟨1, []⟩).2 spacedGroup spacedGroup_inline⟩

end Isaforge
