import Isaforge.Proofs.Construction

/-!
# The registry of a legalization pass

A group collects the rules of the calls of `legalize` that succeed.  `RuleGroup.attemptAll` is a
whole run: any calls, each with a script of any length against one catalog, in any order, the
rejected ones among them.

`Rule.Sound c r` is what every rule of every such group satisfies: its source is not empty, its
patterns are well formed and well scoped, its applications respect the catalog, its variables have
distinct names, and what is stored with the patterns is what they determine.

* `Rule.Accepted.sound`: a rule that one script builds is sound.
* `RuleGroup.attemptAll_rules`: the rules of a run are those its calls built, in order.
* `RuleGroup.attemptAll_sound`: the two together, for the run as a whole.
-/

namespace Isaforge

open Definition (DefinedBefore)
open Roles (Mentioned)

namespace Rule

/-- The rule is well formed, and was put together against the catalog `c`. -/
structure Sound (c : Catalog) (r : Rule) : Prop where
  source_ne_nil : r.src.defs ≠ []
  source_outputs_nodup : r.src.outputs.Nodup
  destination_outputs_nodup : r.dst.outputs.Nodup
  outputs_ne_nil : ∀ d ∈ r.src.defs ++ r.dst.defs, d.outputs ≠ []
  fits : ∀ d ∈ r.src.defs ++ r.dst.defs, ∀ a : Application, a.Within d.value.expr → a.Fits c
  no_intermediate : ∀ d ∈ r.dst.defs, ∀ v, d.Uses v → r.role? v ≠ some .intermediate
  defined_before : ∀ n d v, r.dst.defs[n]? = some d → d.Uses v →
    r.role? v = some .output ∨ r.role? v = some .temporary → DefinedBefore r.dst.defs n v
  names_distinct : NamesDistinct r.src r.dst
  inputs_eq : checkInputs r.src r.dst = .ok r.inputs
  roles_eq : r.roles = .classify r.src.defs r.dst.defs

/-- A script against the catalog `c` builds the rule. -/
def Accepted (c : Catalog) (r : Rule) : Prop :=
  ∃ (site : String) (b : Building c), build site b.script = .ok r

/-! ### One rule -/

theorem build_eq_ok_iff {site : String} {script : Script} {r : Rule} :
    build site script = .ok r ↔
      ∃ draft, script.run {} = .ok ((), draft) ∧ close site draft.src draft.dst = .ok r := by
  rw [build]
  split
  · rename_i cause hrun
    refine ⟨fun h => (nomatch h), ?_⟩
    rintro ⟨draft, hrun', -⟩
    rw [hrun] at hrun'
    cases hrun'
  · rename_i draft hrun
    constructor
    · intro h
      exact ⟨draft, hrun, h⟩
    · rintro ⟨draft', hrun', h⟩
      rw [hrun] at hrun'
      cases hrun'
      exact h

/-- A rule with one definition on each side is accepted when the two patterns are closed to it. -/
theorem accepted_of_close {c : Catalog} {d d' : Definition} {r : Rule}
    (hsrc : r.src = ⟨.source, [d]⟩) (hdst : r.dst = ⟨.destination, [d']⟩)
    (hd : d.value.expr.Made c) (hd' : d'.value.expr.Made c)
    (houtputs : d.outputs ≠ [] ∧ d.outputs.Nodup) (houtputs' : d'.outputs ≠ [] ∧ d'.outputs.Nodup)
    (hclose : close r.site r.src r.dst = .ok r) : r.Accepted c := by
  have hdefine : ∀ (side : Side) (d : Definition), d.outputs ≠ [] ∧ d.outputs.Nodup →
      (Pattern.mk side []).define d.outputs d.value.expr = .ok ⟨side, [d]⟩ := by
    intro side d hd
    rw [Pattern.define, Definition.make_eq_ok_iff.mpr ⟨hd.1, rfl, rfl⟩]
    exact Pattern.push_eq_ok_iff.mpr ⟨hd.2, fun v _ => List.not_mem_nil, rfl⟩
  let script : Building c := .add .source d.outputs d.value.expr hd fun _ =>
    .add .destination d'.outputs d'.value.expr hd' fun _ => .finish
  have hrun : script.script.run {} = .ok ((), ⟨⟨.source, [d]⟩, ⟨.destination, [d']⟩⟩) := by
    have hfirst : (Rule.add .source d.outputs d.value.expr).run {} =
        .ok ((), ⟨⟨.source, [d]⟩, ⟨.destination, []⟩⟩) := by
      rw [Rule.add, Rule.source_run, hdefine .source d houtputs]
      rfl
    have hsecond : (Rule.add .destination d'.outputs d'.value.expr).run
        ⟨⟨.source, [d]⟩, ⟨.destination, []⟩⟩ =
        .ok ((), ⟨⟨.source, [d]⟩, ⟨.destination, [d']⟩⟩) := by
      rw [Rule.add, Rule.destination_run, hdefine .destination d' houtputs']
      rfl
    simp only [script, Building.script, StateT.run] at hfirst hsecond ⊢
    rw [hfirst]
    simp only [hsecond]
    rfl
  rw [hsrc, hdst] at hclose
  exact ⟨r.site, script, build_eq_ok_iff.mpr ⟨_, hrun, hclose⟩⟩

/-- A variable is an output or a temporary only when the destination defines it. -/
theorem mem_outputs_of_role {src dst : List Definition} {v : Var}
    (h : (Roles.classify src dst).role? v = some .output ∨
      (Roles.classify src dst).role? v = some .temporary) : v ∈ Definition.outputsOf dst := by
  rcases h with h | h
  · exact (Roles.role?_classify_eq_some_iff.mp h).2.2.mpr rfl
  · exact (Roles.role?_classify_eq_some_iff.mp h).2.2.mpr rfl

/-- An intermediate is defined in the source and not in the destination. -/
theorem role?_eq_intermediate {src dst : List Definition} {v : Var}
    (h : (Roles.classify src dst).role? v = some .intermediate) :
    v ∈ Definition.outputsOf src ∧ v ∉ Definition.outputsOf dst := by
  obtain ⟨-, hs, hd⟩ := Roles.role?_classify_eq_some_iff.mp h
  exact ⟨hs.mpr rfl, fun hv => absurd (hd.mp hv) Bool.false_ne_true⟩

/-- An output is defined in both patterns. -/
theorem isOutput_iff {r : Rule} (hroles : r.roles = .classify r.src.defs r.dst.defs) {v : Var} :
    r.isOutput v ↔ v ∈ r.src.outputs ∧ v ∈ r.dst.outputs := by
  rw [isOutput, hasRole, decide_eq_true_iff, role?, hroles, Roles.role?_classify_eq_some_iff]
  constructor
  · rintro ⟨-, hs, hd⟩
    exact ⟨hs.mpr rfl, hd.mpr rfl⟩
  · rintro ⟨hs, hd⟩
    obtain ⟨d, hdef, hv⟩ := Definition.mem_outputsOf.mp hs
    exact ⟨⟨d, List.mem_append_left _ hdef, .inl hv⟩, ⟨fun _ => rfl, fun _ => hs⟩,
      ⟨fun _ => rfl, fun _ => hd⟩⟩

/-- Closing sound patterns makes a sound rule. -/
theorem sound_of_close {c : Catalog} {site : String} {src dst : Pattern} {r : Rule}
    (hsrc : src.Sound c) (hdst : dst.Sound c) (h : close site src dst = .ok r) : r.Sound c := by
  have hscope : WellScoped src dst := wellScoped_of_close h
  obtain ⟨inputs, hinputs, hnames, rfl⟩ := close_eq_ok_iff.mp h
  refine ⟨hscope.nonempty, hsrc.outputs_nodup, hdst.outputs_nodup, ?_, ?_, ?_, ?_, hnames, hinputs,
    rfl⟩
  · intro d hd
    rcases List.mem_append.mp hd with hd | hd
    · exact hsrc.outputs_ne_nil d hd
    · exact hdst.outputs_ne_nil d hd
  · intro d hd a ha
    rcases List.mem_append.mp hd with hd | hd
    · exact (hsrc.made d hd).fits ha
    · exact (hdst.made d hd).fits ha
  · intro d hd v hu hrole
    obtain ⟨hs, hd'⟩ := role?_eq_intermediate hrole
    obtain ⟨n, hn⟩ := List.getElem?_of_mem hd
    rcases hscope.destination n d v hn hu with hb | ⟨-, hundef⟩
    · exact hd' (Definition.mem_outputsOf_of_definedBefore hb)
    · exact (undefined_iff.mp hundef).1 hs
  · intro n d v hd hu hrole
    refine (hscope.destination n d v hd hu).resolve_right ?_
    rintro ⟨-, hundef⟩
    exact (undefined_iff.mp hundef).2 (mem_outputs_of_role hrole)

/-- The rule closes two patterns against the catalog `c`, whether a script put them together or
each was for itself. -/
def ClosedOver (c : Catalog) (r : Rule) : Prop :=
  ∃ (site : String) (src dst : Pattern), src.Sound c ∧ dst.Sound c ∧ close site src dst = .ok r

theorem ClosedOver.sound {c : Catalog} {r : Rule} (h : r.ClosedOver c) : r.Sound c := by
  obtain ⟨site, src, dst, hsrc, hdst, hclose⟩ := h
  exact sound_of_close hsrc hdst hclose

theorem Accepted.closedOver {c : Catalog} {r : Rule} (h : r.Accepted c) : r.ClosedOver c := by
  obtain ⟨site, b, hb⟩ := h
  obtain ⟨draft, hrun, hclose⟩ := build_eq_ok_iff.mp hb
  have hdraft : draft.Sound c := Building.sound_of_run (Draft.sound_empty c) hrun
  exact ⟨site, draft.src, draft.dst, hdraft.src, hdraft.dst, hclose⟩

/-- **An accepted rule is sound**, whatever the script did on the way. -/
theorem Accepted.sound {c : Catalog} {r : Rule} (h : r.Accepted c) : r.Sound c :=
  h.closedOver.sound

end Rule

/-! ### A run -/

namespace RuleGroup

variable {c : Catalog}

/-- The group after a call of `legalize`: as it was when the rule is rejected. -/
def attempt (g : RuleGroup) (site : String) (script : Rule.Script) : RuleGroup :=
  match g.legalize site script with
  | .ok g' => g'
  | .error _ => g

/-- The group after the calls, in order. -/
def attemptAll (g : RuleGroup) (calls : List (String × Building c)) : RuleGroup :=
  calls.foldl (fun g call => g.attempt call.1 call.2.script) g

/-- The rule that a call builds, when it builds one. -/
def built? (call : String × Building c) : Option Rule :=
  (Rule.build call.1 call.2.script).toOption

theorem attempt_rules (g : RuleGroup) (call : String × Building c) :
    (g.attempt call.1 call.2.script).rules = g.rules ++ (built? call).toList := by
  rw [attempt, legalize, built?]
  cases Rule.build call.1 call.2.script with
  | error cause => simp [bind, Except.bind, Except.toOption]
  | ok r => rfl

theorem attemptAll_rules (g : RuleGroup) (calls : List (String × Building c)) :
    (g.attemptAll calls).rules = g.rules ++ calls.filterMap built? := by
  induction calls generalizing g with
  | nil => simp [attemptAll]
  | cons call calls ih =>
      have hstep : (g.attemptAll (call :: calls)).rules =
          ((g.attempt call.1 call.2.script).attemptAll calls).rules := rfl
      rw [hstep, ih, attempt_rules, List.append_assoc]
      cases h : built? call with
      | none => simp [h]
      | some r => simp [h]

theorem accepted_of_built? {call : String × Building c} {r : Rule} (h : built? call = some r) :
    r.Accepted c := by
  refine ⟨call.1, call.2, ?_⟩
  cases hb : Rule.build call.1 call.2.script with
  | error cause => simp [built?, hb, Except.toOption] at h
  | ok r' => simpa [built?, hb, Except.toOption] using h

/-- **The registry.**  After any calls of `legalize`, with any scripts against the catalog, every
rule of the group is sound, and the rules are those the calls built, in order. -/
theorem attemptAll_sound (c : Catalog) (name doc : String) (calls : List (String × Building c)) :
    (∀ r ∈ (attemptAll ⟨name, doc, []⟩ calls).rules, r.Sound c) ∧
      (attemptAll ⟨name, doc, []⟩ calls).rules = calls.filterMap built? := by
  have hrules : (attemptAll ⟨name, doc, []⟩ calls).rules = calls.filterMap built? := by
    rw [attemptAll_rules, List.nil_append]
  refine ⟨?_, hrules⟩
  intro r hr
  rw [hrules] at hr
  obtain ⟨call, -, hcall⟩ := List.mem_filterMap.mp hr
  exact (accepted_of_built? hcall).sound

end RuleGroup

end Isaforge
