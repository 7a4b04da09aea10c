import Isaforge.Proofs.Binding
import Isaforge.Proofs.Registry
import Isaforge.Shared.Legalization

/-!
# Outlines — the rules that outlines make

An outline names its definitions; the catalog turns them into applications.  When it knows every
instruction of the outline with the right number of inputs (`Step.Fits`), and the outline defines
nothing twice, its script puts exactly the definitions of `Outline.defs` together
(`Outline.run_script`).  Otherwise it stops at the first step that does not fit
(`Outline.run_script_of_fault`).

An outline is legal when these definitions also pass the checks of `Rule.close`.  A group legalized
from legal outlines holds one rule for each of them, in order, with the definitions of the outline
(`Outline.Legal.legalizeAll`).  Whether the definitions pass the checks does not depend on the
catalog: an outline that would be legal but for its instructions is `Outline.Shaped`.  Legalizing
such outlines succeeds when all their steps fit (`Outline.exists_legalizeAll_iff`), and fails at the
first one that does not (`Outline.legalizeAll_eq_error_iff`).
-/

namespace Isaforge.Shared

variable {insts : InstructionGroup}

/-- The name of the instruction, as a catalog gives it to applications. -/
def nameOf (insts : InstructionGroup) (id : InstId) : String :=
  ((insts.get? id).map (·.name)).getD ""

/-- The group knows the instruction of the step, with as many inputs as the step has arguments. -/
def Step.Fits (insts : InstructionGroup) (s : Step) : Prop :=
  ∃ i, insts.get? s.inst = some i ∧ s.args.length = i.arity

/-- Why the group does not put the step together. -/
inductive Step.Faulty (insts : InstructionGroup) (s : Step) : Error → Prop where
  | unknown : insts.get? s.inst = none → Faulty insts s (.unknownInstruction s.inst.index)
  | arity {i : Instruction} : insts.get? s.inst = some i → s.args.length ≠ i.arity →
      Faulty insts s (.arityMismatch i.name i.arity s.args.length)

/-- The fault of the step, if it has one. -/
def Step.fault? (insts : InstructionGroup) (s : Step) : Option Error :=
  match insts.get? s.inst with
  | none => some (.unknownInstruction s.inst.index)
  | some i =>
    if s.args.length = i.arity then none
    else some (.arityMismatch i.name i.arity s.args.length)

/-- The definition that the step puts together. -/
def Step.definition (insts : InstructionGroup) (s : Step) : Definition :=
  ⟨s.outputs, ⟨⟨s.inst, nameOf insts s.inst, []⟩, s.args.map .var⟩⟩

/-- The definitions that the outline puts together on one side. -/
def Outline.defs (insts : InstructionGroup) (side : Side) (o : Outline) : List Definition :=
  (o.filter (·.side = side)).map (Step.definition insts)

/-! ### Steps -/

/-- A step that fits is the application that the catalog makes of it. -/
theorem Step.Fits.make_eq {s : Step} (h : s.Fits insts) :
    Application.make insts.catalog (.unbound s.inst) [] (s.args.map .var) =
      .ok (s.definition insts).value := by
  obtain ⟨i, hi, hlen⟩ := h
  have harity : (s.args.map Expr.var).length = i.arity := by rw [List.length_map, hlen]
  rw [Application.make_unbound hi harity, Step.definition, nameOf, hi]
  rfl

/-- A step adds its definition to its side. -/
theorem Step.Fits.run_script {s : Step} {draft : Rule.Draft} (h : s.Fits insts) :
    (s.script insts).run draft =
      (Rule.add s.side s.outputs (s.definition insts).value.expr).run draft := by
  rw [Step.script, h.make_eq]
  obtain ⟨side, outputs, inst, args⟩ := s
  cases side <;> simp [Rule.add] <;> rfl

/-- A step has a fault or it fits, and not both. -/
theorem Step.fault?_eq_none_iff {s : Step} : s.fault? insts = none ↔ s.Fits insts := by
  rw [fault?, Fits]
  cases insts.get? s.inst <;> simp

/-- The fault that is found is the one that the step has. -/
theorem Step.fault?_eq_some_iff {s : Step} {cause : Error} :
    s.fault? insts = some cause ↔ s.Faulty insts cause := by
  constructor
  · intro h
    rw [fault?] at h
    split at h
    · rename_i hnone
      cases h
      exact .unknown hnone
    · rename_i i hi
      split at h
      · cases h
      · rename_i harity
        cases h
        exact .arity hi harity
  · intro h
    cases h with
    | unknown hnone => rw [fault?, hnone]
    | arity hi harity =>
        rw [fault?, hi]
        exact if_neg harity

/-- The catalog refuses a faulty step for its fault. -/
theorem Step.Faulty.make_eq {s : Step} {cause : Error} (h : s.Faulty insts cause) :
    Application.make insts.catalog (.unbound s.inst) [] (s.args.map .var) = .error cause := by
  have honce : ¬ ((InstRef.unbound s.inst).isBound = true ∧ ([] : List ValueType) ≠ []) :=
    fun h => h.2 rfl
  cases h with
  | unknown hnone =>
      have hsignature : insts.catalog.signature? s.inst = none := congrArg (Option.map _) hnone
      exact Application.make_of_unknown hsignature
  | @arity i hi harity =>
      have hbinding : insts.catalog.checkBinding s.inst [] = .ok () := by
        simp [InstructionGroup.catalog, InstructionGroup.checkBinding, hi]
      have hlength : (s.args.map Expr.var).length ≠ i.signature.arity := by
        rwa [List.length_map]
      rw [Application.make_of_known (InstructionGroup.catalog_signature?_eq_some hi) honce,
        InstRef.types, InstRef.id, List.append_nil, hbinding]
      refine (if_neg hlength).trans ?_
      rw [List.length_map]
      rfl

/-- A step that does not fit stops the script. -/
theorem Step.Faulty.run_script {s : Step} {draft : Rule.Draft} {cause : Error}
    (h : s.Faulty insts cause) : (s.script insts).run draft = .error cause := by
  rw [Step.script, h.make_eq]
  rfl

/-! ### Outlines -/

theorem Outline.defs_cons (side : Side) (s : Step) (rest : Outline) :
    Outline.defs insts side (s :: rest) =
      Outline.defs insts side [s] ++ Outline.defs insts side rest := by
  rw [Outline.defs, ← List.singleton_append, List.filter_append, List.map_append]
  rfl

/-- The draft with the definitions of the outline added. -/
def extend (insts : InstructionGroup) (draft : Rule.Draft) (o : Outline) : Rule.Draft where
  src := { draft.src with defs := draft.src.defs ++ o.defs insts .source }
  dst := { draft.dst with defs := draft.dst.defs ++ o.defs insts .destination }

theorem extend_cons (draft : Rule.Draft) (s : Step) (rest : Outline) :
    extend insts draft (s :: rest) = extend insts (extend insts draft [s]) rest := by
  rw [extend, Outline.defs_cons .source, Outline.defs_cons .destination, ← List.append_assoc,
    ← List.append_assoc]
  rfl

/-- Each pattern with the definitions of the outline added defines nothing twice. -/
def Extends (insts : InstructionGroup) (draft : Rule.Draft) (o : Outline) : Prop :=
  (extend insts draft o).src.outputs.Nodup ∧ (extend insts draft o).dst.outputs.Nodup

theorem Extends.first {draft : Rule.Draft} {s : Step} {rest : Outline}
    (h : Extends insts draft (s :: rest)) : Extends insts draft [s] := by
  rw [Extends, extend_cons] at h
  have hshorter : ∀ ds es : List Definition, (Definition.outputsOf (ds ++ es)).Nodup →
      (Definition.outputsOf ds).Nodup := by
    intro ds es h
    rw [Definition.outputsOf, List.flatMap_append] at h
    exact h.of_append_left
  exact ⟨hshorter _ _ h.1, hshorter _ _ h.2⟩

theorem Extends.rest {draft : Rule.Draft} {s : Step} {rest : Outline}
    (h : Extends insts draft (s :: rest)) : Extends insts (extend insts draft [s]) rest := by
  rwa [Extends, extend_cons] at h

/-- A step adds its definition when that defines nothing twice. -/
theorem Step.run_add {s : Step} {draft : Rule.Draft} (hne : s.outputs ≠ [])
    (h : Extends insts draft [s]) :
    (Rule.add s.side s.outputs (s.definition insts).value.expr).run draft =
      .ok ((), extend insts draft [s]) := by
  obtain ⟨hsrc, hdst⟩ := h
  obtain ⟨side, outputs, inst, args⟩ := s
  cases side with
  | source =>
      have hdefine := @Pattern.define_eq_ok draft.src.side draft.src.defs
        (Step.definition insts ⟨.source, outputs, inst, args⟩) hne hsrc
      rw [Rule.add, Rule.source_run]
      simp only [Step.definition] at hdefine
      rw [Step.definition, hdefine]
      simp [extend, Outline.defs, Step.definition, bind, Except.bind, pure, Except.pure]
  | destination =>
      have hdefine := @Pattern.define_eq_ok draft.dst.side draft.dst.defs
        (Step.definition insts ⟨.destination, outputs, inst, args⟩) hne hdst
      rw [Rule.add, Rule.destination_run]
      simp only [Step.definition] at hdefine
      rw [Step.definition, hdefine]
      simp [extend, Outline.defs, Step.definition, bind, Except.bind, pure, Except.pure]

/-- **The script of an outline** puts its definitions together when the group knows its
instructions and it defines nothing twice. -/
theorem Outline.run_script {o : Outline} {draft : Rule.Draft} (hfits : ∀ s ∈ o, s.Fits insts)
    (hne : ∀ s ∈ o, s.outputs ≠ []) (h : Extends insts draft o) :
    (Outline.script insts o).run draft = .ok ((), extend insts draft o) := by
  induction o generalizing draft with
  | nil =>
      simp only [Outline.script, extend, Outline.defs, List.filter_nil, List.map_nil,
        List.append_nil]
      rfl
  | cons s rest ih =>
      have hs : s.Fits insts := hfits s List.mem_cons_self
      have hrest : (Outline.script insts rest).run (extend insts draft [s]) =
          .ok ((), extend insts (extend insts draft [s]) rest) :=
        ih (fun s' h => hfits s' (List.mem_cons_of_mem _ h))
          (fun s' h => hne s' (List.mem_cons_of_mem _ h)) h.rest
      rw [Outline.script, StateT.run_bind, hs.run_script,
        Step.run_add (hne s List.mem_cons_self) h.first, extend_cons draft s rest]
      exact hrest

/-- The script stops at the first step that does not fit: what comes before it goes through, as it
defines nothing twice. -/
theorem Outline.run_script_of_fault {o : Outline} {draft : Rule.Draft} {cause : Error}
    (hfault : o.findSome? (Step.fault? insts) = some cause) (hne : ∀ s ∈ o, s.outputs ≠ [])
    (h : Extends insts draft o) : (Outline.script insts o).run draft = .error cause := by
  induction o generalizing draft with
  | nil => cases hfault
  | cons s rest ih =>
      rw [List.findSome?_cons] at hfault
      rw [Outline.script, StateT.run_bind]
      cases hs : s.fault? insts with
      | some cause' =>
          rw [hs] at hfault
          cases hfault
          rw [(Step.fault?_eq_some_iff.mp hs).run_script]
          rfl
      | none =>
          rw [hs] at hfault
          rw [(Step.fault?_eq_none_iff.mp hs).run_script,
            Step.run_add (hne s List.mem_cons_self) h.first]
          exact ih hfault (fun s' h => hne s' (List.mem_cons_of_mem _ h)) h.rest

/-! ### Rules of outlines -/

/-- The definitions of the outline on one side, as a pattern. -/
def Outline.pattern (insts : InstructionGroup) (side : Side) (o : Outline) : Pattern :=
  ⟨side, o.defs insts side⟩

/-- The group makes a rule of the outline when it knows its instructions. -/
structure Outline.Shaped (insts : InstructionGroup) (o : Outline) : Prop where
  outputs_ne_nil : ∀ s ∈ o, s.outputs ≠ []
  source_nodup : (o.pattern insts .source).outputs.Nodup
  destination_nodup : (o.pattern insts .destination).outputs.Nodup
  inputs : ∃ vs, Rule.checkInputs (o.pattern insts .source) (o.pattern insts .destination) = .ok vs
  names : Rule.NamesDistinct (o.pattern insts .source) (o.pattern insts .destination)

/-- The group makes a rule of the outline. -/
structure Outline.Legal (insts : InstructionGroup) (o : Outline) : Prop
    extends Outline.Shaped insts o where
  fits : ∀ s ∈ o, s.Fits insts

/-- The rule has the definitions of the outline. -/
structure Outline.Makes (insts : InstructionGroup) (o : Outline) (r : Rule) : Prop where
  src : r.src = o.pattern insts .source
  dst : r.dst = o.pattern insts .destination
  roles : r.roles = .classify (o.defs insts .source) (o.defs insts .destination)

/-- A legal outline makes a rule, wherever it is declared. -/
theorem Outline.Legal.build {o : Outline} (h : o.Legal insts) (site : String) :
    ∃ r, Rule.build site (o.script insts) = .ok r ∧ o.Makes insts r := by
  have hrun : (o.script insts).run {} = .ok ((), extend insts {} o) :=
    Outline.run_script h.fits h.outputs_ne_nil ⟨h.source_nodup, h.destination_nodup⟩
  obtain ⟨inputs, hinputs⟩ := h.inputs
  exact ⟨_, Rule.build_eq_ok_iff.mpr
    ⟨_, hrun, Rule.close_eq_ok_iff.mpr ⟨inputs, hinputs, h.names, rfl⟩⟩, rfl, rfl, rfl⟩

/-- The rules are added one after the other, up to the first that is refused. -/
theorem legalizeAll_cons (g : RuleGroup) (site : String) (o : Outline)
    (outlines : List (String × Outline)) :
    legalizeAll insts g ((site, o) :: outlines) =
      g.legalize site (o.script insts) >>= fun g => legalizeAll insts g outlines := by
  rw [legalizeAll, List.foldlM_cons]
  rfl

/-- **A group legalized from legal outlines** gets one rule for each, in order. -/
theorem Outline.Legal.legalizeAll {outlines : List (String × Outline)}
    (h : ∀ p ∈ outlines, p.2.Legal insts) (g : RuleGroup) :
    ∃ rules, Shared.legalizeAll insts g outlines = .ok { g with rules := g.rules ++ rules } ∧
      List.Forall₂ (Outline.Makes insts) (outlines.map (·.2)) rules := by
  induction outlines generalizing g with
  | nil => exact ⟨[], by rw [List.append_nil]; rfl, .nil⟩
  | cons p outlines ih =>
      obtain ⟨site, o⟩ := p
      rw [List.forall_mem_cons] at h
      obtain ⟨r, hbuild, hr⟩ := h.1.build site
      obtain ⟨rules, hall, hrules⟩ := ih h.2 { g with rules := g.rules ++ [r] }
      refine ⟨r :: rules, ?_, .cons hr hrules⟩
      have hstep : g.legalize site (o.script insts) =
          .ok { g with rules := g.rules ++ [r] } := by
        rw [RuleGroup.legalize, hbuild]
        rfl
      rw [legalizeAll_cons, hstep, List.append_cons g.rules r rules]
      exact hall

/-- No rule is made of an outline with a step that does not fit. -/
theorem Outline.Shaped.build_of_fault {o : Outline} (h : o.Shaped insts) {cause : Error}
    (hfault : o.findSome? (Step.fault? insts) = some cause) (site : String) :
    Rule.build site (o.script insts) = .error (.rule site cause) := by
  have hrun : (o.script insts).run {} = .error cause :=
    Outline.run_script_of_fault hfault h.outputs_ne_nil ⟨h.source_nodup, h.destination_nodup⟩
  rw [Rule.build, hrun]

/-- The steps of outlines, in order, each with the place where its rule is declared. -/
def declaredSteps (outlines : List (String × Outline)) : List (String × Step) :=
  outlines.flatMap fun (site, o) => o.map (site, ·)

/-- What legalizing fails with at the step, if it does not fit. -/
def declaredFault? (insts : InstructionGroup) (t : String × Step) : Option Error :=
  (t.2.fault? insts).map (.rule t.1)

theorem declaredFault?_eq_none_iff {t : String × Step} :
    declaredFault? insts t = none ↔ t.2.Fits insts :=
  Option.map_eq_none_iff.trans Step.fault?_eq_none_iff

/-- A fault is reported where the rule of its step is declared. -/
theorem declaredFault?_eq_some_iff {t : String × Step} {e : Error} :
    declaredFault? insts t = some e ↔ ∃ cause, t.2.Faulty insts cause ∧ e = .rule t.1 cause := by
  rw [declaredFault?, Option.map_eq_some_iff]
  simp only [Step.fault?_eq_some_iff, @eq_comm _ e]

/-- The first fault of an outline that is declared at `site`. -/
theorem findSome?_declaredFault? (site : String) (o : Outline) :
    (o.map (site, ·)).findSome? (declaredFault? insts) =
      (o.findSome? (Step.fault? insts)).map (.rule site) := by
  rw [List.findSome?_map, List.map_findSome?]
  rfl

/-- **Legalizing fails** at the first step of all outlines that does not fit. -/
theorem Outline.legalizeAll_of_fault {outlines : List (String × Outline)} {e : Error}
    (h : ∀ p ∈ outlines, p.2.Shaped insts)
    (hfault : (declaredSteps outlines).findSome? (declaredFault? insts) = some e) (g : RuleGroup) :
    Shared.legalizeAll insts g outlines = .error e := by
  induction outlines generalizing g with
  | nil => cases hfault
  | cons p outlines ih =>
      obtain ⟨site, o⟩ := p
      rw [List.forall_mem_cons] at h
      rw [declaredSteps, List.flatMap_cons, List.findSome?_append,
        findSome?_declaredFault?] at hfault
      rw [legalizeAll_cons, RuleGroup.legalize]
      cases ho : o.findSome? (Step.fault? insts) with
      | some cause =>
          rw [ho] at hfault
          cases hfault
          rw [h.1.build_of_fault ho]
          rfl
      | none =>
          rw [ho] at hfault
          have hfits : ∀ s ∈ o, s.Fits insts := fun s hs =>
            Step.fault?_eq_none_iff.mp (List.findSome?_eq_none_iff.mp ho s hs)
          obtain ⟨r, hbuild, -⟩ := Outline.Legal.build ⟨h.1, hfits⟩ site
          rw [hbuild]
          exact ih h.2 hfault _

/-- When the search finds no fault, every step of every outline fits. -/
theorem Outline.fits_of_faultless {outlines : List (String × Outline)}
    (h : (declaredSteps outlines).findSome? (declaredFault? insts) = none) :
    ∀ p ∈ outlines, ∀ s ∈ p.2, s.Fits insts := fun p hp s hs =>
  declaredFault?_eq_none_iff (t := (p.1, s)).mp (List.findSome?_eq_none_iff.mp h _
    (List.mem_flatMap.mpr ⟨p, hp, List.mem_map_of_mem hs⟩))

/-- Legalizing outlines that are legal but for their instructions succeeds when all steps fit. -/
theorem Outline.exists_legalizeAll_iff {outlines : List (String × Outline)}
    (h : ∀ p ∈ outlines, p.2.Shaped insts) {g : RuleGroup} :
    (∃ g', Shared.legalizeAll insts g outlines = .ok g') ↔
      ∀ p ∈ outlines, ∀ s ∈ p.2, s.Fits insts := by
  constructor
  · rintro ⟨g', hg'⟩ p hp s hs
    cases hfault : (declaredSteps outlines).findSome? (declaredFault? insts) with
    | none => exact Outline.fits_of_faultless hfault p hp s hs
    | some e =>
        rw [Outline.legalizeAll_of_fault h hfault] at hg'
        cases hg'
  · intro hfits
    obtain ⟨rules, hall, -⟩ := Outline.Legal.legalizeAll (fun p hp => ⟨h p hp, hfits p hp⟩) g
    exact ⟨_, hall⟩

/-- **The first step that does not fit** is what legalizing fails with. -/
theorem Outline.legalizeAll_eq_error_iff {outlines : List (String × Outline)}
    (h : ∀ p ∈ outlines, p.2.Shaped insts) {g : RuleGroup} {e : Error} :
    Shared.legalizeAll insts g outlines = .error e ↔
      ∃ before site s after cause, declaredSteps outlines = before ++ (site, s) :: after ∧
        (∀ t ∈ before, t.2.Fits insts) ∧ s.Faulty insts cause ∧ e = .rule site cause := by
  constructor
  · intro herror
    cases hfault : (declaredSteps outlines).findSome? (declaredFault? insts) with
    | none =>
        obtain ⟨g', hg'⟩ :=
          (Outline.exists_legalizeAll_iff h).mpr (Outline.fits_of_faultless hfault)
        rw [hg'] at herror
        cases herror
    | some e' =>
        rw [Outline.legalizeAll_of_fault h hfault] at herror
        cases herror
        obtain ⟨before, ⟨site, s⟩, after, hsteps, hs, hbefore⟩ :=
          List.findSome?_eq_some_iff.mp hfault
        obtain ⟨cause, hcause, rfl⟩ := declaredFault?_eq_some_iff.mp hs
        exact ⟨before, site, s, after, cause, hsteps,
          fun t ht => declaredFault?_eq_none_iff.mp (hbefore t ht), hcause, rfl⟩
  · rintro ⟨before, site, s, after, cause, hsteps, hbefore, hs, rfl⟩
    exact Outline.legalizeAll_of_fault h (List.findSome?_eq_some_iff.mpr ⟨before, (site, s), after,
      hsteps, declaredFault?_eq_some_iff.mpr ⟨cause, hs, rfl⟩,
      fun t ht => declaredFault?_eq_none_iff.mpr (hbefore t ht)⟩) g

/-- What the group holds after legalizing is what the scripts of the outlines build. -/
theorem legalizeAll_eq_ok {outlines : List (String × Outline)} {g g' : RuleGroup}
    (h : legalizeAll insts g outlines = .ok g') :
    ∃ rules, g' = { g with rules := g.rules ++ rules } ∧
      List.Forall₂ (fun p r => Rule.build p.1 (Outline.script insts p.2) = .ok r)
        outlines rules := by
  induction outlines generalizing g with
  | nil =>
      cases h
      exact ⟨[], by rw [List.append_nil], .nil⟩
  | cons p outlines ih =>
      obtain ⟨site, o⟩ := p
      rw [legalizeAll_cons, bind_eq_ok_iff] at h
      obtain ⟨g₁, hfirst, hrest⟩ := h
      obtain ⟨r, hr, hg₁⟩ := bind_eq_ok_iff.mp hfirst
      cases hg₁
      obtain ⟨rules, rfl, hrules⟩ := ih hrest
      exact ⟨r :: rules, by simp, .cons hr hrules⟩

/-! ### Rules that were made -/

section

variable {o : Outline} {site : String} {r : Rule}

/-- Every rule that is built from a legal outline is the one that it makes. -/
theorem Outline.Legal.makes (h : o.Legal insts) (hr : Rule.build site (o.script insts) = .ok r) :
    o.Makes insts r := by
  obtain ⟨r', hr', hmakes⟩ := h.build site
  rw [hr] at hr'
  cases hr'
  exact hmakes

theorem Step.Fits.made {s : Step} (h : s.Fits insts) :
    (s.definition insts).value.expr.Made insts.catalog := by
  refine .app (fun e he => ?_) h.make_eq
  obtain ⟨v, -, rfl⟩ := List.mem_map.mp he
  exact .var v

/-- A rule made of a legal outline is closed over the catalog. -/
theorem Outline.Legal.closedOver (h : o.Legal insts)
    (hr : Rule.build site (o.script insts) = .ok r) : r.ClosedOver insts.catalog := by
  have hmem : ∀ (side : Side) (d : Definition), d ∈ o.defs insts side →
      d.outputs ≠ [] ∧ d.value.expr.Made insts.catalog := by
    intro side d hd
    obtain ⟨s, hs, rfl⟩ := List.mem_map.mp hd
    have hs := List.mem_of_mem_filter hs
    exact ⟨h.outputs_ne_nil s hs, (h.fits s hs).made⟩
  have hsound : ∀ side : Side, (o.pattern insts side).outputs.Nodup →
      (o.pattern insts side).Sound insts.catalog := fun side hnodup =>
    ⟨hnodup, fun d hd => (hmem side d hd).1, fun d hd => (hmem side d hd).2⟩
  obtain ⟨draft, hrun, hclose⟩ := Rule.build_eq_ok_iff.mp hr
  have hdraft : (o.script insts).run {} = .ok ((), extend insts {} o) :=
    Outline.run_script h.fits h.outputs_ne_nil ⟨h.source_nodup, h.destination_nodup⟩
  rw [hdraft] at hrun
  cases hrun
  exact ⟨site, _, _, hsound .source h.source_nodup, hsound .destination h.destination_nodup,
    hclose⟩

end

end Isaforge.Shared
