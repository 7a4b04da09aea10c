import Isaforge.Proofs.Classification
import Isaforge.Proofs.Legalizer.Results
import Isaforge.Proofs.Shared.Preservation

/-!
# Validity — the shared rules against any catalog

The rules of `narrow` and `expand` are outlines, so they are made against any group of instructions
and with any instructions in place of the shared ones, the same instruction in several places among
them.  What can go wrong is little: the group lacks an instruction, or has it with another number of
inputs (`Settled.fails_iff`); and two rules match the same instruction (`Settled.generated_iff`).

* `narrow_fits_iff`, `expand_fits_iff`: the steps of all outlines fit when the group has the
  instructions of `narrowNeeds` and `expandNeeds`.
* `Outline.Rewrites`: the outline is one of `a << op(x, y)`, whatever the instructions are.
* `settled_of_rewrites`: what holds of any group legalized from such outlines.
* `groups_settled`: so it does of `narrow` and of `expand`.
-/

namespace Isaforge.Shared

open Legalizer Source

variable {insts : InstructionGroup} {ops : Opcodes}

/-! ### Needs -/

/-- The group has the instruction, with so many inputs. -/
def HasArity (insts : InstructionGroup) (id : InstId) (n : Nat) : Prop :=
  ∃ i, insts.get? id = some i ∧ i.arity = n

/-- The instructions that the rules of `narrow` use, with their numbers of inputs. -/
def narrowNeeds (ops : Opcodes) : List (InstId × Nat) := [
  (ops.iadd, 2), (ops.isub, 2), (ops.band, 2), (ops.bor, 2), (ops.bxor, 2),
  (ops.iaddCout, 2), (ops.isubBout, 2), (ops.iconcatLohi, 2),
  (ops.isplitLohi, 1), (ops.iaddCin, 3), (ops.isubBin, 3)]

/-- The instructions that the rules of `expand` use, with their numbers of inputs. -/
def expandNeeds (ops : Opcodes) : List (InstId × Nat) := [
  (ops.iaddImm, 2), (ops.imulImm, 2), (ops.bandNot, 2), (ops.borNot, 2), (ops.bxorNot, 2),
  (ops.iadd, 2), (ops.imul, 2), (ops.band, 2), (ops.bor, 2), (ops.bxor, 2),
  (ops.iconst, 1), (ops.bnot, 1)]

/-- The instructions that the rules of `narrow` match. -/
def narrowSources (ops : Opcodes) : List InstId :=
  [ops.iadd, ops.isub, ops.band, ops.bor, ops.bxor]

/-- The instructions that the rules of `expand` match. -/
def expandSources (ops : Opcodes) : List InstId :=
  [ops.iaddImm, ops.imulImm, ops.bandNot, ops.borNot, ops.bxorNot]

theorem Step.fits_iff {s : Step} : s.Fits insts ↔ HasArity insts s.inst s.args.length := by
  simp only [Step.Fits, HasArity, eq_comm]

section

variable {op lowOp highOp unaryOp plainOp : InstId}

/-- Sum and difference need the operation, its two forms on halves, and both ways between an integer
and its halves. -/
theorem narrowWithCarry_fits_iff :
    (∀ s ∈ narrowWithCarry ops op lowOp highOp, s.Fits insts) ↔
      HasArity insts op 2 ∧ HasArity insts lowOp 2 ∧ HasArity insts highOp 3 ∧
        HasArity insts ops.isplitLohi 1 ∧ HasArity insts ops.iconcatLohi 2 := by
  simp only [narrowWithCarry, List.forall_mem_cons, Step.fits_iff, List.length_cons,
    List.length_nil, Nat.reduceAdd]
  grind

/-- A bitwise operation is its own form on halves. -/
theorem narrowBitwise_fits_iff :
    (∀ s ∈ narrowBitwise ops op, s.Fits insts) ↔
      HasArity insts op 2 ∧ HasArity insts ops.isplitLohi 1 ∧
        HasArity insts ops.iconcatLohi 2 := by
  simp only [narrowBitwise, List.forall_mem_cons, Step.fits_iff, List.length_cons,
    List.length_nil, Nat.reduceAdd]
  grind

/-- The second operand takes one operation of its own before the plain one is applied. -/
theorem expandSecond_fits_iff :
    (∀ s ∈ expandSecond op unaryOp plainOp, s.Fits insts) ↔
      HasArity insts op 2 ∧ HasArity insts unaryOp 1 ∧ HasArity insts plainOp 2 := by
  simp only [expandSecond, List.forall_mem_cons, Step.fits_iff, List.length_cons,
    List.length_nil, Nat.reduceAdd]
  grind

end

/-- Over all outlines of `narrow`, the needs are those listed, each once. -/
theorem narrow_fits_iff :
    (∀ o ∈ narrowOutlines ops, ∀ s ∈ o, s.Fits insts) ↔
      ∀ need ∈ narrowNeeds ops, HasArity insts need.1 need.2 := by
  simp only [narrowOutlines, narrowNeeds, List.forall_mem_cons, narrowWithCarry_fits_iff,
    narrowBitwise_fits_iff]
  grind

/-- Over all outlines of `expand`, too. -/
theorem expand_fits_iff :
    (∀ o ∈ expandOutlines ops, ∀ s ∈ o, s.Fits insts) ↔
      ∀ need ∈ expandNeeds ops, HasArity insts need.1 need.2 := by
  simp only [expandOutlines, expandNeeds, List.forall_mem_cons, expandSecond_fits_iff]
  grind

/-! ### Outlines of one operation -/

/-- The outline is one of `a << op(x, y)` that needs nothing but `x` and `y`: its last definition is
that of `a`, and all others are of temporaries. -/
structure Outline.Rewrites (insts : InstructionGroup) (op : InstId) (o : Outline) : Prop where
  source : o.defs insts .source = [Step.definition insts ⟨.source, [a], op, [x, y]⟩]
  inputs : Rule.checkInputs (o.pattern insts .source) (o.pattern insts .destination) = .ok [x, y]
  recomputed : ∃ d, (o.defs insts .destination).getLast? = some d ∧ d.outputs = [a]
  counts : ∃ n, (Roles.classify (o.defs insts .source) (o.defs insts .destination)).counts =
    ⟨2, 1, 0, n⟩

/-- The counts of a classification depend on the variables as they appear and on those that are
defined. -/
theorem counts_classify {src dst : List Definition} {vs outs outs' : List Var} {c : RoleCounts}
    (hvars : Roles.appearances (src ++ dst) = vs) (hsrc : Definition.outputsOf src = outs)
    (hdst : Definition.outputsOf dst = outs')
    (h : (Roles.mk ((distinct vs).map fun v =>
      (v, .ofDefined (v ∈ outs) (v ∈ outs')))).counts = c) :
    (Roles.classify src dst).counts = c := by
  subst hvars hsrc hdst
  exact h

section

variable {op lowOp highOp unaryOp plainOp : InstId}

/-- The halves of the operands, those of the result and the carry are the seven temporaries. -/
theorem narrowWithCarry_rewrites :
    (narrowWithCarry ops op lowOp highOp).Rewrites insts op where
  source := rfl
  inputs := rfl
  recomputed := ⟨_, rfl, rfl⟩
  counts := ⟨7, counts_classify
    (show _ = [a, x, y, xl, xh, x, yl, yh, y, al, c, xl, yl, ah, xh, yh, c, a, al, ah] from rfl)
    (show _ = [a] from rfl) (show _ = [xl, xh, yl, yh, al, c, ah, a] from rfl) (by decide)⟩

/-- Without a carry there are six. -/
theorem narrowBitwise_rewrites : (narrowBitwise ops op).Rewrites insts op where
  source := rfl
  inputs := rfl
  recomputed := ⟨_, rfl, rfl⟩
  counts := ⟨6, counts_classify
    (show _ = [a, x, y, xl, xh, x, yl, yh, y, al, xl, yl, ah, xh, yh, a, al, ah] from rfl)
    (show _ = [a] from rfl) (show _ = [xl, xh, yl, yh, al, ah, a] from rfl) (by decide)⟩

/-- The only temporary is what the second operand is turned into. -/
theorem expandSecond_rewrites : (expandSecond op unaryOp plainOp).Rewrites insts op where
  source := rfl
  inputs := rfl
  recomputed := ⟨_, rfl, rfl⟩
  counts := ⟨1, counts_classify (show _ = [a, x, y, c, y, a, x, c] from rfl)
    (show _ = [a] from rfl) (show _ = [c, a] from rfl) (by decide)⟩

end

/-- The outlines of `narrow`, each with the instruction that it rewrites. -/
theorem narrowOutlines_rewrite :
    List.Forall₂ (Outline.Rewrites insts) (narrowSources ops) (narrowOutlines ops) :=
  .cons narrowWithCarry_rewrites <| .cons narrowWithCarry_rewrites <|
    .cons narrowBitwise_rewrites <| .cons narrowBitwise_rewrites <|
    .cons narrowBitwise_rewrites .nil

/-- The outlines of `expand`, each with the instruction that it rewrites. -/
theorem expandOutlines_rewrite :
    List.Forall₂ (Outline.Rewrites insts) (expandSources ops) (expandOutlines ops) :=
  .cons expandSecond_rewrites <| .cons expandSecond_rewrites <|
    .cons expandSecond_rewrites <| .cons expandSecond_rewrites <|
    .cons expandSecond_rewrites .nil

/-! ### Rules of one operation -/

/-- The rule rewrites `op`: its source is one application of it, to variables, and it has two
inputs, one output, and only temporaries besides. -/
structure Rewriting (op : InstId) (r : Rule) : Prop where
  source : SourceOf op r
  inputs : r.inputs.length = 2
  counts : ∃ n, r.roles.counts = ⟨2, 1, 0, n⟩ ∧ r.roles.size = 3 + n

/-- A function can be generated for the rule, whose last definition is that of its output. -/
structure Ready (insts : InstructionGroup) (r : Rule) : Prop where
  built : r.Built
  sound : r.Sound insts.catalog
  recomputed : Recomputed r

section

variable {op : InstId} {o : Outline} {site : String} {r : Rule}

/-- A rule made from such an outline rewrites the instruction, and a function can be generated for
it. -/
theorem Outline.Rewrites.made (h : o.Rewrites insts op) (hlegal : o.Legal insts)
    (hr : Rule.build site (o.script insts) = .ok r) : Rewriting op r ∧ Ready insts r := by
  obtain ⟨hsrc, hdst, hroles⟩ := hlegal.makes hr
  have hsound : r.Sound insts.catalog := (hlegal.closedOver hr).sound
  have hinputs : r.inputs = [x, y] := by
    have hcheck := hsound.inputs_eq
    rw [hsrc, hdst, h.inputs] at hcheck
    exact (Except.ok.inj hcheck).symm
  have hdefs : r.src.defs = [Step.definition insts ⟨.source, [a], op, [x, y]⟩] := by
    rw [hsrc]
    exact h.source
  have hsource : SourceOf op r := by
    refine ⟨_, hdefs, rfl, fun e he => ?_⟩
    obtain ⟨v, -, rfl⟩ := List.mem_map.mp he
    exact Option.some_ne_none v
  have hcounts : ∃ n, r.roles.counts = ⟨2, 1, 0, n⟩ ∧ r.roles.size = 3 + n := by
    obtain ⟨n, hn⟩ := h.counts
    have htotal := Roles.total_counts r.roles
    rw [hroles, hn] at htotal ⊢
    exact ⟨n, rfl, htotal.symm⟩
  have hrecomputed : Recomputed r := by
    obtain ⟨d, hd, houtputs⟩ := h.recomputed
    refine ⟨d, ?_, ?_⟩
    · rw [hdst]
      exact hd
    · rw [houtputs, Pattern.outputs, hdefs]
      rfl
  exact ⟨⟨hsource, congrArg List.length hinputs, hcounts⟩, ⟨site, _, hr⟩, hsound, hrecomputed⟩

/-- So do all rules of a group, one for each outline and in their order. -/
theorem made_of_rewrites {sources : List InstId} {outlines : List (String × Outline)}
    {rules : List Rule}
    (h : List.Forall₂ (Outline.Rewrites insts) sources (outlines.map (·.2)))
    (hlegal : ∀ p ∈ outlines, p.2.Legal insts)
    (hrules : List.Forall₂ (fun p r => Rule.build p.1 (Outline.script insts p.2) = .ok r)
      outlines rules) :
    List.Forall₂ Rewriting sources rules ∧ ∀ r ∈ rules, Ready insts r := by
  induction hrules generalizing sources with
  | nil =>
      cases h
      exact ⟨.nil, List.forall_mem_nil _⟩
  | cons hr _ ih =>
      cases h with
      | cons ho hrest =>
          rw [List.forall_mem_cons] at hlegal
          obtain ⟨hrewriting, hready⟩ := ho.made hlegal.1 hr
          obtain ⟨hrewritings, hreadys⟩ := ih hrest hlegal.2
          exact ⟨.cons hrewriting hrewritings, List.forall_mem_cons.mpr ⟨hready, hreadys⟩⟩

end

/-! ### Their functions -/

/-- The arm of the rule rewrites the instruction in place: its last call replaces the instruction,
and no statement before that is about the results of the instruction or removes it. -/
def RewrittenInPlace (insts : InstructionGroup) (g : RuleGroup) (r : Rule) : Prop :=
  ∃ (m : Matcher) (i : Instruction) (front : List Statement) (call : BuilderCall),
    Matcher.ofRule r = .ok m ∧ insts.get? m.head.inst = some i ∧
    m.statements insts i = (front ++ [Statement.replace call, .done]).map .ok ∧
    (armCode i (front ++ [.replace call, .done])).nested.nested <:+:
      (groupEmission insts g).lines ∧
    ∀ s ∈ front, s.resultUse? = none

section

variable {g : RuleGroup} {ids : List InstId}

/-- Nothing but two rules for one instruction stands in the way of generation. -/
theorem generated_iff_nodup (hready : ∀ r ∈ g.rules, Ready insts r)
    (h : List.Forall₂ SourceOf ids g.rules) :
    (groupEmission insts g).error? = none ↔ ids.Nodup := by
  have hknown : ∀ r ∈ g.rules, KnownWithin insts r := by
    intro r hr d hd a ha
    obtain ⟨i, hi, -⟩ := known_of_fits ((hready r hr).sound.fits d hd a ha)
    exact ⟨i, hi⟩
  rw [error?_eq_none_iff fun r hr => (hready r hr).built, and_iff_left hknown, usable_iff_nodup h]

/-- In a group that is generated, the arm of such a rule rewrites in place. -/
theorem Ready.rewrittenInPlace {r : Rule} (h : Ready insts r)
    (hgen : (groupEmission insts g).error? = none) (hr : r ∈ g.rules) :
    RewrittenInPlace insts g r := by
  obtain ⟨m, i, arm, hof, hi, harm, hcode⟩ := exists_arm hgen hr
  obtain ⟨hsrc, rfl⟩ := Matcher.ofRule_eq_ok_iff.mp hof
  obtain ⟨front, call, rfl, hfront⟩ :=
    exists_replace hsrc h.sound harm ((replaces_iff hsrc).mpr h.recomputed)
  refine ⟨m, i, front, call, hof, hi, harm, hcode, fun s hs => ?_⟩
  refine Option.eq_none_iff_forall_ne_some.mpr fun use huse => ?_
  have hmem : s ∈ withUse use front := List.mem_filter.mpr ⟨hs, by simpa using huse⟩
  rw [hfront use] at hmem
  cases hmem

end

/-! ### The groups -/

/-- What becomes of a group of rules that match the instructions `sources` and are put together in
the steps `steps`, each with the place where its rule is declared, with the instructions `needs`. -/
structure Settled (insts : InstructionGroup) (sources : List InstId)
    (needs : List (InstId × Nat)) (steps : List (String × Step))
    (outcome : Except Error RuleGroup) : Prop where
  /-- It exists when the catalog has all instructions, with the right numbers of inputs. -/
  exists_iff : (∃ g, outcome = .ok g) ↔ ∀ need ∈ needs, HasArity insts need.1 need.2
  /-- Otherwise the error is the one of the first application that the catalog does not take: its
  instruction is unknown, or has another number of inputs.  It is reported where the rule of the
  application is declared. -/
  fails_iff : ∀ e, outcome = .error e ↔
    ∃ before site s after cause, steps = before ++ (site, s) :: after ∧
      (∀ t ∈ before, t.2.Fits insts) ∧ s.Faulty insts cause ∧ e = .rule site cause
  /-- It has a rule for each of five instructions. -/
  rewriting : ∀ g, outcome = .ok g →
    g.rules.length = 5 ∧ List.Forall₂ Rewriting sources g.rules
  /-- It has a function when no two rules match the same instruction. -/
  generated_iff : ∀ g, outcome = .ok g → ∀ p : Page,
    (p.emit (groupEmission insts g)).2 = .ok () ↔ sources.Nodup
  /-- Then every rule rewrites in place. -/
  in_place : ∀ g, outcome = .ok g → sources.Nodup → ∀ r ∈ g.rules, RewrittenInPlace insts g r

/-- From the outlines alone: what becomes of the group, for any instructions in their places. -/
theorem settled_of_rewrites {g : RuleGroup} {sources : List InstId} {needs : List (InstId × Nat)}
    {outlines : List (String × Outline)} (hg : g.rules = []) (hfive : sources.length = 5)
    (hshaped : ∀ o ∈ outlines.map (·.2), o.Shaped insts)
    (h : List.Forall₂ (Outline.Rewrites insts) sources (outlines.map (·.2)))
    (hneeds : (∀ o ∈ outlines.map (·.2), ∀ s ∈ o, s.Fits insts) ↔
      ∀ need ∈ needs, HasArity insts need.1 need.2) :
    Settled insts sources needs (declaredSteps outlines) (legalizeAll insts g outlines) := by
  rw [List.forall_mem_map] at hshaped hneeds
  have hmade : ∀ g', legalizeAll insts g outlines = .ok g' →
      List.Forall₂ Rewriting sources g'.rules ∧ ∀ r ∈ g'.rules, Ready insts r := by
    intro g' hg'
    have hfits := (Outline.exists_legalizeAll_iff hshaped).mp ⟨g', hg'⟩
    obtain ⟨rules, rfl, hrules⟩ := legalizeAll_eq_ok hg'
    rw [hg, List.nil_append]
    exact made_of_rewrites h (fun p hp => ⟨hshaped p hp, hfits p hp⟩) hrules
  have hgen : ∀ g', legalizeAll insts g outlines = .ok g' →
      ((groupEmission insts g').error? = none ↔ sources.Nodup) := fun g' hg' =>
    generated_iff_nodup (hmade g' hg').2 ((hmade g' hg').1.imp fun _ _ h => h.source)
  refine ⟨(Outline.exists_legalizeAll_iff hshaped).trans hneeds,
    fun e => Outline.legalizeAll_eq_error_iff hshaped, fun g' hg' => ?_, fun g' hg' p => ?_,
    fun g' hg' hnodup r hr => ?_⟩
  · obtain ⟨hrewriting, -⟩ := hmade g' hg'
    exact ⟨hrewriting.length_eq.symm.trans hfive, hrewriting⟩
  · exact Page.snd_emit_eq_ok_iff.trans (hgen g' hg')
  · exact ((hmade g' hg').2 r hr).rewrittenInPlace ((hgen g' hg').mpr hnodup) hr

/-- **The shared rules are valid against any catalog** that has their instructions with the right
numbers of inputs, whatever the instructions are. -/
theorem groups_settled (insts : InstructionGroup) (sites : Sites) (ops : Opcodes) :
    Settled insts (narrowSources ops) (narrowNeeds ops)
        (declaredSteps (sites.narrow.zip (narrowOutlines ops))) (narrow sites insts ops) ∧
      Settled insts (expandSources ops) (expandNeeds ops)
        (declaredSteps (sites.expand.zip (expandOutlines ops))) (expand sites insts ops) :=
  ⟨settled_of_rewrites rfl rfl narrowOutlines_shaped narrowOutlines_rewrite narrow_fits_iff,
    settled_of_rewrites rfl rfl expandOutlines_shaped expandOutlines_rewrite expand_fits_iff⟩

/-- The opcodes, with sums in place of differences. -/
def withoutDifferences : Opcodes :=
  { Shared.ops with isub := Shared.ops.iadd }

/-- A place for each rule. -/
def ruleSites : Sites :=
  ⟨"iadd", "isub", "bitwise", "iadd_imm", "imul_imm", "band_not", "bor_not", "bxor_not"⟩

/-- The group has its five rules then, but no function: two of them match sums. -/
theorem withoutDifferences_refused :
    ∃ g, narrow ruleSites group withoutDifferences = .ok g ∧ g.rules.length = 5 ∧
      ∀ p : Page, (p.emit (groupEmission group g)).2 ≠ .ok () := by
  obtain ⟨hsettled, -⟩ := groups_settled group ruleSites withoutDifferences
  have hfits : ∀ o ∈ narrowOutlines withoutDifferences, ∀ s ∈ o, s.Fits group := by decide
  obtain ⟨g, hg⟩ := hsettled.exists_iff.mpr (narrow_fits_iff.mp hfits)
  refine ⟨g, hg, (hsettled.rewriting g hg).1, fun p hp => ?_⟩
  have hnodup : (narrowSources withoutDifferences).Nodup :=
    (hsettled.generated_iff g hg p).mp hp
  exact absurd hnodup (by decide)

end Isaforge.Shared
