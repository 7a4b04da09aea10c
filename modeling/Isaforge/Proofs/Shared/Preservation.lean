import Isaforge.Proofs.Shared.Growth
import Isaforge.Proofs.Shared.Meaning
import Isaforge.Proofs.Shared.Outline
import Isaforge.Shared.Definitions

/-!
# Preservation — the shared legalization rules preserve meaning

A rule preserves meaning at `B` bits when its destination computes what its source does.  Its
source is one application to distinct variables; for all values that the operands of the
instruction admit, the application has one result, an integer of `B` bits, and the definitions of
the destination, evaluated in order, bind the output of the rule to it.

Every shared rule does (`definitions_preserve`): those of `narrow` at twice any width, those of
`expand` at any width.  The rules are instances of three outlines, so there is one evaluation of
the destination for each outline (`run_narrowWithCarry`, `run_narrowBitwise`, `run_expandSecond`);
it leaves an equation on the halves or on one operation, and these are the lemmas of `Halves`.
-/

namespace Isaforge.Shared

open Value (Admitted)

/-- The destination of the rule computes what its source does, on integers of `B` bits. -/
def PreservesMeaning (insts : InstructionGroup) (B : Nat) (r : Rule) : Prop :=
  ∃ (d : Definition) (v : Var) (vs : List Var) (i : Instruction),
    r.src.defs = [d] ∧ d.outputs = [v] ∧ d.value.args = vs.map .var ∧ vs.Nodup ∧
      r.isOutput v ∧ insts.get? d.value.head.inst = some i ∧
        ∀ σ : Var → Value, List.Forall₂ (fun o w => Admitted B o (σ w)) i.ins vs →
          ∃ z : BitVec B, d.results (meaning B) σ = [.int B z] ∧
            Definition.runAll (meaning B) σ r.dst.defs v = .int B z

/-- The ids of the shared instructions in their own group. -/
abbrev ops : Opcodes :=
  .startingAt 0

variable {B w : Nat} {σ : Var → Value}

/-! ### Destinations -/

section

variable {op lowOp highOp unaryOp plainOp : InstId} {p q z : BitVec (2 * w)}

/-- The definition of a step binds its outputs to what its instruction computes of its
arguments. -/
theorem run_definition (s : Step) :
    (s.definition group).run (meaning B) σ =
      bindAll σ s.outputs (meaningOf B (nameOf group s.inst) (s.args.map σ)) := by
  rw [Definition.run, Definition.results, Step.definition, Expr.values_map_var, meaning]

/-- Splitting an integer gives its low half first. -/
theorem meaningOf_split (B : Nat) (p : BitVec (2 * w)) :
    meaningOf B (nameOf group ops.isplitLohi) [.int (2 * w) p] =
      [.int w (low p), .int w (high p)] :=
  split_int w p

/-- Joining the halves of an integer gives it back. -/
theorem meaningOf_join (B : Nat) (z : BitVec (2 * w)) :
    meaningOf B (nameOf group ops.iconcatLohi) [.int w (low z), .int w (high z)] =
      [.int (2 * w) z] := by
  have hjoin : join (low z) (high z) = z := join_eq rfl rfl
  have hmeaning : meaningOf B (nameOf group ops.iconcatLohi) [.int w (low z), .int w (high z)] =
      [.int (2 * w) (join (low z) (high z))] :=
    Value.onInts_int (fun w lo hi => [.int (2 * w) (join lo hi)]) (low z) (high z)
  rw [hmeaning, hjoin]

/-- The destination of `narrowWithCarry` joins the two halves of `z` when its operations give
them. -/
theorem run_narrowWithCarry {k : Bool} (hx : σ x = .int (2 * w) p) (hy : σ y = .int (2 * w) q)
    (hlow : meaningOf B (nameOf group lowOp) [.int w (low p), .int w (low q)] =
      [.int w (low z), .flag k])
    (hhigh : meaningOf B (nameOf group highOp) [.int w (high p), .int w (high q), .flag k] =
      [.int w (high z)]) :
    Definition.runAll (meaning B) σ
      (Outline.defs group .destination (narrowWithCarry ops op lowOp highOp)) a =
        .int (2 * w) z := by
  -- evaluation looks the variables up as they are written out in the outline
  have hx' : σ ⟨0, "x"⟩ = .int (2 * w) p := hx
  have hy' : σ ⟨1, "y"⟩ = .int (2 * w) q := hy
  simp [Outline.defs, narrowWithCarry, Definition.runAll, run_definition, bindAs, x, y, a, xl, xh,
    yl, yh, al, ah, c, hx', hy', hlow, hhigh, meaningOf_split, meaningOf_join]

/-- The outline of a bitwise operation joins the results on the two halves. -/
theorem run_narrowBitwise (hx : σ x = .int (2 * w) p) (hy : σ y = .int (2 * w) q)
    (hlow : meaningOf B (nameOf group op) [.int w (low p), .int w (low q)] = [.int w (low z)])
    (hhigh : meaningOf B (nameOf group op) [.int w (high p), .int w (high q)] =
      [.int w (high z)]) :
    Definition.runAll (meaning B) σ
      (Outline.defs group .destination (narrowBitwise ops op)) a = .int (2 * w) z := by
  have hx' : σ ⟨0, "x"⟩ = .int (2 * w) p := hx
  have hy' : σ ⟨1, "y"⟩ = .int (2 * w) q := hy
  simp [Outline.defs, narrowBitwise, Definition.runAll, run_definition, bindAs, x, y, a, xl, xh, yl,
    yh, al, ah, hx', hy', hlow, hhigh, meaningOf_split, meaningOf_join]

/-- The outline computes the operation on the first operand and the changed second one. -/
theorem run_expandSecond {e z : Value} (hunary : meaningOf B (nameOf group unaryOp) [σ y] = [e])
    (hplain : meaningOf B (nameOf group plainOp) [σ x, e] = [z]) :
    Definition.runAll (meaning B) σ
      (Outline.defs group .destination (expandSecond op unaryOp plainOp)) a = z := by
  have hunary' : meaningOf B (nameOf group unaryOp) [σ ⟨1, "y"⟩] = [e] := hunary
  have hplain' : meaningOf B (nameOf group plainOp) [σ ⟨0, "x"⟩, e] = [z] := hplain
  simp [Outline.defs, expandSecond, Definition.runAll, run_definition, bindAs, x, y, a, c, hunary',
    hplain']

end

/-! ### Rules -/

/-- All variables of the outlines. -/
def allVars : List Var :=
  [x, y, a, xl, xh, yl, yh, al, ah, c]

/-- No two variables of the outlines share a name. -/
theorem eq_of_name_eq : ∀ v ∈ allVars, ∀ v' ∈ allVars, v.name = v'.name → v = v' := by
  decide

/-- So patterns over these variables pass the check of the names. -/
theorem namesDistinct_of_subset {src dst : Pattern}
    (h : Roles.appearances (src.defs ++ dst.defs) ⊆ allVars) : Rule.NamesDistinct src dst :=
  fun v v' hv hv' =>
    eq_of_name_eq v (h (Roles.mem_appearances.mpr hv)) v' (h (Roles.mem_appearances.mpr hv'))

/-- A rule for `a << op(x, y)` preserves meaning when its destination computes what `op` does. -/
theorem preservesMeaning_of_makes {o : Outline} {r : Rule} {op : InstId} {i : Instruction}
    {ox oy : Operand} (hr : o.Makes group r)
    (hsrc : Outline.defs group .source o = [Step.definition group ⟨.source, [a], op, [x, y]⟩])
    (hdst : a ∈ Definition.outputsOf (o.defs group .destination))
    (hop : group.get? op = some i) (hins : i.ins = [ox, oy])
    (h : ∀ σ : Var → Value, Admitted B ox (σ x) → Admitted B oy (σ y) →
      ∃ z : BitVec B, meaningOf B (nameOf group op) [σ x, σ y] = [.int B z] ∧
        Definition.runAll (meaning B) σ (o.defs group .destination) a = .int B z) :
    PreservesMeaning group B r := by
  refine ⟨Step.definition group ⟨.source, [a], op, [x, y]⟩, a, [x, y], i, ?_, rfl, rfl, by decide,
    ?_, hop, ?_⟩
  · rw [hr.src]
    exact hsrc
  · have hroles : r.roles = .classify r.src.defs r.dst.defs := by
      rw [hr.roles, hr.src, hr.dst]
      rfl
    rw [Rule.isOutput_iff hroles, hr.src, hr.dst]
    refine ⟨?_, hdst⟩
    rw [Outline.pattern, Pattern.outputs, hsrc]
    exact List.mem_cons_self
  · intro σ hσ
    rw [hins] at hσ
    obtain ⟨hx, ⟨hy, -⟩⟩ : Admitted B ox (σ x) ∧ Admitted B oy (σ y) ∧ True := by
      simpa using hσ
    rw [hr.dst]
    exact h σ hx hy

/-! ### Legal outlines -/

section

variable {insts : InstructionGroup} {ops : Opcodes} {op lowOp highOp unaryOp plainOp : InstId}

theorem narrowWithCarry_shaped :
    Outline.Shaped insts (narrowWithCarry ops op lowOp highOp) where
  outputs_ne_nil := by simp [narrowWithCarry]
  source_nodup := show [a].Nodup by decide
  destination_nodup := show [xl, xh, yl, yh, al, c, ah, a].Nodup by decide
  inputs := ⟨[x, y], rfl⟩
  names := namesDistinct_of_subset <|
    show [a, x, y, xl, xh, x, yl, yh, y, al, c, xl, yl, ah, xh, yh, c, a, al, ah] ⊆ allVars by
      decide

theorem narrowBitwise_shaped : Outline.Shaped insts (narrowBitwise ops op) where
  outputs_ne_nil := by simp [narrowBitwise]
  source_nodup := show [a].Nodup by decide
  destination_nodup := show [xl, xh, yl, yh, al, ah, a].Nodup by decide
  inputs := ⟨[x, y], rfl⟩
  names := namesDistinct_of_subset <|
    show [a, x, y, xl, xh, x, yl, yh, y, al, xl, yl, ah, xh, yh, a, al, ah] ⊆ allVars by
      decide

theorem expandSecond_shaped : Outline.Shaped insts (expandSecond op unaryOp plainOp) where
  outputs_ne_nil := by simp [expandSecond]
  source_nodup := show [a].Nodup by decide
  destination_nodup := show [c, a].Nodup by decide
  inputs := ⟨[x, y], rfl⟩
  names := namesDistinct_of_subset <| show [a, x, y, c, y, a, x, c] ⊆ allVars by decide

/-- The outlines of the shared groups are legal but for their instructions, whatever these are. -/
theorem narrowOutlines_shaped : ∀ o ∈ narrowOutlines ops, o.Shaped insts := by
  simp [narrowOutlines, narrowWithCarry_shaped, narrowBitwise_shaped]

theorem expandOutlines_shaped : ∀ o ∈ expandOutlines ops, o.Shaped insts := by
  simp [expandOutlines, expandSecond_shaped]

end

instance (insts : InstructionGroup) (s : Step) : Decidable (s.Fits insts) :=
  decidable_of_iff ((insts.get? s.inst).any fun i => s.args.length = i.arity) <| by
    simp [Step.Fits, Option.any_eq_true]

/-- Over the shared instructions, every outline of `narrow` makes a rule. -/
theorem narrow_legal : ∀ o ∈ narrowOutlines ops, o.Legal group := by
  have hfits : ∀ o ∈ narrowOutlines ops, ∀ s ∈ o, s.Fits group := by decide
  exact fun o ho => ⟨narrowOutlines_shaped o ho, hfits o ho⟩

/-- Over the shared instructions, every outline of `expand` makes a rule. -/
theorem expand_legal : ∀ o ∈ expandOutlines ops, o.Legal group := by
  have hfits : ∀ o ∈ expandOutlines ops, ∀ s ∈ o, s.Fits group := by decide
  exact fun o ho => ⟨expandOutlines_shaped o ho, hfits o ho⟩

/-! ### Families of rules -/

/-- A rule of `narrowWithCarry` preserves meaning when the low half of what the wide operation
gives is the operation on the low halves, and the high half takes their carry. -/
theorem narrowWithCarry_preserves {r : Rule} {op lowOp highOp : InstId} {i : Instruction}
    {n m : String} {s t : TypeVar} {f : (w : Nat) → BitVec w → BitVec w → BitVec w}
    {g : (w : Nat) → BitVec w → BitVec w → Bool → BitVec w}
    {k : (w : Nat) → BitVec w → BitVec w → Bool}
    (hr : Outline.Makes group (narrowWithCarry ops op lowOp highOp) r)
    (hop : group.get? op = some i) (hins : i.ins = [valueOf n s, valueOf m t])
    (hwide : meaningOf (2 * w) (nameOf group op) = Value.onInts fun w p q => [.int w (f w p q)])
    (hlowOp : meaningOf (2 * w) (nameOf group lowOp) =
      Value.onInts fun w p q => [.int w (f w p q), .flag (k w p q)])
    (hhighOp : meaningOf (2 * w) (nameOf group highOp) =
      Value.onIntsAndFlag fun w p q c => [.int w (g w p q c)])
    (hlow : ∀ p q : BitVec (2 * w), low (f _ p q) = f w (low p) (low q))
    (hhigh : ∀ p q : BitVec (2 * w),
      high (f _ p q) = g w (high p) (high q) (k w (low p) (low q))) :
    PreservesMeaning group (2 * w) r := by
  refine preservesMeaning_of_makes hr rfl (show a ∈ [xl, xh, yl, yh, al, c, ah, a] by decide) hop
    hins fun σ hx hy => ?_
  obtain ⟨p, hp⟩ : ∃ p : BitVec (2 * w), σ x = .int (2 * w) p := hx
  obtain ⟨q, hq⟩ : ∃ q : BitVec (2 * w), σ y = .int (2 * w) q := hy
  refine ⟨f _ p q, ?_, run_narrowWithCarry (k := k w (low p) (low q)) hp hq ?_ ?_⟩
  · rw [hp, hq, hwide, Value.onInts_int]
  · rw [hlowOp, Value.onInts_int, hlow]
  · rw [hhighOp, Value.onIntsAndFlag_int, hhigh]

/-- A rule of `narrowBitwise` preserves meaning when its operation works on the two halves
alike. -/
theorem narrowBitwise_preserves {r : Rule} {op : InstId} {i : Instruction} {n m : String}
    {s t : TypeVar} {f : (w : Nat) → BitVec w → BitVec w → BitVec w}
    (hr : Outline.Makes group (narrowBitwise ops op) r)
    (hop : group.get? op = some i) (hins : i.ins = [valueOf n s, valueOf m t])
    (hmeaning : meaningOf (2 * w) (nameOf group op) = Value.onInts fun w p q => [.int w (f w p q)])
    (hlow : ∀ p q : BitVec (2 * w), low (f _ p q) = f w (low p) (low q))
    (hhigh : ∀ p q : BitVec (2 * w), high (f _ p q) = f w (high p) (high q)) :
    PreservesMeaning group (2 * w) r := by
  refine preservesMeaning_of_makes hr rfl (show a ∈ [xl, xh, yl, yh, al, ah, a] by decide) hop
    hins fun σ hx hy => ?_
  obtain ⟨p, hp⟩ : ∃ p : BitVec (2 * w), σ x = .int (2 * w) p := hx
  obtain ⟨q, hq⟩ : ∃ q : BitVec (2 * w), σ y = .int (2 * w) q := hy
  refine ⟨f _ p q, ?_, run_narrowBitwise hp hq ?_ ?_⟩
  · rw [hp, hq, hmeaning, Value.onInts_int]
  · rw [hmeaning, Value.onInts_int, hlow]
  · rw [hmeaning, Value.onInts_int, hhigh]

/-- A rule of `expandSecond` for an instruction with an immediate preserves meaning when the
plain instruction does the same with the constant. -/
theorem expandImmediate_preserves {r : Rule} {op plainOp : InstId} {i : Instruction} {n m : String}
    {s : TypeVar} {f : (w : Nat) → BitVec w → BitVec w → BitVec w}
    (hr : Outline.Makes group (expandSecond op ops.iconst plainOp) r)
    (hop : group.get? op = some i) (hins : i.ins = [valueOf n s, immediate m])
    (himm : meaningOf B (nameOf group op) =
      Value.onIntAndImmediate fun w p q => [.int w (f w p q)])
    (hplain : meaningOf B (nameOf group plainOp) = Value.onInts fun w p q => [.int w (f w p q)]) :
    PreservesMeaning group B r := by
  refine preservesMeaning_of_makes hr rfl (show a ∈ [c, a] by decide) hop hins fun σ hx hy => ?_
  obtain ⟨p, hp⟩ : ∃ p : BitVec B, σ x = .int B p := hx
  obtain ⟨N, hN⟩ : ∃ N, σ y = .immediate N := hy
  refine ⟨f B p (.ofInt B N), ?_, run_expandSecond (e := .int B (.ofInt B N)) ?_ ?_⟩
  · rw [hp, hN, himm, Value.onIntAndImmediate_int]
  · rw [hN]
    rfl
  · rw [hp, hplain, Value.onInts_int]

/-- A rule of `expandSecond` for a bitwise instruction with a negated operand preserves meaning
when the plain instruction does the same with the complement. -/
theorem expandNot_preserves {r : Rule} {op plainOp : InstId} {i : Instruction} {n m : String}
    {s t : TypeVar} {f : (w : Nat) → BitVec w → BitVec w → BitVec w}
    (hr : Outline.Makes group (expandSecond op ops.bnot plainOp) r)
    (hop : group.get? op = some i) (hins : i.ins = [valueOf n s, valueOf m t])
    (hnot : meaningOf B (nameOf group op) = Value.onInts fun w p q => [.int w (f w p (~~~q))])
    (hplain : meaningOf B (nameOf group plainOp) = Value.onInts fun w p q => [.int w (f w p q)]) :
    PreservesMeaning group B r := by
  refine preservesMeaning_of_makes hr rfl (show a ∈ [c, a] by decide) hop hins fun σ hx hy => ?_
  obtain ⟨p, hp⟩ : ∃ p : BitVec B, σ x = .int B p := hx
  obtain ⟨q, hq⟩ : ∃ q : BitVec B, σ y = .int B q := hy
  refine ⟨f B p (~~~q), ?_, run_expandSecond (e := .int B (~~~q)) ?_ ?_⟩
  · rw [hp, hq, hnot, Value.onInts_int]
  · rw [hq]
    rfl
  · rw [hp, hplain, Value.onInts_int]

/-! ### The groups -/

/-- The rules of `narrow` keep the meaning at every even width, which has two halves. -/
theorem narrow_preserves : ∀ o ∈ narrowOutlines ops, ∀ r, o.Makes group r →
    ∀ w, PreservesMeaning group (2 * w) r := by
  simp only [narrowOutlines, List.forall_mem_cons]
  refine ⟨?_, ?_, ?_, ?_, ?_, by simp⟩
  · intro r hr w
    exact narrowWithCarry_preserves (f := fun _ p q => p + q) (k := fun _ => carry) hr rfl rfl rfl
      rfl rfl low_add high_add
  · intro r hr w
    exact narrowWithCarry_preserves (f := fun _ p q => p - q) (k := fun _ => borrow) hr rfl rfl rfl
      rfl rfl low_sub high_sub
  · intro r hr w
    exact narrowBitwise_preserves (f := fun _ p q => p &&& q) hr rfl rfl rfl low_and high_and
  · intro r hr w
    exact narrowBitwise_preserves (f := fun _ p q => p ||| q) hr rfl rfl rfl low_or high_or
  · intro r hr w
    exact narrowBitwise_preserves (f := fun _ p q => p ^^^ q) hr rfl rfl rfl low_xor high_xor

/-- The rules of `expand` keep the meaning at every width. -/
theorem expand_preserves : ∀ o ∈ expandOutlines ops, ∀ r, o.Makes group r →
    ∀ B, PreservesMeaning group B r := by
  simp only [expandOutlines, List.forall_mem_cons]
  refine ⟨?_, ?_, ?_, ?_, ?_, by simp⟩
  · intro r hr B
    exact expandImmediate_preserves (f := fun _ p q => p + q) hr rfl rfl rfl rfl
  · intro r hr B
    exact expandImmediate_preserves (f := fun _ p q => p * q) hr rfl rfl rfl rfl
  · intro r hr B
    exact expandNot_preserves (f := fun _ p q => p &&& q) hr rfl rfl rfl rfl
  · intro r hr B
    exact expandNot_preserves (f := fun _ p q => p ||| q) hr rfl rfl rfl rfl
  · intro r hr B
    exact expandNot_preserves (f := fun _ p q => p ^^^ q) hr rfl rfl rfl rfl

/-- What holds of all rules of the outlines holds of the rules made of them. -/
theorem forall_of_makes {insts : InstructionGroup} {outlines : List Outline} {rules : List Rule}
    {P : Rule → Prop} (h : List.Forall₂ (Outline.Makes insts) outlines rules)
    (hP : ∀ o ∈ outlines, ∀ r, o.Makes insts r → P r) : ∀ r ∈ rules, P r := by
  induction h with
  | nil => simp
  | cons hr _ ih =>
      rw [List.forall_mem_cons] at hP ⊢
      exact ⟨hP.1 _ hr, ih hP.2⟩

/-- The group `narrow` exists, and its rules are made from its outlines, in their order. -/
theorem exists_narrow (sites : Sites) :
    ∃ g, narrow sites group ops = .ok g ∧ g.name = "narrow" ∧
      List.Forall₂ (Outline.Makes group) (narrowOutlines ops) g.rules := by
  have hlegal : ∀ p ∈ sites.narrow.zip (narrowOutlines ops), p.2.Legal group :=
    fun p hp => narrow_legal p.2 (List.of_mem_zip hp).2
  obtain ⟨rules, hall, hrules⟩ := Outline.Legal.legalizeAll hlegal _
  exact ⟨_, hall, rfl, hrules⟩

/-- The group `expand` exists, and its rules are made from its outlines, in their order. -/
theorem exists_expand (sites : Sites) :
    ∃ g, expand sites group ops = .ok g ∧ g.name = "expand" ∧
      List.Forall₂ (Outline.Makes group) (expandOutlines ops) g.rules := by
  have hlegal : ∀ p ∈ sites.expand.zip (expandOutlines ops), p.2.Legal group :=
    fun p hp => expand_legal p.2 (List.of_mem_zip hp).2
  obtain ⟨rules, hall, hrules⟩ := Outline.Legal.legalizeAll hlegal _
  exact ⟨_, hall, rfl, hrules⟩

theorem exists_settings : ∃ g, settings = .ok g :=
  ⟨_, rfl⟩

/-- The instructions that the rules are about are defined in a new group. -/
theorem definitions_eq (sites : Sites) :
    definitions sites = do
      let settings ← settings
      return {
        settings
        instructions := group
        ruleGroups := [← narrow sites group ops, ← expand sites group ops] } := by
  obtain ⟨hdefine, hgroup⟩ := perform_define_new
  rw [definitions, hdefine]
  simp only [hgroup]
  rfl

/-- **The shared rules preserve meaning.**  The shared definitions exist, with the groups `narrow`
and `expand` of five rules each.  The rules of `narrow` preserve meaning at twice any number of
bits, those of `expand` at any number of bits. -/
theorem definitions_preserve (sites : Sites) :
    ∃ d narrow expand, definitions sites = .ok d ∧ d.ruleGroups = [narrow, expand] ∧
      (narrow.name = "narrow" ∧ narrow.rules.length = 5 ∧
        ∀ r ∈ narrow.rules, ∀ w, PreservesMeaning d.instructions (2 * w) r) ∧
      expand.name = "expand" ∧ expand.rules.length = 5 ∧
        ∀ r ∈ expand.rules, ∀ B, PreservesMeaning d.instructions B r := by
  obtain ⟨g, hg⟩ := exists_settings
  obtain ⟨n, hn, hnname, hnrules⟩ := exists_narrow sites
  obtain ⟨e, he, hename, herules⟩ := exists_expand sites
  have hdefs : definitions sites = .ok ⟨g, group, [n, e]⟩ := by
    rw [definitions_eq, hg]
    simp only [hn, he]
    rfl
  refine ⟨_, n, e, hdefs, rfl, ⟨hnname, hnrules.length_eq.symm, ?_⟩, hename,
    herules.length_eq.symm, ?_⟩
  · exact forall_of_makes hnrules narrow_preserves
  · exact forall_of_makes herules expand_preserves

end Isaforge.Shared
