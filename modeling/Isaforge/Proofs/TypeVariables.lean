import Isaforge.Proofs.Binding
import Isaforge.Proofs.Legalizer.Calls

/-!
# Type variables — what an instruction derives from its operands

The type variables of an instruction are those its operands introduce: the type variable of each
operand whose name no operand before it has, inputs before outputs
(`Instruction.exists_introduced_typeVars`).  That the controlling one is searched for first and put
in front changes nothing, because it is the first of them anyway (`Instruction.typeVars_eq`).

* `Instruction.typeVars_derived`: **all that is derived**, said of the operands, down to the
  controlling type that a builder's call is given.
* `InstructionGroup.bindings_allowed_iff`: **whether the operands allow what may be bound**.  The
  check looks into one type set for each name, that of the operand which introduces it.  So it
  answers for the other operands of the name when their type sets contain that one
  (`Instruction.Coherent`), and only then.
-/

namespace Isaforge

variable {i : Instruction} {var own : TypeVar} {types : List ValueType} {type : ValueType}

/-! ### The first type variable -/

/-- The first operand that has a type variable has `var`. -/
def FirstTypeVar (os : List Operand) (var : TypeVar) : Prop :=
  ∃ before o after, os = before ++ o :: after ∧ o.typeVar? = some var ∧
    ∀ p ∈ before, p.typeVar? = none

theorem findSome?_typeVar?_eq_some_iff {os : List Operand} :
    os.findSome? (·.typeVar?) = some var ↔ FirstTypeVar os var :=
  List.findSome?_eq_some_iff

namespace Instruction

/-- The operands, inputs before outputs. -/
def operands (i : Instruction) : List Operand :=
  i.ins ++ i.outs

/-- Some operand has the type variable. -/
def Mentions (i : Instruction) (var : TypeVar) : Prop :=
  ∃ o ∈ i.operands, o.typeVar? = some var

theorem controlling?_eq (i : Instruction) :
    i.controlling? = (i.operands.filterMap (·.typeVar?)).head? := by
  rw [List.head?_filterMap, operands, List.findSome?_append, controlling?, inputTypeVar?]
  cases i.ins.findSome? (·.typeVar?) <;> rfl

theorem controlling?_eq_some_iff :
    i.controlling? = some var ↔
      FirstTypeVar i.ins var ∨ (∀ o ∈ i.ins, o.typeVar? = none) ∧ FirstTypeVar i.outs var := by
  rw [controlling?, inputTypeVar?, ← findSome?_typeVar?_eq_some_iff,
    ← findSome?_typeVar?_eq_some_iff, ← List.findSome?_eq_none_iff]
  cases i.ins.findSome? (·.typeVar?) <;> simp

/-! ### The type variables -/

/-- Putting the controlling type variable in front changes nothing. -/
theorem typeVars_eq (i : Instruction) :
    i.typeVars = distinctBy (·.name) (i.operands.filterMap (·.typeVar?)) := by
  rw [typeVars, List.append_assoc, ← List.filterMap_append, ← operands, controlling?_eq,
    distinctBy_head?]

theorem exists_introduced_typeVars (i : Instruction) :
    ∃ pairs, Introduced (·.name) (·.typeVar?) i.operands pairs ∧
      pairs.map (·.2) = i.typeVars := by
  rw [typeVars_eq]
  exact exists_introduced _ _ _

theorem mentions_of_mem (h : var ∈ i.typeVars) : i.Mentions var := by
  rw [typeVars_eq] at h
  exact List.mem_filterMap.mp (mem_of_mem_distinctBy h)

theorem nodup_names_typeVars (i : Instruction) : (i.typeVars.map (·.name)).Nodup := by
  rw [typeVars_eq]
  exact nodup_map_distinctBy _ _

theorem mem_names_typeVars_iff {name : String} :
    name ∈ i.typeVars.map (·.name) ↔ ∃ var, i.Mentions var ∧ var.name = name := by
  rw [typeVars_eq, mem_map_distinctBy]
  simp only [List.mem_map, List.mem_filterMap, Mentions]

theorem isPolymorphic_iff : i.isPolymorphic = true ↔ ∃ var, i.Mentions var := by
  rw [isPolymorphic, Bool.not_eq_true', List.isEmpty_eq_false_iff_exists_mem]
  constructor
  · rintro ⟨var, hvar⟩
    exact ⟨var, mentions_of_mem hvar⟩
  · rintro ⟨var, hvar⟩
    obtain ⟨kept, hkept, -⟩ := List.mem_map.mp (mem_names_typeVars_iff.mpr ⟨var, hvar, rfl⟩)
    exact ⟨kept, hkept⟩

theorem hasTypeVarInput_iff :
    i.hasTypeVarInput = true ↔ ∃ o ∈ i.ins, ∃ var, o.typeVar? = some var := by
  rw [hasTypeVarInput, inputTypeVar?, List.isSome_findSome?, List.any_eq_true]
  simp only [Option.isSome_iff_exists]

/-- The controlling type variable is the first. -/
theorem typeVars_head? (i : Instruction) : i.typeVars[0]? = i.controlling? := by
  rw [typeVars_eq, controlling?_eq]
  cases i.operands.filterMap (·.typeVar?) <;> rfl

/-! ### The controlling type of a call -/

/-- The instruction is polymorphic, and no input says what its controlling type variable stands
for. -/
def TypeOpen (i : Instruction) : Prop :=
  i.isPolymorphic = true ∧ ∀ o ∈ i.ins, o.typeVar? = none

theorem needsType_iff : i.needsType = true ↔ i.TypeOpen := by
  have hinputs : i.hasTypeVarInput = false ↔ ∀ o ∈ i.ins, o.typeVar? = none := by
    rw [hasTypeVarInput, Option.isSome_eq_false_iff, Option.isNone_iff_eq_none, inputTypeVar?,
      List.findSome?_eq_none_iff]
  rw [needsType, Bool.and_eq_true, Bool.not_eq_true', hinputs, TypeOpen]

end Instruction

namespace Legalizer

/-- What the builder is called with is the operation of the call and the names of its arguments. -/
theorem exists_builderCallOf {insts : InstructionGroup} {c : Call} {call : BuilderCall}
    (hi : insts.get? c.op.inst = some i) (h : builderCall insts c = .ok call) :
    ∃ names, call = builderCallOf i ⟨c.op, names⟩ := by
  simp only [builderCall, hi, bind_eq_ok_iff] at h
  obtain ⟨names, -, h⟩ := h
  exact ⟨names, (Except.ok.inj h).symm⟩

end Legalizer

namespace Instruction

/-- What an instruction derives from its operands. -/
structure Derived (i : Instruction) : Prop where
  /-- The type variables are those that the operands introduce, in the order of the operands. -/
  introduced : ∃ pairs, Introduced (·.name) (·.typeVar?) i.operands pairs ∧
    pairs.map (·.2) = i.typeVars
  names_nodup : (i.typeVars.map (·.name)).Nodup
  name_mem_iff : ∀ name, name ∈ i.typeVars.map (·.name) ↔ ∃ var, i.Mentions var ∧ var.name = name
  polymorphic_iff : i.isPolymorphic = true ↔ ∃ var, i.Mentions var
  input_iff : i.hasTypeVarInput = true ↔ ∃ o ∈ i.ins, ∃ var, o.typeVar? = some var
  /-- The first type variable is that of the first input that has one, and where no input has one
  it is that of the first output. -/
  first_iff : ∀ var, i.typeVars[0]? = some var ↔
    FirstTypeVar i.ins var ∨ (∀ o ∈ i.ins, o.typeVar? = none) ∧ FirstTypeVar i.outs var
  /-- A builder's call is given a controlling type when the inputs leave it open. -/
  given_iff : ∀ (insts : InstructionGroup) (c : Call) (call : Legalizer.BuilderCall),
    insts.get? c.op.inst = some i → Legalizer.builderCall insts c = .ok call →
      (call.type?.isSome = true ↔ i.isPolymorphic = true ∧ ∀ o ∈ i.ins, o.typeVar? = none)

/-- **What an instruction derives from its operands**, whatever these are: its type variables are
the first of each name, inputs before outputs, and these say whether it is polymorphic, which of
them controls it, and whether its calls are given a controlling type. -/
theorem typeVars_derived (i : Instruction) : i.Derived where
  introduced := i.exists_introduced_typeVars
  names_nodup := i.nodup_names_typeVars
  name_mem_iff := fun _ => mem_names_typeVars_iff
  polymorphic_iff := isPolymorphic_iff
  input_iff := hasTypeVarInput_iff
  first_iff := fun _ => i.typeVars_head? ▸ controlling?_eq_some_iff
  given_iff := by
    intro insts c call hi hcall
    obtain ⟨names, rfl⟩ := Legalizer.exists_builderCallOf hi hcall
    rw [Legalizer.isSome_type?_builderCallOf]
    exact needsType_iff

/-! ### Type sets of one name -/

/-- Where a type is bound to a type variable, every operand with a variable of its name allows the
type. -/
def AllowedByOperands (i : Instruction) (types : List ValueType) : Prop :=
  ∀ (k : Nat) (var own : TypeVar) (type : ValueType), i.typeVars[k]? = some var →
    types[k]? = some type → i.Mentions own → own.name = var.name → own.types.contains type = true

/-- The variables of one name allow what the one allows that is a type variable of the
instruction. -/
def Coherent (i : Instruction) : Prop :=
  ∀ var ∈ i.typeVars, ∀ own, i.Mentions own → own.name = var.name →
    ∀ type, var.types.contains type = true → own.types.contains type = true

theorem Coherent.allowed (h : i.Coherent) (hadmits : i.Admits types) :
    i.AllowedByOperands types := by
  intro k var own type hvar htype hown hname
  obtain ⟨var', hvar', hcontains⟩ := hadmits k type htype
  obtain rfl := Option.some.inj (hvar.symm.trans hvar')
  exact h var (List.mem_of_getElem? hvar) own hown hname type hcontains

/-- Where no type set is empty, each type of one is admitted at the place of its variable. -/
theorem exists_admits (hinhabited : ∀ var ∈ i.typeVars, ∃ type, var.types.contains type = true)
    {k : Nat} (hvar : i.typeVars[k]? = some var) (htype : var.types.contains type = true) :
    ∃ types, i.Admits types ∧ types[k]? = some type := by
  have : Nonempty ValueType := ⟨type⟩
  choose! chosen hchosen using hinhabited
  have hlt : k < i.typeVars.length := (List.getElem?_eq_some_iff.mp hvar).1
  refine ⟨(i.typeVars.map chosen).set k type, fun n t ht => ?_, ?_⟩
  · rw [List.getElem?_set, List.getElem?_map] at ht
    split at ht
    · rename_i hkn
      subst hkn
      rw [List.length_map, if_pos hlt] at ht
      exact ⟨var, hvar, Option.some.inj ht ▸ htype⟩
    · obtain ⟨w, hw, rfl⟩ := Option.map_eq_some_iff.mp ht
      exact ⟨w, hw, hchosen w (List.mem_of_getElem? hw)⟩
  · rw [List.getElem?_set_self (by rwa [List.length_map])]

theorem coherent_of_allowed
    (hinhabited : ∀ var ∈ i.typeVars, ∃ type, var.types.contains type = true)
    (h : ∀ types, i.Admits types → i.AllowedByOperands types) : i.Coherent := by
  intro var hvar own hown hname type htype
  obtain ⟨k, hk⟩ := List.getElem?_of_mem hvar
  obtain ⟨types, hadmits, hat⟩ := exists_admits hinhabited hk htype
  exact h types hadmits k var own type hk hat hown hname

/-- Variables of one name have one type set. -/
def OneSetEach (i : Instruction) : Prop :=
  ∀ o ∈ i.operands, ∀ p ∈ i.operands, ∀ v ∈ o.typeVar?, ∀ w ∈ p.typeVar?, v.name = w.name →
    v.types = w.types

instance (i : Instruction) : Decidable i.OneSetEach :=
  inferInstanceAs (Decidable (∀ _ ∈ _, _))

theorem OneSetEach.coherent (h : i.OneSetEach) : i.Coherent := by
  rintro var hvar own ⟨o, ho, hown⟩ hname type htype
  obtain ⟨p, hp, hp'⟩ := mentions_of_mem hvar
  rwa [h o ho p hp own hown var hp' hname]

end Instruction

namespace InstructionGroup

variable {g : InstructionGroup} {id : InstId}

/-- **Whether the operands allow what may be bound.**  Where the type sets of one name are coherent,
the types that a group lets be bound to an instruction are allowed by each operand they are for.
And where they are not, and none of those the check looks into is empty, the group lets a type be
bound that some operand does not allow. -/
theorem bindings_allowed_iff (hi : g.get? id = some i) :
    (i.Coherent → ∀ types, g.checkBinding id types = .ok () → i.AllowedByOperands types) ∧
      ((∀ var ∈ i.typeVars, ∃ type, var.types.contains type = true) →
        (∀ types, g.checkBinding id types = .ok () → i.AllowedByOperands types) → i.Coherent) := by
  have haccepted : ∀ types, g.checkBinding id types = .ok () ↔ i.Admits types := by
    intro types
    rw [checkBinding_eq_ok_iff, hi]
    simp only [Option.some.injEq, exists_eq_left']
  simp only [haccepted]
  exact ⟨fun hcoherent _ => hcoherent.allowed, Instruction.coherent_of_allowed⟩

/-- What is bound to `isplit_lohi` here, a whole of 64 bits and halves of 32, its operands allow. -/
theorem isplitLohi_bindings_allowed :
    Shared.group.get? ⟨19⟩ = some Shared.isplitLohi ∧
      Shared.isplitLohi.AllowedByOperands [.scalar ⟨.int, 64⟩, .scalar ⟨.int, 32⟩] := by
  have hi : Shared.group.get? ⟨19⟩ = some Shared.isplitLohi := rfl
  have hone : Shared.isplitLohi.OneSetEach := by decide
  exact ⟨hi, (bindings_allowed_iff hi).1 hone.coherent _ rfl⟩

/-- The instruction `mix`, with two type variables of one name: an integer goes in, a float comes
out. -/
def mix : Instruction where
  name := "mix"
  doc := ""
  ins := [⟨"x", .typeVar ⟨"Num", "", TypeSet.scalarInts⟩, none⟩]
  outs := [⟨"a", .typeVar ⟨"Num", "", TypeSet.scalarFloats⟩, none⟩]

/-- An integer type may be bound to `mix`, which its output does not allow. -/
theorem mix_binding_not_allowed :
    ∃ g id, (⟨"custom", "", []⟩ : InstructionGroup).push mix = .ok (g, id) ∧
      g.checkBinding id [.scalar ⟨.int, 32⟩] = .ok () ∧
      ¬ mix.AllowedByOperands [.scalar ⟨.int, 32⟩] := by
  refine ⟨⟨"custom", "", [mix]⟩, ⟨0⟩, rfl, rfl, fun h => ?_⟩
  have hown : mix.Mentions ⟨"Num", "", TypeSet.scalarFloats⟩ :=
    ⟨⟨"a", .typeVar ⟨"Num", "", TypeSet.scalarFloats⟩, none⟩, by decide, rfl⟩
  have hfloat := h 0 ⟨"Num", "", TypeSet.scalarInts⟩ _ (.scalar ⟨.int, 32⟩) rfl rfl hown rfl
  exact absurd hfloat (by decide)

end InstructionGroup

/-- The shared instructions have one type set for each name. -/
theorem Shared.oneSetEach : ∀ i ∈ instructions, i.OneSetEach := by
  decide

/-- What may be bound to a shared instruction, its operands allow. -/
theorem Shared.allowed_of_checkBinding {id : InstId}
    (h : group.checkBinding id types = .ok ()) :
    ∃ i, group.get? id = some i ∧ i.AllowedByOperands types := by
  obtain ⟨i, hi, hadmits⟩ := InstructionGroup.checkBinding_eq_ok_iff.mp h
  have hmem : i ∈ instructions := List.mem_of_getElem? hi
  exact ⟨i, hi, (oneSetEach i hmem).coherent.allowed hadmits⟩

end Isaforge
