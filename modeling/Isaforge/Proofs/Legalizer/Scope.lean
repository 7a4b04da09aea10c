import Isaforge.Proofs.Legalizer.Lines

/-!
# Scope — the names that an arm binds and uses

A line of an arm uses the names that it gives to a builder's method as arguments, and binds those
of a `let` for variables of the rule or for a hoisted call (`Statement.scope`).  A sequence of lines
is `Scoped` when every name a line uses was bound before.

* `CallArg.hoistAll_scoped`: hoisting is scoped, and what it leaves uses bound names only.
* `scoped_definitions`: so are the definitions of a destination, one after the other, when each uses
  only variables that were there before.
* `arm_wellScoped`: so is an arm, from nothing; and its hoisted calls have names of their own.
-/

namespace Isaforge

/-! ### Scoped sequences -/

/-- The names that a line uses, those it binds, and those of them that it makes for a hoisted
call. -/
structure Scope where
  uses : List String
  binds : List String
  hoists : List String

/-- Every name that a line uses is in `bound`, or an earlier line binds it. -/
def Scoped : List String → List Scope → Prop
  | _, [] => True
  | bound, l :: ls => l.uses ⊆ bound ∧ Scoped (bound ++ l.binds) ls

namespace Scoped

variable {bound : List String} {l : Scope} {ls ls' : List Scope}

theorem append (h : Scoped bound ls) (h' : Scoped (bound ++ ls.flatMap (·.binds)) ls') :
    Scoped bound (ls ++ ls') := by
  induction ls generalizing bound with
  | nil => simpa using h'
  | cons l ls ih =>
      refine ⟨h.1, ih h.2 ?_⟩
      rwa [List.append_assoc, ← List.flatMap_cons]

/-- Lines that use only bound names are scoped. -/
theorem of_uses_subset (h : ∀ l ∈ ls, l.uses ⊆ bound) : Scoped bound ls := by
  induction ls generalizing bound with
  | nil => trivial
  | cons l ls ih =>
      refine ⟨h l List.mem_cons_self, ih fun l' hl' => ?_⟩
      exact List.Subset.trans (h l' (List.mem_cons_of_mem _ hl')) (List.subset_append_left _ _)

/-- A name that the line at place `n` uses is in `bound`, or bound by a line before. -/
theorem bound_before (h : Scoped bound ls) {n : Nat} (hl : ls[n]? = some l) {x : String}
    (hx : x ∈ l.uses) : x ∈ bound ∨ ∃ l' ∈ ls.take n, x ∈ l'.binds := by
  induction ls generalizing bound n with
  | nil => cases hl
  | cons l₁ ls ih =>
      cases n with
      | zero =>
          cases hl
          exact .inl (h.1 hx)
      | succ n =>
          rcases ih h.2 hl with hmem | ⟨l', hl', hx'⟩
          · rcases List.mem_append.mp hmem with hmem | hmem
            · exact .inl hmem
            · exact .inr ⟨l₁, List.mem_cons_self, hmem⟩
          · exact .inr ⟨l', List.mem_cons_of_mem _ hl', hx'⟩

end Scoped

/-! ### Hoisting -/

/-- A hoisted call uses its arguments, and binds its name. -/
def NamedCall.scope (c : NamedCall) : Scope :=
  ⟨c.call.args, [c.name], [c.name]⟩

theorem flatMap_binds_hoisted (cs : List NamedCall) :
    (cs.map NamedCall.scope).flatMap (·.binds) = cs.map (·.name) := by
  rw [List.flatMap_map]
  exact (List.map_eq_flatMap ..).symm

theorem flatMap_hoists_hoisted (cs : List NamedCall) :
    (cs.map NamedCall.scope).flatMap (·.hoists) = cs.map (·.name) := by
  rw [List.flatMap_map]
  exact (List.map_eq_flatMap ..).symm

namespace CallArg

variable {σ : Type} {next : Supply σ} {bound : List String}

theorem hoistAll_scoped_of {as : List CallArg}
    (h : ∀ a ∈ as, ∀ s (bound : List String), a.names ⊆ bound →
      Scoped bound ((hoist next a s).1.map NamedCall.scope) ∧
        (hoist next a s).2.1 ∈ bound ++ (hoist next a s).1.map (·.name))
    (s : σ) (bound : List String) (hbound : namesAll as ⊆ bound) :
    Scoped bound ((hoistAll next as s).1.map NamedCall.scope) ∧
      (hoistAll next as s).2.1 ⊆ bound ++ (hoistAll next as s).1.map (·.name) := by
  induction as generalizing s bound with
  | nil => exact ⟨trivial, List.nil_subset _⟩
  | cons a as ih =>
      rw [namesAll, List.append_subset] at hbound
      obtain ⟨hfirst, hname⟩ := h a List.mem_cons_self s bound hbound.1
      obtain ⟨hrest, hnames⟩ := ih (fun a' ha' => h a' (List.mem_cons_of_mem _ ha'))
        (hoist next a s).2.2 (bound ++ (hoist next a s).1.map (·.name))
        (List.Subset.trans hbound.2 (List.subset_append_left _ _))
      rw [hoistAll_cons, List.map_append, List.map_append, ← List.append_assoc]
      refine ⟨hfirst.append ?_, List.cons_subset.mpr ⟨List.mem_append_left _ hname, hnames⟩⟩
      rwa [flatMap_binds_hoisted]

/-- Hoisting the calls out of an argument is scoped, and the name left in its place is bound. -/
theorem hoist_scoped (a : CallArg) (s : σ) (bound : List String) (hbound : a.names ⊆ bound) :
    Scoped bound ((hoist next a s).1.map NamedCall.scope) ∧
      (hoist next a s).2.1 ∈ bound ++ (hoist next a s).1.map (·.name) := by
  induction a generalizing s bound with
  | name n => exact ⟨trivial, List.mem_append_left _ (hbound List.mem_cons_self)⟩
  | call op args ih =>
      obtain ⟨hargs, hnames⟩ := hoistAll_scoped_of ih s bound hbound
      rw [hoist_call, List.map_append, List.map_append]
      refine ⟨hargs.append ⟨?_, trivial⟩, ?_⟩
      · rwa [flatMap_binds_hoisted]
      · exact List.mem_append_right _ (List.mem_append_right _ List.mem_cons_self)

/-- **Hoisting is scoped**, and the names left in the places of the arguments are bound. -/
theorem hoistAll_scoped (as : List CallArg) (s : σ) (hbound : namesAll as ⊆ bound) :
    Scoped bound ((hoistAll next as s).1.map NamedCall.scope) ∧
      (hoistAll next as s).2.1 ⊆ bound ++ (hoistAll next as s).1.map (·.name) :=
  hoistAll_scoped_of (fun a _ => hoist_scoped a) s bound hbound

end CallArg

end Isaforge

namespace Isaforge.Legalizer

open Source

variable {insts : InstructionGroup} {g : RuleGroup} {r : Rule} {m : Matcher} {i : Instruction}

/-! ### The lines of an arm -/

/-- The names that the line uses as arguments of a call, and those that it binds to operands,
results and calls. -/
def Statement.scope : Statement → Scope
  | .bindOperand name _ | .bindResult name _ => ⟨[], [name], []⟩
  | .hoisted name call => ⟨call.args, [name], [name]⟩
  | .define results call => ⟨call.args, results.map (·.name), []⟩
  | .replace call => ⟨call.args, [], []⟩
  | .remark _ | .bindType | .detach | .gap | .remove | .done => ⟨[], [], []⟩

/-- The call that the line makes. -/
def Statement.call? : Statement → Option BuilderCall
  | .hoisted _ call | .define _ call | .replace call => some call
  | .remark _ | .bindType | .bindOperand _ _ | .detach | .bindResult _ _ | .gap | .remove
  | .done => none

theorem Statement.uses_of_call {s : Statement} {call : BuilderCall} (h : s.call? = some call) :
    s.scope.uses = call.args := by
  cases s with
  | hoisted _ _ | define _ _ | replace _ =>
      cases h
      rfl
  | remark _ | bindType | bindOperand _ _ | detach | bindResult _ _ | gap | remove | done => cases h

theorem OperandPlace.text_value (n : Nat) :
    (value n).text = "dfg.inst_args(inst)[" ++ toString n ++ "]" :=
  rfl

theorem OperandPlace.text_immediate (n : Nat) :
    (immediate n).text = "dfg[inst].imm_operand(" ++ toString n ++ ")" :=
  rfl

theorem OperandPlace.text_entity (n : Nat) :
    (entity n).text = "dfg[inst].entity_operand(" ++ toString n ++ ")" :=
  rfl

theorem Statement.text_remark (text : String) : (remark text).text = "// " ++ text :=
  rfl

theorem Statement.text_replace (call : BuilderCall) :
    (replace call).text = "dfg.replace(inst)." ++ (call.text ++ ";") :=
  String.append_assoc ..

theorem Statement.text_bindOperand (name : String) (place : OperandPlace) :
    (bindOperand name place).text = "let " ++ name ++ " = " ++ (place.text ++ ";") := by
  have htext : (bindOperand name place).text = "let " ++ name ++ " = " ++ place.text ++ ";" := rfl
  rw [htext, String.append_assoc]

theorem Statement.text_bindResult (name : String) (index : Nat) :
    (bindResult name index).text =
      "let " ++ name ++ " = " ++ ("results[" ++ (toString index ++ "];")) := by
  have htext : (bindResult name index).text =
      "let " ++ name ++ (" = " ++ "results[") ++ toString index ++ "];" := rfl
  simp only [htext, String.append_assoc]

theorem Statement.text_hoisted (name : String) (call : BuilderCall) :
    (hoisted name call).text =
      "let " ++ name ++ " = " ++ ("dfg.ins(pos)." ++ (call.text ++ ";")) := by
  have htext : (hoisted name call).text =
      "let " ++ name ++ (" = " ++ "dfg.ins(pos).") ++ call.text ++ ";" := rfl
  simp only [htext, String.append_assoc]

theorem Statement.text_define (results : List Result) (call : BuilderCall) :
    (define results call).text = "let " ++ Definition.bindingText (results.map (·.name)) ++
      " = " ++ (builderText results ++ ("." ++ (call.text ++ ";"))) := by
  have htext : (define results call).text = "let " ++
      Definition.bindingText (results.map (·.name)) ++ " = " ++ builderText results ++ "." ++
        call.text ++ ";" := rfl
  simp only [htext, String.append_assoc]

/-- The names that a line binds are those of its `let`. -/
theorem Statement.text_of_binds {s : Statement} (h : s.scope.binds ≠ []) :
    ∃ value, s.text = "let " ++ Definition.bindingText s.scope.binds ++ " = " ++ value := by
  cases s with
  | bindOperand name place => exact ⟨_, text_bindOperand name place⟩
  | bindResult name index => exact ⟨_, text_bindResult name index⟩
  | hoisted name call => exact ⟨_, text_hoisted name call⟩
  | define results call => exact ⟨_, text_define results call⟩
  | replace call => exact absurd rfl h
  | remark _ | bindType | detach | gap | remove | done => exact absurd rfl h

/-! ### The opening and the closing -/

/-- The operands are bound to the arguments, in order. -/
theorem binds_bindOperands (position values : Nat) (os : List Operand) (vs : List Var) :
    (bindOperands position values os vs).flatMap (·.scope.binds) =
      (vs.take os.length).map (·.name) := by
  induction os generalizing position values vs with
  | nil => rw [List.length_nil, List.take_zero]; rfl
  | cons o os ih =>
      cases vs with
      | nil => rfl
      | cons v vs =>
          obtain ⟨place, position', values', hcons⟩ :=
            exists_bindOperands_cons position values o os v vs
          rw [hcons, List.flatMap_cons, ih position' values']
          rfl

/-- The opening makes no calls. -/
theorem Opens.scope_eq {s : Statement} (h : Opens m s) :
    s.scope.uses = [] ∧ s.scope.hoists = [] := by
  cases h with
  | remark | type | operand _ | detach | result _ | gap => exact ⟨rfl, rfl⟩

/-- The opening binds the arguments of the source. -/
theorem args_subset_opening (hlength : m.args.length = i.arity) :
    m.args.map (·.name) ⊆ (m.opening insts i).flatMap (·.scope.binds) := by
  rw [← List.take_of_length_le hlength.le, Instruction.arity, ← binds_bindOperands 0 0]
  intro n hn
  obtain ⟨s, hs, hn⟩ := List.mem_flatMap.mp hn
  refine List.mem_flatMap.mpr ⟨s, ?_, hn⟩
  simp [Matcher.opening, hs]

theorem scope_of_mem_closing {s : Statement} (hs : s ∈ m.closing) : s.scope = ⟨[], [], []⟩ := by
  rcases of_mem_closing hs with rfl | rfl
  · rfl
  · rfl

/-! ### Definitions -/

section

variable {σ : Type} {next : Supply σ} {d : Definition} {ds : List Definition} {replaces : Bool}
  {bound : List String} {calls : FlatSequence} {ss : List Statement}

/-- What is emitted stands in the order of what it is emitted for. -/
theorem forall₂_of_emitted {α β : Type} {emit : α → Except Error β} {as : List α} {bs : List β}
    (h : as.map emit = bs.map .ok) : List.Forall₂ (fun a b => emit a = .ok b) as bs := by
  rw [← List.forall₂_eq_eq_eq, List.forall₂_map_left_iff, List.forall₂_map_right_iff] at h
  exact h

/-- What emitted elements have is read off the elements they are emitted for. -/
theorem map_eq_of_emitted {α β γ : Type} {emit : α → Except Error β} {f : β → γ} {k : α → γ}
    {as : List α} {bs : List β} (h : as.map emit = bs.map .ok)
    (hemit : ∀ a b, emit a = .ok b → f b = k a) : bs.map f = as.map k := by
  have hread : List.Forall₂ (· = ·) (bs.map f) (as.map k) := by
    rw [List.forall₂_map_left_iff, List.forall₂_map_right_iff]
    exact ((forall₂_of_emitted h).imp hemit).flip
  rwa [List.forall₂_eq_eq_eq] at hread

theorem args_of_builderCall {c : FlatCall} {call : BuilderCall}
    (h : builderCall insts c.asCall = .ok call) : call.args = c.args := by
  obtain ⟨i, -, rfl⟩ := builderCall_eq_ok_iff.mp h
  rfl

theorem scope_hoisted {c : NamedCall} {s : Statement}
    (h : (builderCall insts c.call.asCall).map (Statement.hoisted c.name) = .ok s) :
    s.scope = c.scope := by
  obtain ⟨call, hcall, rfl⟩ := map_eq_ok_iff.mp h
  rw [Statement.scope, args_of_builderCall hcall, NamedCall.scope]

theorem scope_replace {c : FlatCall} {s : Statement}
    (h : (builderCall insts c.asCall).map Statement.replace = .ok s) :
    s.scope = ⟨c.args, [], []⟩ := by
  obtain ⟨call, hcall, rfl⟩ := map_eq_ok_iff.mp h
  rw [Statement.scope, args_of_builderCall hcall]

theorem scope_define (hd : d.outputs ⊆ r.roles.vars) {c : FlatCall} {s : Statement}
    (h : defineStatement insts r d c = .ok s) :
    s.scope = ⟨c.args, d.outputs.map (·.name), []⟩ := by
  rw [defineStatement_eq hd] at h
  obtain ⟨call, hcall, rfl⟩ := map_eq_ok_iff.mp h
  rw [Statement.scope, args_of_builderCall hcall, List.map_map]
  rfl

/-- The lines of a definition are those of the calls hoisted out of it, and its own. -/
theorem scopes_hoisted_top {top : Except Error Statement} {l : Scope}
    (htop : ∀ s, top = .ok s → s.scope = l)
    (h : hoistedStatements insts calls ++ [top] = ss.map .ok) :
    ss.map Statement.scope = calls.hoisted.map NamedCall.scope ++ [l] := by
  obtain ⟨ss₁, ss₂, rfl, h₁, h₂⟩ := List.map_eq_append_iff.mp h.symm
  obtain ⟨s, rfl, hs⟩ := List.map_eq_singleton_iff.mp h₂
  rw [List.map_append, map_eq_of_emitted h₁.symm fun c s => scope_hoisted, List.map_singleton,
    htop s hs.symm]

/-- The lines of a definition are scoped when the variables that it uses are bound. -/
theorem scoped_definition (hbound : ∀ v, d.Uses v → v.name ∈ bound) (s : σ) (binds : List String) :
    Scoped bound (((Call.ofApplication d.value).flatten next s).1.hoisted.map NamedCall.scope ++
      [⟨((Call.ofApplication d.value).flatten next s).1.top.args, binds, []⟩]) := by
  have hnames : CallArg.namesAll (CallArg.ofExprs d.value.args) ⊆ bound := by
    intro n hn
    rw [CallArg.namesAll_ofExprs] at hn
    obtain ⟨v, hv, rfl⟩ := List.mem_map.mp hn
    exact hbound v (Definition.uses_iff_mem_uses.mpr hv)
  obtain ⟨hhoisted, hargs⟩ : _ ∧ (CallArg.hoistAll next (CallArg.ofExprs d.value.args) s).2.1 ⊆ _ :=
    CallArg.hoistAll_scoped (CallArg.ofExprs d.value.args) s hnames
  refine Scoped.append hhoisted ⟨?_, trivial⟩
  rw [flatMap_binds_hoisted]
  exact hargs

/-- The hoisted calls of a definition have the next names of the supply. -/
theorem names_definition (next : Supply σ) (d : Definition) (s : σ) :
    ((Call.ofApplication d.value).flatten next s).1.hoisted.map (·.name) =
      next.take s (Expr.nodesAll d.value.args) := by
  rw [← CallArg.nodesAll_ofExprs]
  exact (CallArg.hoistAll_supply _ s).1

theorem hoists_definition (next : Supply σ) (d : Definition) (s : σ) (args binds : List String) :
    (((Call.ofApplication d.value).flatten next s).1.hoisted.map NamedCall.scope ++
        [(⟨args, binds, []⟩ : Scope)]).flatMap (·.hoists) =
      next.take s (Expr.nodesAll d.value.args) := by
  rw [List.flatMap_append, flatMap_hoists_hoisted, names_definition]
  exact List.append_nil _

/-- The state of the supply after a definition. -/
theorem after_definition (next : Supply σ) (d : Definition) (s : σ) :
    ((Call.ofApplication d.value).flatten next s).2 =
      next.after s (Expr.nodesAll d.value.args) := by
  rw [← CallArg.nodesAll_ofExprs]
  exact (CallArg.hoistAll_supply _ s).2

/-- The number of applications that the definitions nest in others. -/
def nested (ds : List Definition) : Nat :=
  (ds.map fun d => Expr.nodesAll d.value.args).sum

/-- **The lines of the definitions of a destination** are scoped, when each definition uses only
variables that were there before, and their hoisted calls have the names of the supply. -/
theorem scoped_definitions (houtputs : ∀ d ∈ ds, d.outputs ⊆ r.roles.vars) {earlier : List Var}
    (hscope : Definition.openUses earlier ds = []) (hbound : earlier.map (·.name) ⊆ bound) (s : σ)
    (h : buildStatements insts r replaces (Matcher.flattenAll next ds s) = ss.map .ok) :
    Scoped bound (ss.map Statement.scope) ∧
      (ss.map Statement.scope).flatMap (·.hoists) = next.take s (nested ds) := by
  induction ds generalizing earlier bound s ss with
  | nil =>
      obtain rfl : ss = [] := by simpa [Matcher.flattenAll, buildStatements] using h.symm
      exact ⟨trivial, rfl⟩
  | cons d ds ih =>
      have huses : ∀ v, d.Uses v → v.name ∈ bound := fun v hv =>
        hbound (List.mem_map_of_mem (Definition.mem_of_openUses_eq_nil hscope hv))
      have hdefine : ∀ {c : FlatCall} (s : Statement), defineStatement insts r d c = .ok s →
          s.scope = ⟨c.args, d.outputs.map (·.name), []⟩ :=
        fun _ => scope_define (houtputs d List.mem_cons_self)
      cases ds with
      | nil =>
          rw [flattenAll_cons, Matcher.flattenAll, buildStatements] at h
          have hscopes := scopes_hoisted_top
            (l := ⟨((Call.ofApplication d.value).flatten next s).1.top.args,
              if replaces then [] else d.outputs.map (·.name), []⟩)
            (fun s' hs' => by
              cases replaces with
              | false => exact hdefine s' hs'
              | true => exact scope_replace hs') h
          rw [hscopes, hoists_definition]
          exact ⟨scoped_definition huses s _, by simp [nested]⟩
      | cons d' ds =>
          rw [flattenAll_cons, flattenAll_cons, buildStatements_cons_cons, ← flattenAll_cons,
            definitionStatements] at h
          obtain ⟨ss₁, ss₂, rfl, h₁, h₂⟩ := List.map_eq_append_iff.mp h.symm
          have hscopes := scopes_hoisted_top hdefine h₁.symm
          rw [Definition.openUses, List.append_eq_nil_iff] at hscope
          -- the next definitions may use the outputs of this one
          have hlater : (earlier ++ d.outputs).map (·.name) ⊆
              bound ++ (ss₁.map Statement.scope).flatMap (·.binds) := by
            rw [List.map_append, hscopes, List.flatMap_append, List.append_subset]
            refine ⟨List.Subset.trans hbound (List.subset_append_left _ _), ?_⟩
            simp
          obtain ⟨hscoped, hhoists⟩ := ih (fun d' hd' => houtputs d' (List.mem_cons_of_mem _ hd'))
            hscope.2 hlater _ h₂.symm
          rw [List.map_append, List.flatMap_append, hhoists, hscopes, hoists_definition,
            after_definition, ← Supply.take_add]
          rw [hscopes] at hscoped
          exact ⟨(scoped_definition huses s _).append hscoped, rfl⟩

end

/-! ### The whole arm -/

/-- The names of the hoisted calls of an arm. -/
def hoistedNames (arm : List Statement) : List String :=
  arm.flatMap (·.scope.hoists)

section

variable {arm : List Statement}
  (hsrc : m.rule.src.defs = [⟨m.outputs, ⟨m.head, m.args.map .var⟩⟩])
  (hsound : m.rule.Sound insts.catalog) (hi : insts.get? m.head.inst = some i)
  (harm : m.statements insts i = arm.map .ok)

include hsrc hsound hi harm

/-- The arm of a sound rule is scoped from nothing, and its hoisted calls have the first names of
the supply. -/
theorem scoped_arm :
    Scoped [] (arm.map Statement.scope) ∧
      hoistedNames arm = (Fresh.supply m.taken).take 0 (nested m.rule.dst.defs) := by
  have hlength : m.args.length = i.arity := length_args_of_sound hsrc hsound hi
  obtain ⟨built, rfl, hbuilt⟩ := exists_arm_parts (outputs_subset_vars hsrc hsound.roles_eq) harm
  obtain ⟨hscoped, hhoists⟩ := scoped_definitions
    (fun d hd v hv => mem_vars_of_mem hsound.roles_eq (List.mem_append_right _ hd) (.inl hv))
    (scope_of_sound hsrc hsound) (args_subset_opening hlength) 0 hbuilt
  have hopening : ∀ l ∈ (m.opening insts i).map Statement.scope, l.uses = [] ∧ l.hoists = [] := by
    intro l hl
    obtain ⟨s, hs, rfl⟩ := List.mem_map.mp hl
    exact (opens_of_mem hs).scope_eq
  have hclosing : ∀ l ∈ m.closing.map Statement.scope, l = ⟨[], [], []⟩ := by
    intro l hl
    obtain ⟨s, hs, rfl⟩ := List.mem_map.mp hl
    exact scope_of_mem_closing hs
  constructor
  · rw [List.map_append, List.map_append]
    refine ((Scoped.of_uses_subset fun l hl => ?_).append ?_).append
      (.of_uses_subset fun l hl => ?_)
    · rw [(hopening l hl).1]
      exact List.nil_subset _
    · rwa [List.nil_append, List.flatMap_map]
    · rw [hclosing l hl]
      exact List.nil_subset _
  · have hnone : ∀ ss : List Statement, (∀ s ∈ ss, s.scope.hoists = []) →
        ss.flatMap (·.scope.hoists) = [] := fun ss => List.flatMap_eq_nil_iff.mpr
    rw [hoistedNames, List.flatMap_append, List.flatMap_append,
      hnone (m.opening insts i) fun s hs => (opens_of_mem hs).scope_eq.2,
      hnone m.closing fun s hs => by rw [scope_of_mem_closing hs], List.nil_append, List.append_nil,
      ← hhoists, List.flatMap_map]

end

/-- The line binds the name by a `let`. -/
def Statement.Lets (s : Statement) (x : String) : Prop :=
  x ∈ s.scope.binds ∧
    ∃ value, s.text = "let " ++ Definition.bindingText s.scope.binds ++ " = " ++ value

/-- **Arms are well scoped.**  Take a rule of a group that a function is generated for, accepted
with the catalog.  Every argument of every call of its arm is bound by a `let` of an earlier line,
for a variable of the rule or for a hoisted call.  The hoisted calls, one for each application
nested in another, have distinct names, and none is the name of a variable of the rule. -/
theorem arm_wellScoped (hgen : (groupEmission insts g).error? = none) (hr : r ∈ g.rules)
    (haccepted : r.Accepted insts.catalog) :
    ∃ (m : Matcher) (i : Instruction) (arm : List Statement),
      Matcher.ofRule r = .ok m ∧ insts.get? m.head.inst = some i ∧
      m.statements insts i = arm.map .ok ∧
      (armCode i arm).nested.nested <:+: (groupEmission insts g).lines ∧
      (∀ n s call, arm[n]? = some s → s.call? = some call → ∀ x ∈ call.args,
        ∃ s' ∈ arm.take n, s'.Lets x) ∧
      (hoistedNames arm).length = nested r.dst.defs ∧ (hoistedNames arm).Nodup ∧
      ∀ v, Roles.Mentioned (r.src.defs ++ r.dst.defs) v → v.name ∉ hoistedNames arm := by
  obtain ⟨m, i, arm, hof, hi, harm, hcode⟩ := exists_arm hgen hr
  obtain ⟨hsrc, rfl⟩ := Matcher.ofRule_eq_ok_iff.mp hof
  have hsound : m.rule.Sound insts.catalog := haccepted.sound
  obtain ⟨hscoped, hhoisted⟩ := scoped_arm hsrc hsound hi harm
  refine ⟨m, i, arm, hof, hi, harm, hcode, ?_, ?_, ?_, ?_⟩
  · intro n s call hs hcall x hx
    have hscope : (arm.map Statement.scope)[n]? = some s.scope := by
      rw [List.getElem?_map, hs, Option.map_some]
    rw [← Statement.uses_of_call hcall] at hx
    rcases hscoped.bound_before hscope hx with hnil | ⟨l, hl, hmem⟩
    · cases hnil
    · rw [← List.map_take] at hl
      obtain ⟨s', hs', rfl⟩ := List.mem_map.mp hl
      exact ⟨s', hs', hmem, Statement.text_of_binds (List.ne_nil_of_mem hmem)⟩
  · rw [hhoisted, Supply.length_take]
  · rw [hhoisted]
    exact Fresh.nodup_take _ _ _
  · intro v hv hmem
    rw [hhoisted] at hmem
    have hvars : v ∈ m.rule.roles.vars := by
      rwa [hsound.roles_eq, Roles.mem_vars_classify]
    exact Fresh.notMem_of_mem_take hmem (List.mem_map_of_mem hvars)

/-- The rule `a << iadd_imm(x, tmp1) => a << iadd(x, iconst(tmp1))`, with a variable that has the
first name hoisted calls are given. -/
def takenName : Rule where
  site := "expand"
  src := ⟨.source, [⟨[Shared.a], ⟨⟨⟨6⟩, "iadd_imm", []⟩, [.var Shared.x, .var ⟨1, "tmp1"⟩]⟩⟩]⟩
  dst := ⟨.destination, [⟨[Shared.a], ⟨⟨⟨3⟩, "iadd", []⟩,
    [.var Shared.x, .app ⟨⟨2⟩, "iconst", []⟩ [.var ⟨1, "tmp1"⟩]]⟩⟩]⟩
  inputs := [Shared.x, ⟨1, "tmp1"⟩]
  roles := ⟨[(Shared.a, .output), (Shared.x, .input), (⟨1, "tmp1"⟩, .input)]⟩

theorem takenName_accepted : takenName.Accepted Shared.group.catalog := by
  have hvars : ∀ e ∈ [Expr.var Shared.x, .var ⟨1, "tmp1"⟩], e.Made Shared.group.catalog := by
    simp [Expr.Made.var]
  have hvar : ∀ e ∈ [Expr.var ⟨1, "tmp1"⟩], e.Made Shared.group.catalog := by
    simp [Expr.Made.var]
  have hconstant : (Expr.app ⟨⟨2⟩, "iconst", []⟩ [.var ⟨1, "tmp1"⟩]).Made
      Shared.group.catalog :=
    .unbound rfl rfl rfl hvar
  have hnested : ∀ e ∈ [Expr.var Shared.x, .app ⟨⟨2⟩, "iconst", []⟩ [.var ⟨1, "tmp1"⟩]],
      e.Made Shared.group.catalog := by
    simp [Expr.Made.var, hconstant]
  exact Rule.accepted_of_close rfl rfl (.unbound rfl rfl rfl hvars) (.unbound rfl rfl rfl hnested)
    (by decide) (by decide) rfl

/-- The arm of `takenName` hoists the constant as `tmp2`. -/
theorem takenName_wellScoped :
    ∃ (m : Matcher) (i : Instruction) (arm : List Statement),
      Matcher.ofRule takenName = .ok m ∧ Shared.group.get? m.head.inst = some i ∧
      m.statements Shared.group i = arm.map .ok ∧
      (armCode i arm).nested.nested <:+:
        (groupEmission Shared.group ⟨"expand", "", [takenName]⟩).lines ∧
      (∀ n s call, arm[n]? = some s → s.call? = some call → ∀ x ∈ call.args,
        ∃ s' ∈ arm.take n, s'.Lets x) ∧
      hoistedNames arm = ["tmp2"] := by
  have hgen : (groupEmission Shared.group ⟨"expand", "", [takenName]⟩).error? = none := rfl
  obtain ⟨m, i, arm, hof, hi, harm, hcode, hscoped, -⟩ :=
    arm_wellScoped hgen List.mem_cons_self takenName_accepted
  refine ⟨m, i, arm, hof, hi, harm, hcode, hscoped, ?_⟩
  have hm : Matcher.ofRule takenName = .ok ⟨takenName, [Shared.a],
    ⟨⟨6⟩, "iadd_imm", []⟩, [Shared.x, ⟨1, "tmp1"⟩]⟩ := rfl
  obtain rfl := Except.ok.inj (hm.symm.trans hof)
  cases hi
  rw [eq_filterMap_of_map_ok harm]
  rfl

end Isaforge.Legalizer
