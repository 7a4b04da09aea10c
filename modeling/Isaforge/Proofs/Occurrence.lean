import Isaforge.Role
import Isaforge.Proofs.Repetition

/-!
# Occurrence — where variables and applications occur

`Expr.Occurs v e` says that `v` occurs in `e`, at any depth, and `Application.Within a e` that `e`
contains the application `a`, at any depth.  The program lists variables instead: the two views
meet in `Expr.occurs_iff_mem_vars`.

A definition of a sequence *precedes* place `n` when it stands at a smaller place.  A variable
used at place `n` is open when no preceding definition defines it (`Definition.mem_openUses_iff`).

* `Expr.nested_induction`: what holds of every variable, and of every application whose arguments
  it holds of, holds of every expression.
* `Expr.mem_heads_iff`: the heads listed are those of the applications contained.
* `Roles.mem_vars_classify`: the variables that are given roles are those mentioned somewhere.
* `Roles.role?_classify_eq_some_iff`: the role of a mentioned variable says which patterns define
  it.
-/

namespace Isaforge

/-! ### Expressions -/

/-- Induction on expressions: an application is reached from its arguments. -/
@[induction_eliminator]
theorem Expr.nested_induction {motive : Expr → Prop} (var : ∀ v, motive (.var v))
    (app : ∀ head args, (∀ e ∈ args, motive e) → motive (.app head args)) : ∀ e, motive e
  | .var v => var v
  | .app head args => app head args fun e _ => Expr.nested_induction var app e

/-- `v` occurs in the expression. -/
inductive Expr.Occurs (v : Var) : Expr → Prop where
  | var : Occurs v (.var v)
  | app {head : Head} {args : List Expr} {e : Expr} :
      e ∈ args → Occurs v e → Occurs v (.app head args)

/-- The expression contains the application `a`. -/
inductive Application.Within (a : Application) : Expr → Prop where
  | self : Within a a.expr
  | arg {head : Head} {args : List Expr} {e : Expr} :
      e ∈ args → Within a e → Within a (.app head args)

@[simp] theorem Expr.occurs_var {v w : Var} : (Expr.var w).Occurs v ↔ v = w := by
  refine ⟨fun h => ?_, fun h => h ▸ .var⟩
  cases h; rfl

@[simp] theorem Expr.occurs_app {v : Var} {head : Head} {args : List Expr} :
    (Expr.app head args).Occurs v ↔ ∃ e ∈ args, e.Occurs v := by
  refine ⟨fun h => ?_, fun ⟨e, he, h⟩ => .app he h⟩
  cases h with
  | app he h => exact ⟨_, he, h⟩

/-- What an application contains is the application itself and what its arguments contain. -/
theorem Application.within_app {a : Application} {head : Head} {args : List Expr} :
    a.Within (.app head args) ↔ a = ⟨head, args⟩ ∨ ∃ e ∈ args, a.Within e := by
  constructor
  · intro h
    cases h with
    | self => exact .inl rfl
    | arg he h => exact .inr ⟨_, he, h⟩
  · rintro (rfl | ⟨e, he, h⟩)
    · exact .self
    · exact .arg he h

theorem Application.not_within_var {a : Application} {v : Var} : ¬ a.Within (.var v) := by
  intro h
  cases h

/-- The variables that occur are the variables listed. -/
theorem Expr.occurs_iff_mem_vars {v : Var} {e : Expr} : e.Occurs v ↔ v ∈ e.vars := by
  induction e with
  | var w => simp [Expr.vars]
  | app head args ih =>
      rw [Expr.occurs_app, Expr.vars, Expr.varsAll_eq_flatMap, List.mem_flatMap]
      exact exists_congr fun e => and_congr_right fun he => ih e he

namespace Expr

mutual

/-- The heads of the applications in the expression, in the order they are called: those of the
arguments from left to right, and then its own. -/
def heads : Expr → List Head
  | .var _ => []
  | .app head args => headsAll args ++ [head]

/-- The heads of the applications in the expressions. -/
def headsAll : List Expr → List Head
  | [] => []
  | e :: es => e.heads ++ headsAll es

end

theorem headsAll_eq_flatMap (es : List Expr) : headsAll es = es.flatMap heads := by
  induction es with
  | nil => rfl
  | cons e es ih => rw [headsAll, ih, List.flatMap_cons]

/-- The heads are those of the applications that the expression contains. -/
theorem mem_heads_iff {h : Head} {e : Expr} :
    h ∈ e.heads ↔ ∃ a : Application, a.Within e ∧ a.head = h := by
  induction e with
  | var v => simp [heads, Application.not_within_var]
  | app head args ih =>
      rw [heads, headsAll_eq_flatMap, List.mem_append, List.mem_flatMap, List.mem_singleton]
      constructor
      · rintro (⟨e, he, hh⟩ | rfl)
        · obtain ⟨a, ha, hah⟩ := (ih e he).mp hh
          exact ⟨a, .arg he ha, hah⟩
        · exact ⟨⟨h, args⟩, .self, rfl⟩
      · rintro ⟨a, ha, rfl⟩
        rcases Application.within_app.mp ha with rfl | ⟨e, he, hin⟩
        · exact .inr rfl
        · exact .inl ⟨e, he, (ih e he).mpr ⟨a, hin, rfl⟩⟩

end Expr

/-! ### Definitions -/

namespace Definition

/-- The value of the definition uses `v`. -/
def Uses (d : Definition) (v : Var) : Prop :=
  d.value.expr.Occurs v

/-- The variables that a definition uses are those listed for it. -/
theorem uses_iff_mem_uses {d : Definition} {v : Var} : d.Uses v ↔ v ∈ d.uses :=
  Expr.occurs_iff_mem_vars

/-- A definition that precedes place `n` defines `v`. -/
def DefinedBefore (defs : List Definition) (n : Nat) (v : Var) : Prop :=
  ∃ m d, m < n ∧ defs[m]? = some d ∧ v ∈ d.outputs

/-- The outputs of a sequence are those of its definitions. -/
theorem mem_outputsOf {defs : List Definition} {v : Var} :
    v ∈ outputsOf defs ↔ ∃ d ∈ defs, v ∈ d.outputs :=
  List.mem_flatMap

theorem not_definedBefore_zero {defs : List Definition} {v : Var} :
    ¬ DefinedBefore defs 0 v := by
  rintro ⟨m, -, hm, -⟩
  exact Nat.not_lt_zero m hm

/-- A definition in front precedes every place behind it. -/
theorem definedBefore_cons_succ {d : Definition} {ds : List Definition} {n : Nat} {v : Var} :
    DefinedBefore (d :: ds) (n + 1) v ↔ v ∈ d.outputs ∨ DefinedBefore ds n v := by
  constructor
  · rintro ⟨m, d', hm, hd', hv⟩
    cases m with
    | zero => cases hd'; exact .inl hv
    | succ m => exact .inr ⟨m, d', Nat.lt_of_succ_lt_succ hm, hd', hv⟩
  · rintro (hv | ⟨m, d', hm, hd', hv⟩)
    · exact ⟨0, d, Nat.succ_pos n, rfl, hv⟩
    · exact ⟨m + 1, d', Nat.succ_lt_succ hm, hd', hv⟩

/-- What is defined before some place is defined in the sequence. -/
theorem mem_outputsOf_of_definedBefore {defs : List Definition} {n : Nat} {v : Var}
    (h : DefinedBefore defs n v) : v ∈ outputsOf defs := by
  obtain ⟨m, d, -, hd, hv⟩ := h
  exact mem_outputsOf.mpr ⟨d, List.mem_of_getElem? hd, hv⟩

theorem outputsOf_append (ds ds' : List Definition) :
    outputsOf (ds ++ ds') = outputsOf ds ++ outputsOf ds' :=
  List.flatMap_append

theorem outputsOf_singleton (d : Definition) : outputsOf [d] = d.outputs :=
  List.flatMap_singleton _ _

theorem outputsOf_cons (d : Definition) (ds : List Definition) :
    outputsOf (d :: ds) = d.outputs ++ outputsOf ds :=
  List.flatMap_cons

/-- What the first sequence defines is no longer open in the second. -/
theorem openUses_append (earlier : List Var) (ds ds' : List Definition) :
    openUses earlier (ds ++ ds') =
      openUses earlier ds ++ openUses (earlier ++ outputsOf ds) ds' := by
  induction ds generalizing earlier with
  | nil => rw [List.nil_append, openUses, List.nil_append, outputsOf, List.flatMap_nil,
      List.append_nil]
  | cons d ds ih =>
      rw [List.cons_append, openUses, openUses, ih, outputsOf_cons, List.append_assoc,
        List.append_assoc]

/-- Without open uses, the first definition uses only what was there. -/
theorem mem_of_openUses_eq_nil {earlier : List Var} {d : Definition} {ds : List Definition}
    (h : openUses earlier (d :: ds) = []) {v : Var} (hv : d.Uses v) : v ∈ earlier := by
  rw [openUses, List.append_eq_nil_iff] at h
  by_contra hnot
  have hmem : v ∈ d.uses.filter (· ∉ earlier) :=
    List.mem_filter.mpr ⟨uses_iff_mem_uses.mp hv, by simpa using hnot⟩
  rw [h.1] at hmem
  cases hmem

/-- The open uses are the uses at places that no definition of the variable precedes. -/
theorem mem_openUses_iff {earlier : List Var} {defs : List Definition} {v : Var} :
    v ∈ openUses earlier defs ↔
      ∃ n d, defs[n]? = some d ∧ d.Uses v ∧ v ∉ earlier ∧ ¬ DefinedBefore defs n v := by
  induction defs generalizing earlier with
  | nil => simp [openUses]
  | cons d ds ih =>
      rw [openUses, List.mem_append, List.mem_filter, ih]
      constructor
      · rintro (⟨hu, he⟩ | ⟨n, d', hd', hu, he, hb⟩)
        · exact ⟨0, d, rfl, uses_iff_mem_uses.mpr hu, by simpa using he, not_definedBefore_zero⟩
        · rw [List.mem_append, not_or] at he
          refine ⟨n + 1, d', hd', hu, he.1, ?_⟩
          rw [definedBefore_cons_succ, not_or]
          exact ⟨he.2, hb⟩
      · rintro ⟨n, d', hd', hu, he, hb⟩
        cases n with
        | zero => cases hd'; exact .inl ⟨uses_iff_mem_uses.mp hu, by simpa using he⟩
        | succ n =>
            rw [definedBefore_cons_succ, not_or] at hb
            refine .inr ⟨n, d', hd', hu, ?_, hb.2⟩
            rw [List.mem_append, not_or]
            exact ⟨he, hb.1⟩

end Definition

/-! ### Roles -/

namespace Role

/-- Variables of the role are defined in the source. -/
def inSource : Role → Bool
  | .output | .intermediate => true
  | .input | .temporary => false

/-- Variables of the role are defined in the destination. -/
def inDestination : Role → Bool
  | .output | .temporary => true
  | .input | .intermediate => false

/-- A role is known from which of the two patterns define its variables. -/
theorem ofDefined_eq_iff {s d : Bool} {role : Role} :
    ofDefined s d = role ↔ s = role.inSource ∧ d = role.inDestination := by
  cases role <;> cases s <;> cases d <;> simp [ofDefined, inSource, inDestination]

end Role

namespace Roles

/-- A definition of the sequence defines or uses `v`. -/
def Mentioned (defs : List Definition) (v : Var) : Prop :=
  ∃ d ∈ defs, v ∈ d.outputs ∨ d.Uses v

/-- The variables that appear are those mentioned by some definition. -/
theorem mem_appearances {defs : List Definition} {v : Var} :
    v ∈ appearances defs ↔ Mentioned defs v := by
  simp only [appearances, List.mem_flatMap, List.mem_append, Mentioned,
    Definition.uses_iff_mem_uses]

/-- The variables are classified in the order in which they first appear, source first. -/
theorem vars_classify (src dst : List Definition) :
    (classify src dst).vars = distinct (appearances (src ++ dst)) := by
  simp [classify, vars, Function.comp_def]

/-- Exactly the variables that the patterns mention are given a role. -/
theorem mem_vars_classify {src dst : List Definition} {v : Var} :
    v ∈ (classify src dst).vars ↔ Mentioned (src ++ dst) v := by
  rw [vars_classify, mem_distinct, mem_appearances]

/-- No variable is given two roles. -/
theorem nodup_vars_classify (src dst : List Definition) : (classify src dst).vars.Nodup := by
  rw [vars_classify]
  exact nodup_distinct _

/-- In a table of the values of `f`, a listed key has its value and no other key has one. -/
theorem lookup_map_self {α β : Type} [DecidableEq α] (f : α → β) (xs : List α) (x : α) :
    (xs.map fun x => (x, f x)).lookup x = if x ∈ xs then some (f x) else none := by
  induction xs with
  | nil => rfl
  | cons y ys ih =>
      rw [List.map_cons, List.lookup_cons, ih]
      by_cases hxy : x = y
      · simp [hxy]
      · simp [hxy, beq_false_of_ne hxy]

/-- A mentioned variable has the role that says which patterns define it, and no other variable
has one. -/
theorem role?_classify_eq_some_iff {src dst : List Definition} {v : Var} {role : Role} :
    (classify src dst).role? v = some role ↔
      Mentioned (src ++ dst) v ∧ (v ∈ Definition.outputsOf src ↔ role.inSource) ∧
        (v ∈ Definition.outputsOf dst ↔ role.inDestination) := by
  have hmem : v ∈ distinct (appearances (src ++ dst)) ↔ Mentioned (src ++ dst) v := by
    rw [mem_distinct, mem_appearances]
  have hrole : Role.ofDefined (v ∈ Definition.outputsOf src) (v ∈ Definition.outputsOf dst) = role ↔
      (v ∈ Definition.outputsOf src ↔ role.inSource) ∧
        (v ∈ Definition.outputsOf dst ↔ role.inDestination) := by
    rw [Role.ofDefined_eq_iff]
    refine and_congr ?_ ?_
    · rw [Bool.eq_iff_iff, decide_eq_true_iff]
    · rw [Bool.eq_iff_iff, decide_eq_true_iff]
  rw [role?, classify, lookup_map_self, ← hmem, ← hrole]
  by_cases hv : v ∈ distinct (appearances (src ++ dst))
  · rw [if_pos hv, Option.some.injEq]
    exact ⟨fun h => ⟨hv, h⟩, fun h => h.2⟩
  · rw [if_neg hv]
    exact ⟨fun h => (nomatch h), fun h => absurd h.1 hv⟩

end Roles

end Isaforge
