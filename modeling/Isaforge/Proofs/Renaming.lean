import Mathlib.Data.Set.Function
import Isaforge.Call
import Isaforge.Proofs.Occurrence

/-!
# Renaming — variables under other identities

`Definition.rename f` puts `f v` for each variable `v`.  A renaming that keeps names changes no text
and no call (`Definition.text_rename`, `Call.ofApplication_rename`): names are all that these say of
a variable.  What goes by identity, the uses that are open and the roles, follows a renaming that
is injective on the variables concerned (`Definition.openUses_rename`, `Roles.classify_rename`).
-/

namespace Isaforge

/-! ### Lists -/

section Lists

variable {α β : Type} {f : α → β} {x : α} {xs ys : List α}

/-- Where `f` keeps the elements apart, an image is listed exactly for a listed element. -/
theorem mem_map_iff_of_injOn {S : Set α} (hf : S.InjOn f) (hx : x ∈ S) (hxs : ∀ y ∈ xs, y ∈ S) :
    f x ∈ xs.map f ↔ x ∈ xs := by
  refine ⟨fun h => ?_, List.mem_map_of_mem⟩
  obtain ⟨y, hy, heq⟩ := List.mem_map.mp h
  exact hf (hxs y hy) hx heq ▸ hy

/-- Two lists of elements that `f` keeps apart are equal when their images are. -/
theorem map_eq_map_iff_of_injOn {S : Set α} (hf : S.InjOn f) (hxs : ∀ x ∈ xs, x ∈ S)
    (hys : ∀ y ∈ ys, y ∈ S) : xs.map f = ys.map f ↔ xs = ys := by
  refine ⟨fun h => ?_, fun h => h ▸ rfl⟩
  induction xs generalizing ys with
  | nil => exact (List.map_eq_nil_iff.mp h.symm).symm
  | cons x xs ih =>
      cases ys with
      | nil => cases h
      | cons y ys =>
          rw [List.forall_mem_cons] at hxs hys
          rw [List.map_cons, List.map_cons, List.cons.injEq] at h
          rw [hf hxs.1 hys.1 h.1, ih hxs.2 hys.2 h.2]

/-- First occurrences may be taken before or after a renaming that keeps the elements apart. -/
theorem distinct_map [DecidableEq α] [DecidableEq β] (hf : Set.InjOn f {x | x ∈ xs}) :
    distinct (xs.map f) = (distinct xs).map f := by
  induction xs with
  | nil => rfl
  | cons y ys ih =>
      have hys : Set.InjOn f {x | x ∈ ys} := hf.mono fun x hx => List.mem_cons_of_mem y hx
      simp only [distinct] at ih ⊢
      -- What is dropped behind `f y` are the copies of `y`.
      rw [List.map_cons, distinctBy, ih hys, distinctBy, List.map_cons, List.filter_map]
      refine congrArg (f y :: List.map f ·) (List.filter_congr fun x hx => ?_)
      have hx' : x ∈ y :: ys := List.mem_cons_of_mem y (mem_of_mem_distinctBy hx)
      simp [hf.eq_iff hx' (List.mem_cons_self (a := y) (l := ys))]

end Lists

/-! ### Expressions -/

namespace Expr

mutual

/-- The expression with `f v` for each variable `v`. -/
def rename (f : Var → Var) : Expr → Expr
  | .var v => .var (f v)
  | .app head args => .app head (renameAll f args)

/-- The expressions with `f v` for each variable `v`. -/
def renameAll (f : Var → Var) : List Expr → List Expr
  | [] => []
  | e :: es => e.rename f :: renameAll f es

end

theorem renameAll_eq_map (f : Var → Var) (es : List Expr) : renameAll f es = es.map (rename f) := by
  induction es with
  | nil => rfl
  | cons e es ih => rw [renameAll, ih, List.map_cons]

@[simp] theorem rename_app (f : Var → Var) (head : Head) (args : List Expr) :
    (app head args).rename f = app head (args.map (rename f)) := by
  rw [rename, renameAll_eq_map]

/-- The variables of a renamed expression are the renamed ones, in the same order. -/
theorem vars_rename (f : Var → Var) (e : Expr) : (e.rename f).vars = e.vars.map f := by
  induction e with
  | var v => rfl
  | app head args ih =>
      rw [rename_app, vars, vars, varsAll_eq_flatMap, varsAll_eq_flatMap, List.flatMap_map,
        List.map_flatMap]
      exact List.flatMap_congr ih

theorem var?_rename (f : Var → Var) (e : Expr) : (e.rename f).var? = e.var?.map f := by
  cases e <;> rfl

variable {f : Var → Var} (hf : ∀ v, (f v).name = v.name)

include hf in
/-- An expression is written with the names of its variables only. -/
theorem text_rename (e : Expr) : (e.rename f).text = e.text := by
  induction e with
  | var v => exact hf v
  | app head args ih =>
      rw [rename_app, text, text, textAll_eq_map, textAll_eq_map, List.map_map]
      exact congrArg (fun texts => head.text ++ "(" ++ ", ".intercalate texts ++ ")")
        (List.map_congr_left ih)

include hf in
/-- An argument of a call says of a variable no more than its name. -/
theorem ofExpr_rename (e : Expr) : CallArg.ofExpr (e.rename f) = CallArg.ofExpr e := by
  induction e with
  | var v => exact congrArg CallArg.name (hf v)
  | app head args ih =>
      rw [rename_app, CallArg.ofExpr, CallArg.ofExpr, CallArg.ofExprs_eq_map,
        CallArg.ofExprs_eq_map, List.map_map]
      exact congrArg (CallArg.call head.operation) (List.map_congr_left ih)

end Expr

/-! ### Definitions -/

/-- The application with `f v` for each variable `v`. -/
def Application.rename (f : Var → Var) (a : Application) : Application :=
  ⟨a.head, a.args.map (·.rename f)⟩

theorem Application.expr_rename (f : Var → Var) (a : Application) :
    (a.rename f).expr = a.expr.rename f :=
  (Expr.rename_app f a.head a.args).symm

/-- An application is known from the expression that it is. -/
theorem Application.expr_injective : Function.Injective expr := by
  rintro ⟨head, args⟩ ⟨head', args'⟩ h
  cases h
  rfl

/-- So a call is the same under every renaming that keeps the names. -/
theorem Call.ofApplication_rename {f : Var → Var} (hf : ∀ v, (f v).name = v.name)
    (a : Application) : ofApplication (a.rename f) = ofApplication a := by
  rw [ofApplication, ofApplication, Application.rename, CallArg.ofExprs_eq_map,
    CallArg.ofExprs_eq_map, List.map_map]
  exact congrArg (Call.mk a.head.operation)
    (List.map_congr_left fun e _ => Expr.ofExpr_rename hf e)

namespace Definition

/-- The definition with `f v` for each variable `v`. -/
def rename (f : Var → Var) (d : Definition) : Definition :=
  ⟨d.outputs.map f, d.value.rename f⟩

variable {f : Var → Var}

/-- A renamed definition uses the renamed variables, in the same order. -/
theorem uses_rename (d : Definition) : (d.rename f).uses = d.uses.map f := by
  rw [uses, rename, Application.vars, Application.expr_rename, Expr.vars_rename]
  rfl

/-- A definition, too, is written with the names of its variables only. -/
theorem text_rename (hf : ∀ v, (f v).name = v.name) (d : Definition) :
    (d.rename f).text = d.text := by
  have hnames : (d.outputs.map f).map (·.name) = d.outputs.map (·.name) := by
    rw [List.map_map]
    exact List.map_congr_left fun v _ => hf v
  rw [text, rename, hnames, Application.text, Application.expr_rename, Expr.text_rename hf]
  rfl

theorem outputsOf_rename (ds : List Definition) :
    outputsOf (ds.map (rename f)) = (outputsOf ds).map f := by
  rw [outputsOf, outputsOf, List.flatMap_map, List.map_flatMap]
  rfl

/-- The open uses follow the renaming when it keeps all variables concerned apart. -/
theorem openUses_rename {S : Set Var} (hf : S.InjOn f) {earlier : List Var}
    {ds : List Definition} (hearlier : ∀ v ∈ earlier, v ∈ S) (houtputs : ∀ v ∈ outputsOf ds, v ∈ S)
    (huses : ∀ d ∈ ds, ∀ v ∈ d.uses, v ∈ S) :
    openUses (earlier.map f) (ds.map (rename f)) = (openUses earlier ds).map f := by
  induction ds generalizing earlier with
  | nil => rfl
  | cons d ds ih =>
      rw [List.forall_mem_cons] at huses
      rw [outputsOf_cons, List.forall_mem_append] at houtputs
      have hrest : ∀ v ∈ earlier ++ d.outputs, v ∈ S :=
        List.forall_mem_append.mpr ⟨hearlier, houtputs.1⟩
      -- A use is open before the renaming exactly when it is after it.
      have hopen : (d.uses.map f).filter (· ∉ earlier.map f) =
          (d.uses.filter (· ∉ earlier)).map f := by
        rw [List.filter_map]
        refine congrArg (List.map f) (List.filter_congr fun v hv => ?_)
        simp only [Function.comp_apply, mem_map_iff_of_injOn hf (huses.1 v hv) hearlier]
      rw [List.map_cons, openUses, uses_rename, hopen, openUses, List.map_append,
        ← ih hrest houtputs.2 huses.2, List.map_append]
      rfl

end Definition

/-! ### Roles -/

namespace Roles

/-- The roles with `f v` for each variable `v`. -/
def rename (f : Var → Var) (r : Roles) : Roles :=
  ⟨r.entries.map fun e => (f e.1, e.2)⟩

variable {f : Var → Var} {src dst : List Definition}

/-- Renamed variables appear in the order in which the first ones do. -/
theorem appearances_rename (ds : List Definition) :
    appearances (ds.map (·.rename f)) = (appearances ds).map f := by
  rw [appearances, appearances, List.flatMap_map, List.map_flatMap]
  refine List.flatMap_congr fun d _ => ?_
  rw [Definition.uses_rename, List.map_append]
  rfl

/-- The roles of renamed definitions. -/
theorem classify_rename (hf : Set.InjOn f {v | Mentioned (src ++ dst) v}) :
    classify (src.map (·.rename f)) (dst.map (·.rename f)) = (classify src dst).rename f := by
  have hdistinct : distinct ((appearances (src ++ dst)).map f) =
      (distinct (appearances (src ++ dst))).map f :=
    distinct_map (hf.mono fun v hv => mem_appearances.mp hv)
  have hsource : ∀ v ∈ Definition.outputsOf src, Mentioned (src ++ dst) v := by
    intro v hv
    obtain ⟨d, hd, hv⟩ := Definition.mem_outputsOf.mp hv
    exact ⟨d, List.mem_append_left dst hd, .inl hv⟩
  have hdestination : ∀ v ∈ Definition.outputsOf dst, Mentioned (src ++ dst) v := by
    intro v hv
    obtain ⟨d, hd, hv⟩ := Definition.mem_outputsOf.mp hv
    exact ⟨d, List.mem_append_right src hd, .inl hv⟩
  rw [classify, ← List.map_append, appearances_rename, hdistinct, Definition.outputsOf_rename,
    Definition.outputsOf_rename, List.map_map, rename, classify, List.map_map]
  refine congrArg Roles.mk (List.map_congr_left fun v hv => ?_)
  have hv : Mentioned (src ++ dst) v := mem_appearances.mp (mem_distinct.mp hv)
  simp only [Function.comp_apply, mem_map_iff_of_injOn hf hv hsource,
    mem_map_iff_of_injOn hf hv hdestination]

/-- The roles are given to the renamed variables, in the same order. -/
theorem vars_rename (r : Roles) : (r.rename f).vars = r.vars.map f := by
  rw [vars, rename, vars, List.map_map, List.map_map]
  rfl

/-- A renamed variable has the role that it had. -/
theorem role?_rename {r : Roles} {S : Set Var} (hf : S.InjOn f) (hr : ∀ v ∈ r.vars, v ∈ S)
    {v : Var} (hv : v ∈ S) : (r.rename f).role? (f v) = r.role? v := by
  obtain ⟨entries⟩ := r
  rw [role?, rename, role?]
  induction entries with
  | nil => rfl
  | cons e es ih =>
      rw [vars, List.map_cons, List.forall_mem_cons] at hr
      have hbeq : (f v == f e.1) = (v == e.1) := by
        rw [Bool.eq_iff_iff, beq_iff_eq, beq_iff_eq, hf.eq_iff hv hr.1]
      rw [List.map_cons, List.lookup_cons, List.lookup_cons, hbeq, ih hr.2]

end Roles

end Isaforge
