import Isaforge.Proofs.Flattening
import Isaforge.Proofs.Registry

/-!
# Unnesting — rules whose calls are definitions of their own

`Rule.unnest` moves every nested application of a destination, innermost first and left to right,
into a definition of its own, just before the definition it is nested in.  It defines a new
variable, whose name is the one that the call is hoisted under.

What this does to expressions is said by `Unnests vars flat left`, which is kept when lists of
expressions are joined and when an application is put on top.  The rest follows definition by
definition.

* `CallArg.hoist_ofExpr`: the applications moved out of an expression are the calls hoisted out of
  it, under the same names.
* `Rule.ClosedOver.unnest`: a closed rule stays closed.
* `Rule.ClosedOver.unnested`: its inputs and the roles of its variables stay as they are, and the
  new variables are temporaries.
-/

namespace Isaforge

open Roles (Mentioned)

/-- A variable that is defined as an application to variables. -/
structure FlatDefinition where
  var : Var
  head : Head
  args : List Var

namespace FlatDefinition

/-- The definition as one of a pattern. -/
def definition (f : FlatDefinition) : Definition :=
  ⟨[f.var], ⟨f.head, f.args.map .var⟩⟩

/-- The definition as a hoisted call. -/
def call (f : FlatDefinition) : NamedCall :=
  ⟨f.var.name, f.head.operation, f.args.map (·.name)⟩

/-- A flat definition uses its arguments and nothing else. -/
theorem uses_definition_iff {f : FlatDefinition} {v : Var} : f.definition.Uses v ↔ v ∈ f.args := by
  simp [Definition.Uses, definition, Application.expr]

theorem outputsOf_definitions (fs : List FlatDefinition) :
    Definition.outputsOf (fs.map definition) = fs.map (·.var) := by
  rw [Definition.outputsOf, List.flatMap_map]
  exact List.map_eq_flatMap.symm

end FlatDefinition

/-! ### Expressions -/

section

variable {σ : Type} (next : Supply σ) (identity : String → Nat)

namespace Expr

mutual

/-- Define each application in the expression as a variable of its own: the definitions, the
variable left in the place of the expression, and the state of the supply. -/
def unnest : Expr → σ → List FlatDefinition × Var × σ
  | .var v, s => ([], v, s)
  | .app head args, s =>
    let (flat, vars, s) := unnestAll args s
    let (n, s) := next s
    (flat ++ [⟨⟨identity n, n⟩, head, vars⟩], ⟨identity n, n⟩, s)

/-- Define each application in the expressions as a variable of its own, from left to right. -/
def unnestAll : List Expr → σ → List FlatDefinition × List Var × σ
  | [], s => ([], [], s)
  | e :: es, s =>
    let (flat, v, s) := unnest e s
    let (flat', vars, s) := unnestAll es s
    (flat ++ flat', v :: vars, s)

end

theorem unnest_app (head : Head) (args : List Expr) (s : σ) :
    unnest next identity (.app head args) s =
      ((unnestAll next identity args s).1 ++
          [⟨⟨identity (next (unnestAll next identity args s).2.2).1,
            (next (unnestAll next identity args s).2.2).1⟩, head,
            (unnestAll next identity args s).2.1⟩],
        ⟨identity (next (unnestAll next identity args s).2.2).1,
          (next (unnestAll next identity args s).2.2).1⟩,
        (next (unnestAll next identity args s).2.2).2) :=
  rfl

theorem unnestAll_cons (e : Expr) (es : List Expr) (s : σ) :
    unnestAll next identity (e :: es) s =
      ((unnest next identity e s).1 ++
          (unnestAll next identity es (unnest next identity e s).2.2).1,
        (unnest next identity e s).2.1 ::
          (unnestAll next identity es (unnest next identity e s).2.2).2.1,
        (unnestAll next identity es (unnest next identity e s).2.2).2.2) :=
  rfl

theorem length_unnestAll (es : List Expr) (s : σ) :
    (unnestAll next identity es s).2.1.length = es.length := by
  induction es generalizing s with
  | nil => rfl
  | cons e es ih => rw [unnestAll_cons, List.length_cons, ih, List.length_cons]

end Expr

namespace CallArg

theorem hoistAll_ofExprs_of {es : List Expr}
    (h : ∀ e ∈ es, ∀ s, hoist next (ofExpr e) s =
      ((e.unnest next identity s).1.map (·.call), (e.unnest next identity s).2.1.name,
        (e.unnest next identity s).2.2)) (s : σ) :
    hoistAll next (ofExprs es) s =
      ((Expr.unnestAll next identity es s).1.map (·.call),
        (Expr.unnestAll next identity es s).2.1.map (·.name),
        (Expr.unnestAll next identity es s).2.2) := by
  induction es generalizing s with
  | nil => rfl
  | cons e es ih =>
      rw [ofExprs, hoistAll_cons, h e List.mem_cons_self,
        ih fun e' he' => h e' (List.mem_cons_of_mem _ he'), Expr.unnestAll_cons, List.map_append,
        List.map_cons]

/-- The definitions of the applications in an expression are the calls hoisted out of it. -/
theorem hoist_ofExpr (e : Expr) (s : σ) :
    hoist next (ofExpr e) s =
      ((e.unnest next identity s).1.map (·.call), (e.unnest next identity s).2.1.name,
        (e.unnest next identity s).2.2) := by
  induction e generalizing s with
  | var v => rfl
  | app head args ih =>
      rw [ofExpr, hoist_call, hoistAll_ofExprs_of next identity ih, Expr.unnest_app,
        List.map_append]
      rfl

/-- Hoisting the arguments gives the calls of the definitions that unnesting them gives. -/
theorem hoistAll_ofExprs (es : List Expr) (s : σ) :
    hoistAll next (ofExprs es) s =
      ((Expr.unnestAll next identity es s).1.map (·.call),
        (Expr.unnestAll next identity es s).2.1.map (·.name),
        (Expr.unnestAll next identity es s).2.2) :=
  hoistAll_ofExprs_of next identity (fun e _ => hoist_ofExpr next identity e) s

end CallArg

/-- Of expressions with the variables `vars`, the applications are defined by `flat`, and `left` is
what is left of the expressions. -/
structure Unnests (vars : List Var) (flat : List FlatDefinition) (left : List Var) : Prop where
  /-- The definitions use variables of the expressions and those of preceding definitions. -/
  open_uses : ∀ earlier, ∀ v ∈ Definition.openUses earlier (flat.map (·.definition)),
    v ∈ vars ∧ v ∉ earlier
  left_mem : ∀ v ∈ left, v ∈ vars ∨ v ∈ flat.map (·.var)
  args_mem : ∀ f ∈ flat, ∀ v ∈ f.args, v ∈ vars ∨ v ∈ flat.map (·.var)
  /-- No variable of the expressions gets lost. -/
  kept : ∀ v ∈ vars, v ∈ left ∨ ∃ f ∈ flat, v ∈ f.args

namespace Unnests

variable {vars vars' left left' : List Var} {flat flat' : List FlatDefinition}

theorem nil : Unnests [] [] [] :=
  ⟨fun _ _ h => (nomatch h), fun _ h => (nomatch h), fun _ h => (nomatch h), fun _ h => (nomatch h)⟩

theorem var (v : Var) : Unnests [v] [] [v] :=
  ⟨fun _ _ h => (nomatch h), fun _ h => .inl h, fun _ h => (nomatch h), fun _ h => .inl h⟩

/-- Expressions are joined with those to the right of them. -/
theorem append (h : Unnests vars flat left) (h' : Unnests vars' flat' left') :
    Unnests (vars ++ vars') (flat ++ flat') (left ++ left') where
  open_uses := by
    intro earlier v hv
    rw [List.map_append, Definition.openUses_append, List.mem_append] at hv
    rcases hv with hv | hv
    · obtain ⟨hmem, hout⟩ := h.open_uses earlier v hv
      exact ⟨List.mem_append_left _ hmem, hout⟩
    · obtain ⟨hmem, hout⟩ := h'.open_uses _ v hv
      exact ⟨List.mem_append_right _ hmem, fun he => hout (List.mem_append_left _ he)⟩
  left_mem := by
    intro v hv
    have hmem := (List.mem_append.mp hv).imp (h.left_mem v) (h'.left_mem v)
    simp only [List.map_append, List.mem_append]
    tauto
  args_mem := by
    intro f hf v hv
    have hmem := (List.mem_append.mp hf).imp (fun hf => h.args_mem f hf v hv)
      (fun hf => h'.args_mem f hf v hv)
    simp only [List.map_append, List.mem_append]
    tauto
  kept := by
    intro v hv
    rcases List.mem_append.mp hv with hv | hv
    · exact (h.kept v hv).imp (List.mem_append_left _)
        fun ⟨f, hf, hv⟩ => ⟨f, List.mem_append_left _ hf, hv⟩
    · exact (h'.kept v hv).imp (List.mem_append_right _)
        fun ⟨f, hf, hv⟩ => ⟨f, List.mem_append_right _ hf, hv⟩

/-- An application to what is left uses nothing else. -/
theorem openUses_top (h : Unnests vars flat left) {d : Definition}
    (hd : ∀ v, d.Uses v → v ∈ left) {earlier : List Var} :
    ∀ v ∈ Definition.openUses earlier (flat.map (·.definition) ++ [d]), v ∈ vars ∧ v ∉ earlier := by
  intro v hv
  rw [Definition.openUses_append, List.mem_append] at hv
  rcases hv with hv | hv
  · exact h.open_uses earlier v hv
  · rw [FlatDefinition.outputsOf_definitions, Definition.openUses, Definition.openUses,
      List.append_nil, List.mem_filter, decide_eq_true_iff, List.mem_append, not_or] at hv
    obtain ⟨hu, hout, hnew⟩ := hv
    have hleft := hd v (Definition.uses_iff_mem_uses.mpr hu)
    exact ⟨(h.left_mem v hleft).resolve_right hnew, hout⟩

/-- What is left of the arguments goes into an application of its own. -/
theorem app (h : Unnests vars flat left) (v : Var) (head : Head) :
    Unnests vars (flat ++ [⟨v, head, left⟩]) [v] where
  open_uses := by
    intro earlier
    rw [List.map_append]
    exact h.openUses_top fun w hw => FlatDefinition.uses_definition_iff.mp hw
  left_mem := by
    intro w hw
    rw [List.mem_singleton.mp hw, List.map_append]
    exact .inr (List.mem_append_right _ List.mem_cons_self)
  args_mem := by
    intro f hf w hw
    have hmem : w ∈ vars ∨ w ∈ flat.map (·.var) := by
      rcases List.mem_append.mp hf with hf | hf
      · exact h.args_mem f hf w hw
      · rw [List.mem_singleton.mp hf] at hw
        exact h.left_mem w hw
    rw [List.map_append]
    exact hmem.imp_right (List.mem_append_left _)
  kept := by
    intro w hw
    rcases h.kept w hw with hw | ⟨f, hf, hw⟩
    · exact .inr ⟨_, List.mem_append_right _ List.mem_cons_self, hw⟩
    · exact .inr ⟨f, List.mem_append_left _ hf, hw⟩

end Unnests

namespace Expr

theorem unnests_unnestAll_of {es : List Expr}
    (h : ∀ e ∈ es, ∀ s, Unnests e.vars (e.unnest next identity s).1
      [(e.unnest next identity s).2.1]) (s : σ) :
    Unnests (varsAll es) (unnestAll next identity es s).1 (unnestAll next identity es s).2.1 := by
  induction es generalizing s with
  | nil => exact .nil
  | cons e es ih =>
      have hrest := ih (fun e' he' => h e' (List.mem_cons_of_mem _ he'))
        (e.unnest next identity s).2.2
      rw [unnestAll_cons, varsAll]
      exact (h e List.mem_cons_self s).append hrest

/-- Unnesting an expression keeps its uses, and leaves one variable for it. -/
theorem unnests_unnest (e : Expr) (s : σ) :
    Unnests e.vars (e.unnest next identity s).1 [(e.unnest next identity s).2.1] := by
  induction e generalizing s with
  | var v => exact .var v
  | app head args ih => exact (unnests_unnestAll_of next identity ih s).app _ head

theorem unnests_unnestAll (es : List Expr) (s : σ) :
    Unnests (varsAll es) (unnestAll next identity es s).1 (unnestAll next identity es s).2.1 :=
  unnests_unnestAll_of next identity (fun e _ => unnests_unnest next identity e) s

end Expr

/-! ### Definitions -/

/-- A definition with the applications nested in its value defined before it. -/
structure UnnestedDefinition where
  nested : List FlatDefinition
  top : Definition

namespace UnnestedDefinition

/-- The definitions, in order. -/
def definitions (u : UnnestedDefinition) : List Definition :=
  u.nested.map (·.definition) ++ [u.top]

/-- The variables that the applications are defined as. -/
def vars (u : UnnestedDefinition) : List Var :=
  u.nested.map (·.var)

theorem outputsOf_definitions (u : UnnestedDefinition) :
    Definition.outputsOf u.definitions = u.vars ++ u.top.outputs := by
  rw [definitions, Definition.outputsOf_append, FlatDefinition.outputsOf_definitions,
    Definition.outputsOf_singleton, vars]

end UnnestedDefinition

namespace Definition

/-- The definition without nesting, and the state of the supply. -/
def unnest (d : Definition) (s : σ) : UnnestedDefinition × σ :=
  let (flat, vars, s) := Expr.unnestAll next identity d.value.args s
  (⟨flat, ⟨d.outputs, ⟨d.value.head, vars.map .var⟩⟩⟩, s)

/-- The definitions without nesting, one supply serving all. -/
def unnestAll : List Definition → σ → List UnnestedDefinition
  | [], _ => []
  | d :: ds, s => (d.unnest next identity s).1 :: unnestAll ds (d.unnest next identity s).2

variable {next identity} {d : Definition} {s : σ} {v : Var}

theorem uses_top_iff :
    (d.unnest next identity s).1.top.Uses v ↔
      v ∈ (Expr.unnestAll next identity d.value.args s).2.1 := by
  simp [Definition.Uses, unnest, Application.expr]

theorem unnests_args (d : Definition) (s : σ) :
    Unnests d.uses (d.unnest next identity s).1.nested
      (Expr.unnestAll next identity d.value.args s).2.1 :=
  Expr.unnests_unnestAll next identity d.value.args s

/-- Unnesting leaves the open uses that there were. -/
theorem openUses_definitions {earlier : List Var} :
    ∀ v ∈ openUses earlier (d.unnest next identity s).1.definitions, v ∈ d.uses ∧ v ∉ earlier :=
  (unnests_args d s).openUses_top fun _ hv => uses_top_iff.mp hv

/-- What the definitions use is used in the value, or it is a new variable. -/
theorem uses_of_mem_definitions {d' : Definition}
    (hd : d' ∈ (d.unnest next identity s).1.definitions) (hv : d'.Uses v) :
    d.Uses v ∨ v ∈ (d.unnest next identity s).1.vars := by
  have hspec : Unnests d.uses (d.unnest next identity s).1.nested _ := unnests_args d s
  rw [uses_iff_mem_uses]
  rcases List.mem_append.mp hd with hd | hd
  · obtain ⟨f, hf, rfl⟩ := List.mem_map.mp hd
    exact hspec.args_mem f hf v (FlatDefinition.uses_definition_iff.mp hv)
  · rw [List.mem_singleton.mp hd] at hv
    exact hspec.left_mem v (uses_top_iff.mp hv)

/-- What the nested definition uses, one of the flat ones uses. -/
theorem exists_uses_of_uses (hv : d.Uses v) :
    ∃ d' ∈ (d.unnest next identity s).1.definitions, d'.Uses v := by
  rcases (unnests_args d s).kept v (uses_iff_mem_uses.mp hv) with hleft | ⟨f, hf, harg⟩
  · exact ⟨_, List.mem_append_right _ List.mem_cons_self, uses_top_iff.mpr hleft⟩
  · exact ⟨f.definition, List.mem_append_left _ (List.mem_map_of_mem hf),
      FlatDefinition.uses_definition_iff.mpr harg⟩

/-- All values are applications to variables. -/
theorem args_of_mem_definitions {d' : Definition}
    (hd : d' ∈ (d.unnest next identity s).1.definitions) :
    ∃ vars : List Var, d'.value.args = vars.map .var := by
  rcases List.mem_append.mp hd with hd | hd
  · obtain ⟨f, -, rfl⟩ := List.mem_map.mp hd
    exact ⟨f.args, rfl⟩
  · rw [List.mem_singleton.mp hd]
    exact ⟨_, rfl⟩

/-- The new variables have the names that the supply gives. -/
theorem names_unnest (d : Definition) (s : σ) :
    ∃ k, (d.unnest next identity s).1.vars.map (·.name) = next.take s k ∧
      (d.unnest next identity s).2 = next.after s k := by
  have hsupply : (CallArg.hoistAll next (CallArg.ofExprs d.value.args) s).1.map (·.name) = _ ∧ _ :=
    CallArg.hoistAll_supply (CallArg.ofExprs d.value.args) s
  rw [CallArg.hoistAll_ofExprs next identity, List.map_map] at hsupply
  refine ⟨CallArg.nodesAll (CallArg.ofExprs d.value.args), ?_, hsupply.2⟩
  rw [UnnestedDefinition.vars, List.map_map]
  exact hsupply.1

variable {ds : List Definition}

theorem exists_of_mem_unnestAll {u : UnnestedDefinition} (h : u ∈ unnestAll next identity ds s) :
    ∃ d ∈ ds, ∃ s', u = (d.unnest next identity s').1 := by
  induction ds generalizing s with
  | nil => cases h
  | cons d ds ih =>
      rcases List.mem_cons.mp h with rfl | h
      · exact ⟨d, List.mem_cons_self, s, rfl⟩
      · obtain ⟨d', hd', s', hu⟩ := ih h
        exact ⟨d', List.mem_cons_of_mem _ hd', s', hu⟩

theorem mem_unnestAll (hd : d ∈ ds) (s : σ) :
    ∃ s', (d.unnest next identity s').1 ∈ unnestAll next identity ds s := by
  induction ds generalizing s with
  | nil => cases hd
  | cons d' ds ih =>
      rcases List.mem_cons.mp hd with rfl | hd
      · exact ⟨s, List.mem_cons_self⟩
      · obtain ⟨s', h⟩ := ih hd (d'.unnest next identity s).2
        exact ⟨s', List.mem_cons_of_mem _ h⟩

/-- The new variables have names from the supply, in its order. -/
theorem names_unnestAll (ds : List Definition) (s : σ) :
    ∃ k, ((unnestAll next identity ds s).flatMap (·.vars)).map (·.name) = next.take s k := by
  induction ds generalizing s with
  | nil => exact ⟨0, rfl⟩
  | cons d ds ih =>
      obtain ⟨k, hnames, hstate⟩ : ∃ k, (d.unnest next identity s).1.vars.map (·.name) = _ ∧ _ :=
        names_unnest d s
      obtain ⟨k', hnames'⟩ := ih (d.unnest next identity s).2
      refine ⟨k + k', ?_⟩
      rw [unnestAll, List.flatMap_cons, List.map_append, hnames, hnames', Supply.take_add, hstate]

/-- The new variables are defined besides the outputs, and no others. -/
theorem outputsOf_unnestAll (ds : List Definition) (s : σ) :
    (outputsOf ((unnestAll next identity ds s).flatMap (·.definitions))).Perm
      ((unnestAll next identity ds s).flatMap (·.vars) ++ outputsOf ds) := by
  induction ds generalizing s with
  | nil => exact .refl _
  | cons d ds ih =>
      have hrest := ih (d.unnest next identity s).2
      have houtputs : (d.unnest next identity s).1.top.outputs = d.outputs := rfl
      rw [unnestAll, List.flatMap_cons, List.flatMap_cons, outputsOf_append, outputsOf_cons,
        UnnestedDefinition.outputsOf_definitions, houtputs, List.append_assoc, List.append_assoc]
      -- the outputs of the first definition go behind the new variables of the others
      refine List.Perm.append_left _ ((hrest.append_left _).trans ?_)
      rw [← List.append_assoc, ← List.append_assoc]
      exact List.perm_append_comm.append_right _

/-- Unnesting opens no use that was not open. -/
theorem openUses_unnestAll {earlier earlier' : List Var} (hsub : earlier' ⊆ earlier) :
    ∀ v ∈ openUses earlier ((unnestAll next identity ds s).flatMap (·.definitions)),
      v ∈ openUses earlier' ds := by
  induction ds generalizing s earlier earlier' with
  | nil => exact fun v hv => hv
  | cons d ds ih =>
      intro v hv
      rw [unnestAll, List.flatMap_cons, openUses_append, List.mem_append] at hv
      rw [openUses, List.mem_append]
      rcases hv with hv | hv
      · obtain ⟨hu, hout⟩ := openUses_definitions v hv
        exact .inl (List.mem_filter.mpr ⟨hu, decide_eq_true fun he => hout (hsub he)⟩)
      · refine .inr (ih ?_ v hv)
        rw [UnnestedDefinition.outputsOf_definitions]
        exact List.append_subset.mpr ⟨fun w hw => List.mem_append_left _ (hsub hw),
          fun w hw => List.mem_append_right _ (List.mem_append_right _ hw)⟩

theorem tops_unnestAll (ds : List Definition) (s : σ) :
    (unnestAll next identity ds s).map (·.top.outputs) = ds.map (·.outputs) := by
  induction ds generalizing s with
  | nil => rfl
  | cons d ds ih =>
      rw [unnestAll, List.map_cons, List.map_cons, ih]
      rfl

/-- The last definition has the outputs that it had. -/
theorem getLast?_unnestAll (ds : List Definition) (s : σ) :
    ((unnestAll next identity ds s).flatMap (·.definitions)).getLast?.map (·.outputs) =
      ds.getLast?.map (·.outputs) := by
  have hlast : ∀ us : List UnnestedDefinition,
      (us.flatMap (·.definitions)).getLast? = us.getLast?.map (·.top) := by
    intro us
    rcases List.eq_nil_or_concat us with rfl | ⟨us, u, rfl⟩
    · rfl
    · simp [UnnestedDefinition.definitions]
  calc ((unnestAll next identity ds s).flatMap (·.definitions)).getLast?.map (·.outputs)
      = ((unnestAll next identity ds s).map (·.top.outputs)).getLast? := by
        rw [hlast, Option.map_map, List.getLast?_map]
        rfl
    _ = ds.getLast?.map (·.outputs) := by rw [tops_unnestAll, List.getLast?_map]

end Definition

/-! ### Applications that are put together -/

namespace Expr

variable {c : Catalog}

theorem Made.of_app {head : Head} {args : List Expr} (h : (Expr.app head args).Made c) :
    (∀ e ∈ args, e.Made c) ∧ ∃ ref types, Application.make c ref types args = .ok ⟨head, args⟩ := by
  generalize he : Expr.app head args = e at h
  cases h with
  | var v => cases he
  | @app ref types args' a hargs hmake =>
      obtain ⟨_, _, _, _, _, _, rfl⟩ := Application.make_eq_ok_iff.mp hmake
      obtain ⟨rfl, rfl⟩ := Expr.app.inj he
      exact ⟨hargs, ref, types, hmake⟩

/-- Whether an application may be made does not depend on what its arguments are. -/
theorem Made.with_vars {head : Head} {args : List Expr} {vars : List Var}
    (h : (Expr.app head args).Made c) (hlength : vars.length = args.length) :
    (Expr.app head (vars.map .var)).Made c := by
  obtain ⟨-, ref, types, hmake⟩ := h.of_app
  obtain ⟨s, bound, hs, hbound, hcheck, harity, heq⟩ := Application.make_eq_ok_iff.mp hmake
  obtain ⟨rfl, -⟩ := Application.mk.inj heq
  have hvars : ∀ e ∈ vars.map Expr.var, e.Made c := by
    intro e he
    obtain ⟨v, -, rfl⟩ := List.mem_map.mp he
    exact .var v
  refine .app hvars (Application.make_eq_ok_iff.mpr
    ⟨s, bound, hs, hbound, hcheck, ?_, rfl⟩)
  rw [List.length_map, hlength, harity]

variable {next identity}

theorem made_unnestAll_of {es : List Expr}
    (h : ∀ e ∈ es, ∀ s, ∀ f ∈ (e.unnest next identity s).1, f.definition.value.expr.Made c)
    (s : σ) :
    ∀ f ∈ (unnestAll next identity es s).1, f.definition.value.expr.Made c := by
  induction es generalizing s with
  | nil => exact fun f hf => nomatch hf
  | cons e es ih =>
      intro f hf
      rw [unnestAll_cons] at hf
      rcases List.mem_append.mp hf with hf | hf
      · exact h e List.mem_cons_self s f hf
      · exact ih (fun e' he' => h e' (List.mem_cons_of_mem _ he')) _ f hf

/-- What is made in a catalog is unnested to definitions that are made in it. -/
theorem made_unnest {e : Expr} (h : e.Made c) (s : σ) :
    ∀ f ∈ (e.unnest next identity s).1, f.definition.value.expr.Made c := by
  induction e generalizing s with
  | var v => exact fun f hf => nomatch hf
  | app head args ih =>
      intro f hf
      rw [unnest_app] at hf
      rcases List.mem_append.mp hf with hf | hf
      · exact made_unnestAll_of (fun e he => ih e he (h.of_app.1 e he)) s f hf
      · rw [List.mem_singleton.mp hf]
        exact h.with_vars (length_unnestAll next identity args s)

end Expr

theorem Definition.made_unnest {c : Catalog} {d : Definition} (h : d.value.expr.Made c) (s : σ) :
    ∀ d' ∈ (d.unnest next identity s).1.definitions, d'.value.expr.Made c := by
  intro d' hd
  rcases List.mem_append.mp hd with hd | hd
  · obtain ⟨f, hf, rfl⟩ := List.mem_map.mp hd
    exact Expr.made_unnestAll_of (fun e he => Expr.made_unnest (h.of_app.1 e he)) s f hf
  · rw [List.mem_singleton.mp hd]
    exact h.with_vars (Expr.length_unnestAll next identity d.value.args s)

end

/-! ### Rules -/

namespace Rule

variable {c : Catalog} {r : Rule} {identity : String → Nat} {v : Var}

/-- The definitions of the destination without nesting. -/
def unnested (r : Rule) (identity : String → Nat) : List UnnestedDefinition :=
  Definition.unnestAll (Fresh.supply (r.roles.vars.map (·.name))) identity r.dst.defs 0

/-- The rule with the applications nested in its destination as definitions of their own. -/
def unnest (r : Rule) (identity : String → Nat) : Rule :=
  let defs := (r.unnested identity).flatMap (·.definitions)
  { r with dst := ⟨r.dst.side, defs⟩, roles := .classify r.src.defs defs }

theorem src_unnest (r : Rule) (identity : String → Nat) : (r.unnest identity).src = r.src :=
  rfl

/-- The variables that the nested applications are defined as. -/
def nestedVars (r : Rule) (identity : String → Nat) : List Var :=
  (r.unnested identity).flatMap (·.vars)

/-- The rule `t` is the rule `r` with nested applications defined as the variables `new`. -/
structure Unnested (r t : Rule) (new : List Var) : Prop where
  /-- Nothing is nested any more. -/
  flat : ∀ d ∈ t.dst.defs, ∃ vars : List Var, d.value.args = vars.map .var
  new_nodup : new.Nodup
  name_new : ∀ v ∈ new, ∀ w ∈ r.roles.vars, v.name ≠ w.name
  inputs_eq : t.inputs = r.inputs
  mem_vars_iff : ∀ v, v ∈ t.roles.vars ↔ v ∈ r.roles.vars ∨ v ∈ new
  role_kept : ∀ v ∈ r.roles.vars, t.role? v = r.role? v
  role_new : ∀ v ∈ new, t.role? v = some .temporary

/-- The new variables have distinct names, which no variable of the rule has. -/
theorem names_nestedVars (r : Rule) (identity : String → Nat) :
    ((r.nestedVars identity).map (·.name)).Nodup ∧
      ∀ v ∈ r.nestedVars identity, ∀ w ∈ r.roles.vars, v.name ≠ w.name := by
  obtain ⟨k, hnames⟩ : ∃ k, (r.nestedVars identity).map (·.name) =
      (Fresh.supply (r.roles.vars.map (·.name))).take 0 k := Definition.names_unnestAll _ _
  constructor
  · rw [hnames]
    exact Fresh.nodup_take _ _ _
  · intro v hv w hw heq
    have hmem : v.name ∈ (Fresh.supply (r.roles.vars.map (·.name))).take 0 k := by
      rw [← hnames]
      exact List.mem_map_of_mem hv
    exact Fresh.notMem_of_mem_take hmem (heq ▸ List.mem_map_of_mem hw)

/-- The unnested destination defines the new variables besides. -/
theorem outputs_unnest (r : Rule) (identity : String → Nat) :
    (r.unnest identity).dst.outputs.Perm (r.nestedVars identity ++ r.dst.outputs) :=
  Definition.outputsOf_unnestAll r.dst.defs 0

/-- A definition of the rule without nesting comes from one of the rule. -/
theorem exists_of_mem_unnest {d' : Definition} (h : d' ∈ (r.unnest identity).dst.defs) :
    ∃ u ∈ r.unnested identity, d' ∈ u.definitions ∧ ∃ d ∈ r.dst.defs, ∃ s,
      u = (d.unnest (Fresh.supply (r.roles.vars.map (·.name))) identity s).1 := by
  obtain ⟨u, hu, hd'⟩ := List.mem_flatMap.mp h
  exact ⟨u, hu, hd', Definition.exists_of_mem_unnestAll hu⟩

/-- The variables of the rule without nesting are those of the rule and the new ones. -/
theorem mentioned_unnest_iff :
    Mentioned (r.src.defs ++ (r.unnest identity).dst.defs) v ↔
      Mentioned (r.src.defs ++ r.dst.defs) v ∨ v ∈ r.nestedVars identity := by
  have houtputs : v ∈ (r.unnest identity).dst.outputs ↔
      v ∈ r.nestedVars identity ∨ v ∈ r.dst.outputs := by
    rw [(outputs_unnest r identity).mem_iff, List.mem_append]
  constructor
  · rintro ⟨d', hd', hv⟩
    rcases List.mem_append.mp hd' with hd' | hd'
    · exact .inl ⟨d', List.mem_append_left _ hd', hv⟩
    · rcases hv with hv | hv
      · rcases houtputs.mp (Definition.mem_outputsOf.mpr ⟨d', hd', hv⟩) with hv | hv
        · exact .inr hv
        · obtain ⟨d, hd, hv⟩ := Definition.mem_outputsOf.mp hv
          exact .inl ⟨d, List.mem_append_right _ hd, .inl hv⟩
      · obtain ⟨u, hu, hd', d, hd, s, rfl⟩ := exists_of_mem_unnest hd'
        refine (Definition.uses_of_mem_definitions hd' hv).imp ?_ ?_
        · exact fun hv => ⟨d, List.mem_append_right _ hd, .inr hv⟩
        · exact fun hv => List.mem_flatMap.mpr ⟨_, hu, hv⟩
  · have hdst : ∀ {v}, v ∈ (r.unnest identity).dst.outputs →
        Mentioned (r.src.defs ++ (r.unnest identity).dst.defs) v := by
      intro v hv
      obtain ⟨d, hd, hv⟩ := Definition.mem_outputsOf.mp hv
      exact ⟨d, List.mem_append_right _ hd, .inl hv⟩
    rintro (⟨d, hd, hv⟩ | hv)
    · rcases List.mem_append.mp hd with hd | hd
      · exact ⟨d, List.mem_append_left _ hd, hv⟩
      · rcases hv with hv | hv
        · exact hdst (houtputs.mpr (.inr (Definition.mem_outputsOf.mpr ⟨d, hd, hv⟩)))
        · obtain ⟨s, hu⟩ := Definition.mem_unnestAll hd 0
          obtain ⟨d', hd', hv⟩ := Definition.exists_uses_of_uses hv
          exact ⟨d', List.mem_append_right _ (List.mem_flatMap.mpr ⟨_, hu, hd'⟩), .inr hv⟩
    · exact hdst (houtputs.mpr (.inl hv))

/-- What a closed rule is made of. -/
theorem ClosedOver.exists_eq (h : r.ClosedOver c) :
    r.src.Sound c ∧ r.dst.Sound c ∧ NamesDistinct r.src r.dst ∧
      checkInputs r.src r.dst = .ok r.inputs ∧ r.roles = .classify r.src.defs r.dst.defs := by
  obtain ⟨site, src, dst, hsrc, hdst, hclose⟩ := h
  obtain ⟨inputs, hinputs, hnames, rfl⟩ := close_eq_ok_iff.mp hclose
  exact ⟨hsrc, hdst, hnames, hinputs, rfl⟩

theorem ClosedOver.mem_vars_iff (h : r.ClosedOver c) :
    v ∈ r.roles.vars ↔ Mentioned (r.src.defs ++ r.dst.defs) v := by
  rw [h.sound.roles_eq, Roles.mem_vars_classify]

/-- A variable that the rule mentions is not one of the new ones. -/
theorem ClosedOver.notMem_nestedVars (h : r.ClosedOver c)
    (hv : Mentioned (r.src.defs ++ r.dst.defs) v) : v ∉ r.nestedVars identity :=
  fun hnew => (names_nestedVars r identity).2 v hnew v (h.mem_vars_iff.mpr hv) rfl

/-- The destination stays well formed. -/
theorem ClosedOver.sound_unnest (h : r.ClosedOver c) (identity : String → Nat) :
    (r.unnest identity).dst.Sound c := by
  obtain ⟨-, hdst, -⟩ := h.exists_eq
  refine ⟨?_, ?_, ?_⟩
  · rw [(outputs_unnest r identity).nodup_iff]
    refine (names_nestedVars r identity).1.of_map.append hdst.outputs_nodup ?_
    intro v hnew hv
    obtain ⟨d, hd, hv⟩ := Definition.mem_outputsOf.mp hv
    exact h.notMem_nestedVars ⟨d, List.mem_append_right _ hd, .inl hv⟩ hnew
  · intro d' hd'
    obtain ⟨u, -, hd', d, hd, s, rfl⟩ := exists_of_mem_unnest hd'
    rcases List.mem_append.mp hd' with hd' | hd'
    · obtain ⟨f, -, rfl⟩ := List.mem_map.mp hd'
      exact List.cons_ne_nil _ _
    · rw [List.mem_singleton.mp hd']
      exact hdst.outputs_ne_nil d hd
  · intro d' hd'
    obtain ⟨u, -, hd', d, hd, s, rfl⟩ := exists_of_mem_unnest hd'
    exact Definition.made_unnest _ _ (hdst.made d hd) s d' hd'

/-- Names stay distinct: those of the new variables are taken by no other. -/
theorem ClosedOver.namesDistinct_unnest (h : r.ClosedOver c) (identity : String → Nat) :
    NamesDistinct r.src (r.unnest identity).dst := by
  obtain ⟨hnd, hnew⟩ := names_nestedVars r identity
  intro v w hv hw heq
  rw [mentioned_unnest_iff, ← h.mem_vars_iff] at hv hw
  rcases hv with hv | hv <;> rcases hw with hw | hw
  · exact h.sound.names_distinct v w (h.mem_vars_iff.mp hv) (h.mem_vars_iff.mp hw) heq
  · exact absurd heq.symm (hnew w hw v hv)
  · exact absurd heq (hnew v hv w hw)
  · exact List.inj_on_of_nodup_map hnd hv hw heq

/-- A variable of the rule is defined in the destination as it was. -/
theorem ClosedOver.mem_outputs_unnest_iff (h : r.ClosedOver c)
    (hv : Mentioned (r.src.defs ++ r.dst.defs) v) :
    v ∈ (r.unnest identity).dst.outputs ↔ v ∈ r.dst.outputs := by
  rw [(outputs_unnest r identity).mem_iff, List.mem_append, or_iff_right (h.notMem_nestedVars hv)]

/-- The inputs of the rule stay what they are. -/
theorem ClosedOver.checkInputs_unnest (h : r.ClosedOver c) (identity : String → Nat) :
    checkInputs r.src (r.unnest identity).dst = .ok r.inputs := by
  obtain ⟨hne, hsrc, hdst, hinputs⟩ := checkInputs_eq_ok_iff.mp h.sound.inputs_eq
  refine checkInputs_eq_ok_iff.mpr ⟨hne, ?_, ?_, hinputs⟩
  · intro v hv
    obtain ⟨n, d, hd, hu, -⟩ := mem_openUses_iff.mp hv
    have hmentioned : Mentioned (r.src.defs ++ r.dst.defs) v :=
      ⟨d, List.mem_append_left _ (List.mem_of_getElem? hd), .inr hu⟩
    rw [undefined_iff, h.mem_outputs_unnest_iff hmentioned]
    exact undefined_iff.mp (hsrc v hv)
  · exact fun v hv => hdst v (Definition.openUses_unnestAll (List.Subset.refl _) v hv)

/-- The rule without nesting is accepted. -/
theorem ClosedOver.close_unnest (h : r.ClosedOver c) (identity : String → Nat) :
    close r.site r.src (r.unnest identity).dst = .ok (r.unnest identity) :=
  close_eq_ok_iff.mpr
    ⟨r.inputs, h.checkInputs_unnest identity, h.namesDistinct_unnest identity, rfl⟩

/-- **A closed rule stays closed** without nesting. -/
theorem ClosedOver.unnest (h : r.ClosedOver c) (identity : String → Nat) :
    (r.unnest identity).ClosedOver c :=
  ⟨r.site, r.src, _, h.exists_eq.1, h.sound_unnest identity, h.close_unnest identity⟩

theorem ClosedOver.role?_eq_some_iff (h : r.ClosedOver c) {role : Role} :
    r.role? v = some role ↔ Mentioned (r.src.defs ++ r.dst.defs) v ∧
      (v ∈ r.src.outputs ↔ role.inSource) ∧ (v ∈ r.dst.outputs ↔ role.inDestination) := by
  rw [role?, h.sound.roles_eq]
  exact Roles.role?_classify_eq_some_iff

/-- A variable of the rule keeps its role. -/
theorem ClosedOver.role?_unnest (h : r.ClosedOver c) (identity : String → Nat)
    (hv : v ∈ r.roles.vars) : (r.unnest identity).role? v = r.role? v := by
  rw [h.mem_vars_iff] at hv
  refine Option.ext fun role => ?_
  rw [(h.unnest identity).role?_eq_some_iff, h.role?_eq_some_iff, src_unnest, mentioned_unnest_iff,
    h.mem_outputs_unnest_iff hv, or_iff_left (h.notMem_nestedVars hv)]

/-- The new variables are temporaries. -/
theorem ClosedOver.role?_nestedVars (h : r.ClosedOver c) (hv : v ∈ r.nestedVars identity) :
    (r.unnest identity).role? v = some .temporary := by
  rw [(h.unnest identity).role?_eq_some_iff, src_unnest, mentioned_unnest_iff]
  have hsrc : v ∉ r.src.outputs := by
    intro hout
    obtain ⟨d, hd, hout⟩ := Definition.mem_outputsOf.mp hout
    exact h.notMem_nestedVars ⟨d, List.mem_append_left _ hd, .inl hout⟩ hv
  have hdst : v ∈ (r.unnest identity).dst.outputs :=
    (outputs_unnest r identity).mem_iff.mpr (List.mem_append_left _ hv)
  exact ⟨.inr hv, ⟨fun hout => absurd hout hsrc, fun hs => nomatch hs⟩,
    ⟨fun _ => rfl, fun _ => hdst⟩⟩

/-- **The inputs and roles stay as they are** without nesting, and the new variables are
temporaries. -/
theorem ClosedOver.unnested (h : r.ClosedOver c) (identity : String → Nat) :
    r.Unnested (r.unnest identity) (r.nestedVars identity) where
  flat := by
    intro d' hd'
    obtain ⟨u, -, hd', d, -, s, rfl⟩ := exists_of_mem_unnest hd'
    exact Definition.args_of_mem_definitions hd'
  new_nodup := (names_nestedVars r identity).1.of_map
  name_new := (names_nestedVars r identity).2
  inputs_eq := rfl
  mem_vars_iff _ := by
    rw [(h.unnest identity).mem_vars_iff, src_unnest, mentioned_unnest_iff, h.mem_vars_iff]
  role_kept _ hv := h.role?_unnest identity hv
  role_new _ hv := h.role?_nestedVars hv

end Rule

end Isaforge
