import Isaforge.Proofs.Construction
import Isaforge.Proofs.Legalizer.Renaming
import Isaforge.Proofs.Page

/-!
# Identities — a rule under other variables

Variables are created with identities of their own, and which these are differs from run to run.
They do nothing but tell variables apart: a script that is run with other variables of the same
names fails alike, or makes a rule that is the first one under the renaming.

* `Steps.run_rename`: a script runs with the renamed variables as with the first ones, step
  by step, whatever is refused on the way.
* `Rule.close_rename`: so does closing the patterns.
* `Rule.build_rename`: so the two rules are built, or refused for the same reason; and when they
  are built they are twins (`Rule.Twins`), to everything that looks at them.
-/

namespace Isaforge

/-- Under an injective renaming, the first element repeated is the renamed one. -/
theorem firstRepeat?_map {α β : Type} [DecidableEq α] [DecidableEq β] {f : α → β}
    (hf : Function.Injective f) (seen xs : List α) :
    firstRepeat? (seen.map f) (xs.map f) = (firstRepeat? seen xs).map f := by
  induction xs generalizing seen with
  | nil => rfl
  | cons x xs ih =>
      have hmem : f x ∈ seen.map f ↔ x ∈ seen := List.mem_map_of_injective hf
      rw [List.map_cons, firstRepeat?, firstRepeat?]
      by_cases hx : x ∈ seen
      · rw [if_pos (hmem.mpr hx), if_pos hx, Option.map_some]
      · rw [if_neg (hmem.not.mpr hx), if_neg hx, ← List.map_cons, ih]

/-! ### Values -/

/-- An expression that is to be put together: variables, and instructions of catalogs to be
applied. -/
inductive Term where
  | var (v : Var)
  | apply (c : Catalog) (ref : InstRef) (types : List ValueType) (args : List Term)

namespace Term

mutual

/-- The expression, unless an application in it is refused. -/
def make : Term → Except Error Expr
  | .var v => .ok (.var v)
  | .apply c ref types args => do
    let args ← makeAll args
    let a ← Application.make c ref types args
    return a.expr

/-- The expressions, from left to right, up to the first that is refused. -/
def makeAll : List Term → Except Error (List Expr)
  | [] => .ok []
  | t :: ts => do
    let e ← t.make
    let es ← makeAll ts
    return e :: es

end

mutual

/-- The term with `f v` for each variable `v`. -/
def rename (f : Var → Var) : Term → Term
  | .var v => .var (f v)
  | .apply c ref types args => .apply c ref types (renameAll f args)

/-- The terms with `f v` for each variable `v`. -/
def renameAll (f : Var → Var) : List Term → List Term
  | [] => []
  | t :: ts => t.rename f :: renameAll f ts

end

end Term

/-- Of the arguments, only their number decides whether an application is refused. -/
theorem Application.make_rename (f : Var → Var) (c : Catalog) (ref : InstRef)
    (types : List ValueType) (args : List Expr) :
    make c ref types (args.map (·.rename f)) = (make c ref types args).map (·.rename f) := by
  rw [make, make, List.length_map]
  cases c.signature? ref.id with
  | none => rfl
  | some s =>
      simp only [bind, Except.bind]
      cases typeArguments s.name ref types with
      | error cause => rfl
      | ok bound =>
          dsimp only
          cases c.checkBinding ref.id bound with
          | error cause => rfl
          | ok _ =>
              by_cases hlength : args.length ≠ s.arity
              · simp only [if_pos hlength]
                rfl
              · simp only [if_neg hlength]
                rfl

namespace Term

variable {f : Var → Var}

mutual

/-- Putting a value together under a renaming gives the renamed value, or the same refusal. -/
theorem make_rename : ∀ t : Term, (t.rename f).make = t.make.map (·.rename f)
  | .var _ => rfl
  | .apply c ref types args => by
      rw [rename, make, makeAll_rename args, make]
      cases makeAll args with
      | error cause => rfl
      | ok es =>
          have happly := Application.make_rename f c ref types es
          simp only [Except.map, bind, Except.bind] at happly ⊢
          rw [happly]
          cases Application.make c ref types es with
          | error cause => rfl
          | ok a => exact congrArg Except.ok (Application.expr_rename f a)

/-- So do several values, up to the first that is refused. -/
theorem makeAll_rename :
    ∀ ts : List Term, makeAll (renameAll f ts) = (makeAll ts).map (·.map (·.rename f))
  | [] => rfl
  | t :: ts => by
      rw [renameAll, makeAll, make_rename t, makeAll_rename ts, makeAll]
      cases t.make with
      | error cause => rfl
      | ok e => cases makeAll ts <;> rfl

end

end Term

/-! ### Patterns -/

section

variable {f : Var → Var} (hname : ∀ v, (f v).name = v.name) (hinj : Function.Injective f)

include hname in
/-- A renaming that keeps the name of each variable keeps lists of names. -/
theorem map_name_rename (vs : List Var) : (vs.map f).map (·.name) = vs.map (·.name) := by
  rw [List.map_map]
  exact List.map_congr_left fun v _ => hname v

include hname in
/-- A definition is refused by what it is written like, which the renaming keeps. -/
theorem Definition.make_rename (outputs : List Var) (value : Expr) :
    make (outputs.map f) (value.rename f) = (make outputs value).map (·.rename f) := by
  cases value with
  | var v => exact congrArg (fun name => Except.error (Error.notAnApplication name)) (hname v)
  | app head args =>
      have htext := Expr.text_rename hname (.app head args)
      rw [Expr.rename_app] at htext ⊢
      cases outputs with
      | nil => exact congrArg (fun text => Except.error (Error.noOutputs text)) htext
      | cons v vs => rfl

namespace Pattern

/-- The pattern with `f v` for each variable `v`. -/
def rename (f : Var → Var) (p : Pattern) : Pattern :=
  ⟨p.side, p.defs.map (·.rename f)⟩

/-- A renamed pattern defines the renamed variables. -/
theorem outputs_rename (p : Pattern) : (p.rename f).outputs = p.outputs.map f :=
  Definition.outputsOf_rename p.defs

include hname in
/-- A pattern is written with the names of its variables only. -/
theorem text_rename (p : Pattern) : (p.rename f).text = p.text := by
  rw [text, rename, List.map_map]
  exact congrArg "; ".intercalate
    (List.map_congr_left fun d _ => Definition.text_rename hname d)

include hinj

/-- A renamed pattern defines the images of what the pattern defines, and no others. -/
theorem defines_rename (p : Pattern) (v : Var) : (p.rename f).defines (f v) = p.defines v := by
  rw [defines, defines, outputs_rename]
  exact decide_eq_decide.mpr (List.mem_map_of_injective hinj)

/-- The open uses of a renamed pattern are the renamed ones. -/
theorem openUses_rename (p : Pattern) : (p.rename f).openUses = p.openUses.map f :=
  @Definition.openUses_rename f Set.univ hinj.injOn [] p.defs (fun _ _ => trivial)
    (fun _ _ => trivial) fun _ _ _ _ => trivial

include hname

/-- A definition is refused by the renamed pattern for the variable of the same name. -/
theorem push_rename (p : Pattern) (d : Definition) :
    (p.rename f).push (d.rename f) = (p.push d).map (·.rename f) := by
  have hrepeat : firstRepeat? (p.rename f).outputs (d.rename f).outputs =
      (firstRepeat? p.outputs d.outputs).map f := by
    rw [outputs_rename]
    exact firstRepeat?_map hinj p.outputs d.outputs
  rw [push, push, hrepeat]
  cases firstRepeat? p.outputs d.outputs with
  | some v =>
      exact congrArg (fun name => Except.error (Error.duplicateDefinition name p.side)) (hname v)
  | none =>
      have hdefs : (p.rename f).defs ++ [d.rename f] = (p.defs ++ [d]).map (·.rename f) := by
        rw [List.map_append]
        rfl
      exact congrArg (fun defs => Except.ok (Pattern.mk p.side defs)) hdefs

/-- One definition of a script, under the renaming: made and pushed alike, or refused alike. -/
theorem define_rename (p : Pattern) (outputs : List Var) (value : Expr) :
    (p.rename f).define (outputs.map f) (value.rename f) =
      (p.define outputs value).map (·.rename f) := by
  rw [define, define, Definition.make_rename hname]
  cases Definition.make outputs value with
  | error cause => rfl
  | ok d => exact push_rename hname hinj p d

end Pattern

/-! ### Scripts -/

/-- The draft with `f v` for each variable `v`. -/
def Rule.Draft.rename (f : Var → Var) (draft : Rule.Draft) : Rule.Draft :=
  ⟨draft.src.rename f, draft.dst.rename f⟩

include hname hinj in
/-- The step lemma of a script: one definition under the renaming, whichever pattern takes it. -/
theorem Rule.add_rename (side : Side) (outputs : List Var) (value : Expr) (draft : Rule.Draft) :
    (Rule.add side (outputs.map f) (value.rename f)).run (draft.rename f) =
      ((Rule.add side outputs value).run draft).map fun p => (p.1, p.2.rename f) := by
  cases side with
  | source =>
      rw [Rule.add, Rule.add, Rule.source_run, Rule.source_run, Rule.Draft.rename,
        Pattern.define_rename hname hinj]
      cases draft.src.define outputs value <;> rfl
  | destination =>
      rw [Rule.add, Rule.add, Rule.destination_run, Rule.destination_run, Rule.Draft.rename,
        Pattern.define_rename hname hinj]
      cases draft.dst.define outputs value <;> rfl

end

/-- A script step by step: it ends, fails, or puts a value together and adds a definition of it,
and goes on as that turned out. -/
inductive Steps where
  | finish
  | fail (cause : Error)
  | define (side : Side) (outputs : List Var) (value : Term) (next : Except Error Unit → Steps)

namespace Steps

/-- The script that takes the steps. -/
def script : Steps → Rule.Script
  | .finish => pure ()
  | .fail cause => throw cause
  | .define side outputs value next => fun draft =>
      match value.make >>= fun e => (Rule.add side outputs e).run draft with
      | .ok (_, draft) => (next (.ok ())).script.run draft
      | .error cause => (next (.error cause)).script.run draft

/-- The steps with `f v` for each variable `v`. -/
def rename (f : Var → Var) : Steps → Steps
  | .finish => .finish
  | .fail cause => .fail cause
  | .define side outputs value next =>
      .define side (outputs.map f) (value.rename f) fun outcome => (next outcome).rename f

/-- The script with other variables runs as the script does. -/
theorem run_rename {f : Var → Var} (hname : ∀ v, (f v).name = v.name)
    (hinj : Function.Injective f) (steps : Steps) (draft : Rule.Draft) :
    (steps.rename f).script.run (draft.rename f) =
      (steps.script.run draft).map fun p => (p.1, p.2.rename f) := by
  induction steps generalizing draft with
  | finish => rfl
  | fail cause => rfl
  | define side outputs value next ih =>
      have hadd : ((value.rename f).make >>= fun e =>
            (Rule.add side (outputs.map f) e).run (draft.rename f)) =
          (value.make >>= fun e => (Rule.add side outputs e).run draft).map
            fun p => (p.1, p.2.rename f) := by
        rw [Term.make_rename]
        cases value.make with
        | error cause => rfl
        | ok e => exact Rule.add_rename hname hinj side outputs e draft
      rw [rename, script, script, StateT.run, StateT.run, hadd]
      cases (value.make >>= fun e => (Rule.add side outputs e).run draft) with
      | error cause => exact ih (.error cause) draft
      | ok added => exact ih (.ok ()) added.2

end Steps

/-! ### Closing -/

namespace Rule

/-- The rule with `f v` for each variable `v`, declared at `site`. -/
def rename (f : Var → Var) (site : String) (r : Rule) : Rule :=
  ⟨site, r.src.rename f, r.dst.rename f, r.inputs.map f, r.roles.rename f⟩

section

variable {f : Var → Var} (hname : ∀ v, (f v).name = v.name) (hinj : Function.Injective f)

include hname hinj

/-- The inputs are checked by identity: an injective renaming gives the renamed inputs, or the same
error about variables of the same names. -/
theorem checkInputs_rename (src dst : Pattern) :
    checkInputs (src.rename f) (dst.rename f) = (checkInputs src dst).map (·.map f) := by
  have hinputs : distinct (src.rename f).openUses = (distinct src.openUses).map f := by
    rw [Pattern.openUses_rename hinj, distinct_map hinj.injOn]
  have hforeign :
      (dst.rename f).openUses.filter (· ∉ distinct (src.rename f).openUses) =
        (dst.openUses.filter (· ∉ distinct src.openUses)).map f := by
    rw [hinputs, Pattern.openUses_rename hinj, List.filter_map]
    refine congrArg (List.map f) (List.filter_congr fun v _ => ?_)
    simp only [Function.comp_apply, List.mem_map_of_injective hinj]
  have hdefined (vs : List Var) :
      (vs.map f).find? (fun v => (src.rename f).defines v || (dst.rename f).defines v) =
        (vs.find? fun v => src.defines v || dst.defines v).map f := by
    rw [List.find?_map]
    simp only [Function.comp_def, Pattern.defines_rename hinj]
  have hempty : (src.rename f).isEmpty = src.isEmpty := List.isEmpty_map
  simp only [checkInputs, hforeign, hempty]
  rw [hinputs, Pattern.openUses_rename hinj, ← List.map_append, hdefined]
  generalize dst.openUses.filter (· ∉ distinct src.openUses) = foreign
  by_cases hsource : src.isEmpty
  · rw [if_pos hsource, if_pos hsource]
    rfl
  · rw [if_neg hsource, if_neg hsource]
    cases (src.openUses ++ foreign).find? fun v => src.defines v || dst.defines v with
    | some v => exact congrArg (fun name => Except.error (Error.inputDefined name)) (hname v)
    | none =>
        dsimp only [Option.map_none]
        rw [List.isEmpty_map]
        by_cases hnone : foreign.isEmpty
        · rw [if_pos hnone, if_pos hnone]
          rfl
        · rw [if_neg hnone, if_neg hnone, distinct_map hinj.injOn, map_name_rename hname]
          rfl

omit hinj in
/-- The names are checked by name alone. -/
theorem checkNames_rename (roles : Roles) : checkNames (roles.rename f) = checkNames roles := by
  rw [checkNames, checkNames, Roles.vars_rename, map_name_rename hname]

/-- Closing the renamed patterns gives the renamed rule, or is refused for the same reason. -/
theorem close_rename (site site' : String) (src dst : Pattern) :
    (∃ cause, close site src dst = .error (.rule site cause) ∧
        close site' (src.rename f) (dst.rename f) = .error (.rule site' cause)) ∨
      ∃ r, close site src dst = .ok r ∧
        close site' (src.rename f) (dst.rename f) = .ok (r.rename f site') := by
  have hroles : Roles.classify (src.rename f).defs (dst.rename f).defs =
      (Roles.classify src.defs dst.defs).rename f :=
    Roles.classify_rename hinj.injOn
  simp only [close, checkInputs_rename hname hinj, hroles, checkNames_rename hname]
  cases checkInputs src dst with
  | error cause => exact .inl ⟨cause, rfl, rfl⟩
  | ok inputs =>
      simp only [Except.map, bind, Except.bind]
      cases checkNames (Roles.classify src.defs dst.defs) with
      | error cause => exact .inl ⟨cause, rfl, rfl⟩
      | ok _ => exact .inr ⟨_, rfl, rfl⟩

end

/-! ### Twins -/

open Source Legalizer

/-- The rule `t` is the rule `r` under the renaming, to everything that looks at the two. -/
structure Twins (f : Var → Var) (r t : Rule) : Prop where
  /-- They are written alike. -/
  text : t.text = r.text
  /-- The inputs are renamed, one by one. -/
  inputs : t.inputs = r.inputs.map f
  /-- The classified variables are renamed, one by one, and keep their roles. -/
  roles : t.roles.entries = r.roles.entries.map fun e => (f e.1, e.2)
  inputs_names : t.inputs.map (·.name) = r.inputs.map (·.name)
  roles_names : (t.roles.entries.map fun e => (e.1.name, e.2)) =
    r.roles.entries.map fun e => (e.1.name, e.2)
  /-- There are as many variables of each role. -/
  counts : t.roles.counts = r.roles.counts
  /-- The same text is written for a group that has `t` in the place of `r`. -/
  generated : ∀ (insts : InstructionGroup) (name doc : String) (before after : List Rule)
    (p : Page), (p.emit (groupEmission insts ⟨name, doc, before ++ t :: after⟩)).1 =
      (p.emit (groupEmission insts ⟨name, doc, before ++ r :: after⟩)).1
  /-- The outcome is the same too, but for the site of the one that is refused. -/
  outcome : ∀ (insts : InstructionGroup) (name doc : String) (before after : List Rule) (p : Page),
    (p.emit (groupEmission insts ⟨name, doc, before ++ t :: after⟩)).2 =
        (p.emit (groupEmission insts ⟨name, doc, before ++ r :: after⟩)).2 ∨
      ∃ reason,
        (p.emit (groupEmission insts ⟨name, doc, before ++ t :: after⟩)).2 =
          .error (refusal t reason) ∧
        (p.emit (groupEmission insts ⟨name, doc, before ++ r :: after⟩)).2 =
          .error (refusal r reason)

variable {f : Var → Var} (hname : ∀ v, (f v).name = v.name) (hinj : Function.Injective f)

include hname hinj in
/-- A rule that was closed is a twin of itself under the renaming. -/
theorem twins_rename {r : Rule} (hroles : r.roles = .classify r.src.defs r.dst.defs)
    (site : String) : r.Twins f (r.rename f site) := by
  have hrenames : r.Renames f (r.rename f site) := ⟨hname, hinj.injOn, hroles, rfl, rfl, rfl⟩
  refine ⟨?_, rfl, rfl, map_name_rename hname _, ?_, ?_,
    fun insts name doc before after p => ?_, fun insts name doc before after p => ?_⟩
  · rw [text, rename, Pattern.text_rename hname, Pattern.text_rename hname, text]
  · rw [rename, Roles.rename, List.map_map]
    exact List.map_congr_left fun e _ => congrArg (·, e.2) (hname e.1)
  · simp only [Roles.counts, Roles.count, rename, Roles.rename, List.countP_map,
      Function.comp_def]
  · rcases groupEmission_renames hrenames insts name doc before after with
      heq | ⟨reason, ht, hr⟩
    · rw [heq]
    · rw [ht, hr, Page.emit_error, Page.emit_error]
  · rcases groupEmission_renames hrenames insts name doc before after with
      heq | ⟨reason, ht, hr⟩
    · exact .inl (by rw [heq])
    · exact .inr ⟨reason, by rw [ht, Page.emit_error], by rw [hr, Page.emit_error]⟩

/-- **Identities do nothing but tell variables apart.**  A script that is run with other variables
of the same names is refused for the same reason, or builds a rule that is a twin of the first. -/
theorem build_rename (hname : ∀ v, (f v).name = v.name) (hinj : Function.Injective f)
    (steps : Steps) (site site' : String) :
    (∃ cause, build site steps.script = .error (.rule site cause) ∧
        build site' (steps.rename f).script = .error (.rule site' cause)) ∨
      ∃ r t, build site steps.script = .ok r ∧ build site' (steps.rename f).script = .ok t ∧
        r.site = site ∧ t.site = site' ∧ r.Twins f t := by
  have hrun : (steps.rename f).script.run {} =
      (steps.script.run {}).map fun p => (p.1, p.2.rename f) :=
    steps.run_rename hname hinj {}
  rw [build, build, hrun]
  cases steps.script.run {} with
  | error cause => exact .inl ⟨cause, rfl, rfl⟩
  | ok ran =>
      obtain ⟨-, draft⟩ := ran
      rcases close_rename hname hinj site site' draft.src draft.dst with
        hrefused | ⟨r, hr, ht⟩
      · exact .inl hrefused
      · obtain ⟨inputs, -, -, rfl⟩ := close_eq_ok_iff.mp hr
        exact .inr ⟨_, _, hr, ht, rfl, rfl, twins_rename hname hinj rfl site'⟩

/-- The variables of the identities 0 to 9 in the opposite order. -/
def reversed (v : Var) : Var :=
  ⟨if v.id < 10 then 9 - v.id else v.id, v.name⟩

/-- No two variables get one identity: the first ten are exchanged among themselves. -/
theorem reversed_injective : Function.Injective reversed := by
  rintro ⟨i, name⟩ ⟨j, name'⟩ h
  obtain ⟨hid, rfl⟩ := Var.mk.inj h
  have hij : i = j := by
    dsimp only at hid
    split at hid <;> split at hid <;> omega
  rw [hij]

/-- The steps to `a << isub.i32(x, y) => c << iadd(x, bnot(y)); a << isub(c, x)`. -/
def subtraction : Steps :=
  let a : Var := ⟨0, "a"⟩
  let x : Var := ⟨1, "x"⟩
  let y : Var := ⟨2, "y"⟩
  let c : Var := ⟨3, "c"⟩
  let apply (n : Nat) (types : List ValueType) (args : List Term) : Term :=
    .apply Shared.group.catalog (.unbound ⟨n⟩) types args
  .define .source [a] (apply 4 [.scalar ⟨.int, 32⟩] [.var x, .var y]) fun _ =>
  .define .destination [c] (apply 3 [] [.var x, apply 15 [] [.var y]]) fun _ =>
  .define .destination [a] (apply 4 [] [.var c, .var x]) fun _ =>
  .finish

/-- The rule of these steps is built under both sets of identities. -/
theorem subtraction_twins :
    ∃ r t, build "first" subtraction.script = .ok r ∧
      build "second" (subtraction.rename reversed).script = .ok t ∧
      r.text = "a << isub.i32(x, y) => c << iadd(x, bnot(y)); a << isub(c, x)" ∧
      r.Twins reversed t := by
  have hbuilt : (build "first" subtraction.script).map text =
      .ok "a << isub.i32(x, y) => c << iadd(x, bnot(y)); a << isub(c, x)" := by
    decide +kernel
  obtain ⟨r, hr, htext⟩ := map_eq_ok_iff.mp hbuilt
  rcases @build_rename reversed (fun _ => rfl) reversed_injective subtraction "first" "second" with
    ⟨cause, hrefused, -⟩ | ⟨r', t, hr', ht, -, -, htwins⟩
  · exact nomatch hr.symm.trans hrefused
  · obtain rfl := Except.ok.inj (hr'.symm.trans hr)
    exact ⟨r', t, hr', ht, htext, htwins⟩

end Rule

end Isaforge
