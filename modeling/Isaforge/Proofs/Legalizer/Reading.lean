import Isaforge.Proofs.Legalizer.Renaming
import Isaforge.Proofs.Page
import Isaforge.Proofs.Reading

/-!
# Reading — rules of one text are alike

Reading the text of a rule gives its definitions but for the identities of its variables.  These
are told apart by their names in a rule that was closed, so two rules of one text are each other's
under a renaming, and nothing that is said of a rule by names can differ (`Rule.alike_of_text_eq`):
its inputs, its roles, and the function that is generated for it.
-/

namespace Isaforge

open Source Legalizer
open Roles (Mentioned)

namespace Rule

/-- The names of the variables and instructions of the rule are words, and its types are valid, as
scalars are and what `ValueType.times` makes of them. -/
structure Worded (r : Rule) : Prop where
  vars : ∀ v ∈ r.roles.vars, Word v.name
  insts : ∀ d ∈ r.src.defs ++ r.dst.defs, ∀ h ∈ d.value.expr.heads, Word h.name
  types : ∀ d ∈ r.src.defs ++ r.dst.defs, ∀ h ∈ d.value.expr.heads, ∀ t ∈ h.types, t.Valid

/-- The rules are equal but for the identities of their variables, and give the same function. -/
structure Alike (r r' : Rule) : Prop where
  source : r.src.defs.map (·.rename Var.byName) = r'.src.defs.map (·.rename Var.byName)
  destination : r.dst.defs.map (·.rename Var.byName) = r'.dst.defs.map (·.rename Var.byName)
  inputs : r.inputs.map (·.name) = r'.inputs.map (·.name)
  roles : (r.roles.entries.map fun e => (e.1.name, e.2)) =
    r'.roles.entries.map fun e => (e.1.name, e.2)
  /-- What is written for a group of the rule alone. -/
  generated : ∀ (insts : InstructionGroup) (name doc : String) (p : Page),
    (p.emit (groupEmission insts ⟨name, doc, [r]⟩)).1 =
      (p.emit (groupEmission insts ⟨name, doc, [r']⟩)).1
  /-- Errors are the same too, but for the sites of rules that are refused. -/
  outcome : ∀ (insts : InstructionGroup) (name doc : String),
    groupEmission insts ⟨name, doc, [r]⟩ = groupEmission insts ⟨name, doc, [r']⟩ ∨
      ∃ reason, groupEmission insts ⟨name, doc, [r]⟩ = [.error (refusal r reason)] ∧
        groupEmission insts ⟨name, doc, [r']⟩ = [.error (refusal r' reason)]

variable {insts : InstructionGroup} {r r' t : Rule}

/-! ### Sound rules -/

/-- The definitions of a rule can be read when its names are words. -/
theorem Sound.spelled (h : r.Sound insts.catalog) (hwords : r.Worded) :
    ∀ d ∈ r.src.defs ++ r.dst.defs, d.Spelled insts := by
  intro d hd
  have hmentioned : ∀ v, v ∈ d.outputs ∨ d.Uses v → Word v.name :=
    fun v hv => hwords.vars v (mem_vars_of_mem h.roles_eq hd hv)
  refine ⟨fun v hv => hmentioned v (.inl hv), fun v hv => hmentioned v (.inr hv), ?_⟩
  intro k hk
  obtain ⟨a, ha, rfl⟩ := Expr.mem_heads_iff.mp hk
  obtain ⟨s, hs, hname, -, -⟩ := h.fits d hd a ha
  obtain ⟨i, hi, rfl⟩ := Option.map_eq_some_iff.mp hs
  exact ⟨hwords.insts d hd _ hk, hwords.types d hd _ hk, i, hi, hname.symm⟩

/-- The names tell the variables of a rule apart. -/
theorem Sound.injOn_byName {c : Catalog} (h : r.Sound c) :
    Set.InjOn Var.byName {v | Mentioned (r.src.defs ++ r.dst.defs) v} :=
  fun v hv w hw heq => h.names_distinct v w hv hw (Var.mk.inj heq).2

theorem Sound.renames_byName {c : Catalog} (h : r.Sound c)
    (hsource : t.src.defs = r.src.defs.map (·.rename Var.byName))
    (hdestination : t.dst.defs = r.dst.defs.map (·.rename Var.byName))
    (hroles : t.roles = r.roles.rename Var.byName) : r.Renames Var.byName t :=
  ⟨fun _ => rfl, h.injOn_byName, h.roles_eq, hsource, hdestination, hroles⟩

/-- The roles, by the names of the variables, are what the definitions say by names. -/
theorem Sound.roles_byName {c : Catalog} (h : r.Sound c) :
    r.roles.rename Var.byName = .classify (r.src.defs.map (·.rename Var.byName))
      (r.dst.defs.map (·.rename Var.byName)) := by
  rw [Roles.classify_rename h.injOn_byName, ← h.roles_eq]

/-- So are the inputs. -/
theorem Sound.inputs_byName {c : Catalog} (h : r.Sound c) :
    r.inputs.map Var.byName =
      distinct (Definition.openUses [] (r.src.defs.map (·.rename Var.byName))) := by
  have hinj := h.injOn_byName
  have houtputs : ∀ v ∈ Definition.outputsOf r.src.defs,
      v ∈ {v | Mentioned (r.src.defs ++ r.dst.defs) v} := by
    intro v hv
    obtain ⟨d, hd, hv⟩ := Definition.mem_outputsOf.mp hv
    exact ⟨d, List.mem_append_left _ hd, .inl hv⟩
  have huses : ∀ d ∈ r.src.defs, ∀ v ∈ d.uses,
      v ∈ {v | Mentioned (r.src.defs ++ r.dst.defs) v} := by
    intro d hd v hv
    exact ⟨d, List.mem_append_left _ hd, .inr (Definition.uses_iff_mem_uses.mpr hv)⟩
  have hopen : Set.InjOn Var.byName {v | v ∈ r.src.openUses} := by
    refine hinj.mono fun v hv => ?_
    obtain ⟨n, d, hd, hu, -⟩ := mem_openUses_iff.mp hv
    exact ⟨d, List.mem_append_left _ (List.mem_of_getElem? hd), .inr hu⟩
  obtain ⟨-, -, -, hinputs⟩ := checkInputs_eq_ok_iff.mp h.inputs_eq
  have hrename : Definition.openUses [] (r.src.defs.map (·.rename Var.byName)) =
      (Definition.openUses [] r.src.defs).map Var.byName :=
    Definition.openUses_rename hinj (List.forall_mem_nil _) houtputs huses
  rw [hrename, hinputs, ← distinct_map hopen]
  rfl

/-! ### Rules of one text -/

/-- The texts of rules are read pattern by pattern. -/
theorem patterns_of_text_eq (hinsts : insts.Reachable)
    (h : ∀ d ∈ r.src.defs ++ r.dst.defs, d.Spelled insts)
    (h' : ∀ d ∈ r'.src.defs ++ r'.dst.defs, d.Spelled insts) (htext : r.text = r'.text) :
    r.src.defs.map (·.rename Var.byName) = r'.src.defs.map (·.rename Var.byName) ∧
      r.dst.defs.map (·.rename Var.byName) = r'.dst.defs.map (·.rename Var.byName) := by
  have htoList : ∀ r : Rule, r.text.toList =
      r.src.text.toList ++ ' ' :: '=' :: '>' :: ' ' :: r.dst.text.toList := by
    intro r
    rw [text, String.toList_append, String.toList_append, List.append_assoc]
    rfl
  rw [List.forall_mem_append] at h h'
  have hlist := congrArg String.toList htext
  rw [htoList, htoList] at hlist
  obtain ⟨hsource, hrest⟩ := Pattern.legible hinsts h.1 h'.1 _ _
    (continues_cons.mpr (by decide)) (continues_cons.mpr (by decide)) hlist
  simp only [List.cons.injEq, true_and] at hrest
  have hdestination : r.dst.text.toList ++ [] = r'.dst.text.toList ++ [] := by rw [hrest]
  exact ⟨hsource, (Pattern.legible hinsts h.2 h'.2 [] [] (continues_nil _) (continues_nil _)
    hdestination).1⟩

/-- Rules that have a renaming in common give the same functions, or are refused alike. -/
theorem groupEmission_of_renames {f : Var → Var} (h : r.Renames f t) (h' : r'.Renames f t)
    (hsite : t.site = r.site) (insts : InstructionGroup) (name doc : String) :
    groupEmission insts ⟨name, doc, [r]⟩ = groupEmission insts ⟨name, doc, [r']⟩ ∨
      ∃ reason, groupEmission insts ⟨name, doc, [r]⟩ = [.error (refusal r reason)] ∧
        groupEmission insts ⟨name, doc, [r']⟩ = [.error (refusal r' reason)] := by
  have hrefusal : ∀ reason, refusal t reason = refusal r reason := by
    intro reason
    rw [refusal, hsite, refusal]
  have halone := groupEmission_renames h insts name doc [] []
  have halone' := groupEmission_renames h' insts name doc [] []
  rw [List.nil_append, List.nil_append] at halone halone'
  have hrule : groupEmission insts ⟨name, doc, [r]⟩ = groupEmission insts ⟨name, doc, [t]⟩ := by
    rcases halone with heq | ⟨reason, ht, hr⟩
    · exact heq.symm
    · rw [ht, hr, hrefusal]
  rcases halone' with heq | ⟨reason, ht, hr'⟩
  · exact .inl (hrule.trans heq)
  · exact .inr ⟨reason, by rw [hrule, ht, hrefusal], hr'⟩

/-- **Rules of one text are alike**, when they were closed over one group of instructions and their
names are words. -/
theorem alike_of_text_eq (hinsts : insts.Reachable) (hr : r.ClosedOver insts.catalog)
    (hr' : r'.ClosedOver insts.catalog) (hwords : r.Worded) (hwords' : r'.Worded)
    (htext : r.text = r'.text) : r.Alike r' := by
  obtain ⟨hsource, hdestination⟩ := patterns_of_text_eq hinsts (hr.sound.spelled hwords)
    (hr'.sound.spelled hwords') htext
  have hroles : r.roles.rename Var.byName = r'.roles.rename Var.byName := by
    rw [hr.sound.roles_byName, hsource, hdestination, ← hr'.sound.roles_byName]
  have hinputs : r.inputs.map Var.byName = r'.inputs.map Var.byName := by
    rw [hr.sound.inputs_byName, hsource, ← hr'.sound.inputs_byName]
  -- what both rules are by names
  let t : Rule := { r with
    src := ⟨r.src.side, r.src.defs.map (·.rename Var.byName)⟩
    dst := ⟨r.dst.side, r.dst.defs.map (·.rename Var.byName)⟩
    roles := r.roles.rename Var.byName }
  have houtcome := groupEmission_of_renames (hr.sound.renames_byName (t := t) rfl rfl rfl)
    (hr'.sound.renames_byName (t := t) hsource hdestination hroles) rfl
  refine ⟨hsource, hdestination, ?_, ?_, ?_, houtcome⟩
  · have hnames := congrArg (List.map Var.name) hinputs
    rwa [List.map_map, List.map_map] at hnames
  · have hentries := congrArg (fun roles => roles.entries.map fun e => (e.1.name, e.2)) hroles
    simp only [Roles.rename, List.map_map] at hentries
    exact hentries
  · intro insts name doc p
    rcases houtcome insts name doc with heq | ⟨reason, hgroup, hgroup'⟩
    · rw [heq]
    · rw [hgroup, hgroup', Page.emit_error, Page.emit_error]

/-- The rule `(a, c) << iadd_cout.i32(x, y) => (a, c) << iadd_cout(bnot(x), y)`, with variables of
the identities from `n` on. -/
def invertedCarry (site : String) (n : Nat) : Rule where
  site
  src := ⟨.source, [⟨[⟨n, "a"⟩, ⟨n + 1, "c"⟩],
    ⟨⟨⟨9⟩, "iadd_cout", [.scalar ⟨.int, 32⟩]⟩, [.var ⟨n + 2, "x"⟩, .var ⟨n + 3, "y"⟩]⟩⟩]⟩
  dst := ⟨.destination, [⟨[⟨n, "a"⟩, ⟨n + 1, "c"⟩], ⟨⟨⟨9⟩, "iadd_cout", []⟩,
    [.app ⟨⟨15⟩, "bnot", []⟩ [.var ⟨n + 2, "x"⟩], .var ⟨n + 3, "y"⟩]⟩⟩]⟩
  inputs := [⟨n + 2, "x"⟩, ⟨n + 3, "y"⟩]
  roles := ⟨[(⟨n, "a"⟩, .output), (⟨n + 1, "c"⟩, .output), (⟨n + 2, "x"⟩, .input),
    (⟨n + 3, "y"⟩, .input)]⟩

theorem invertedCarry_closedOver {site : String} {n : Nat}
    (h : close site (invertedCarry site n).src (invertedCarry site n).dst =
      .ok (invertedCarry site n)) : (invertedCarry site n).ClosedOver Shared.group.catalog := by
  have hvars : ∀ e ∈ [Expr.var ⟨n + 2, "x"⟩, .var ⟨n + 3, "y"⟩], e.Made Shared.group.catalog := by
    simp [Expr.Made.var]
  have hvar : ∀ e ∈ [Expr.var ⟨n + 2, "x"⟩], e.Made Shared.group.catalog := by
    simp [Expr.Made.var]
  have hinverse : (Expr.app ⟨⟨15⟩, "bnot", []⟩ [.var ⟨n + 2, "x"⟩]).Made Shared.group.catalog :=
    .unbound rfl rfl rfl hvar
  have hnested : ∀ e ∈ [.app ⟨⟨15⟩, "bnot", []⟩ [.var ⟨n + 2, "x"⟩], Expr.var ⟨n + 3, "y"⟩],
      e.Made Shared.group.catalog := by
    simp [Expr.Made.var, hinverse]
  have hmake : Application.make Shared.group.catalog (.unbound ⟨9⟩) [.scalar ⟨.int, 32⟩]
      [.var ⟨n + 2, "x"⟩, .var ⟨n + 3, "y"⟩] = .ok ⟨⟨⟨9⟩, "iadd_cout", [.scalar ⟨.int, 32⟩]⟩,
        [.var ⟨n + 2, "x"⟩, .var ⟨n + 3, "y"⟩]⟩ :=
    rfl
  have hnodup : [Var.mk n "a", ⟨n + 1, "c"⟩].Nodup := by simp
  refine ⟨site, _, _, ⟨?_, ?_, ?_⟩, ⟨?_, ?_, ?_⟩, h⟩
  · exact hnodup
  · simp [invertedCarry]
  · intro d hd
    cases List.mem_singleton.mp hd
    exact .app hvars hmake
  · exact hnodup
  · simp [invertedCarry]
  · intro d hd
    cases List.mem_singleton.mp hd
    exact .unbound rfl rfl rfl hnested

/-- Two declarations of the rule, with variables of their own. -/
theorem invertedCarry_alike :
    (invertedCarry "first" 0).text =
        "(a, c) << iadd_cout.i32(x, y) => (a, c) << iadd_cout(bnot(x), y)" ∧
      (invertedCarry "first" 0).Alike (invertedCarry "second" 4) := by
  have hgroup : Shared.group.Reachable := InstructionGroup.reachable_iff_nodup.mpr (by decide)
  have htext : (invertedCarry "first" 0).text = (invertedCarry "second" 4).text := rfl
  exact ⟨rfl, alike_of_text_eq hgroup (invertedCarry_closedOver rfl) (invertedCarry_closedOver rfl)
    ⟨by decide, by decide, by decide⟩ ⟨by decide, by decide, by decide⟩ htext⟩

end Rule

end Isaforge
