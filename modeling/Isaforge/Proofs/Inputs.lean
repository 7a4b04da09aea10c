import Isaforge.Proofs.Classification
import Isaforge.Proofs.WellScoped

/-!
# Inputs — what the check of a rule and the roles of its variables have in common

The inputs of a rule are found twice.  `Rule.checkInputs` goes through the uses of each pattern that
no preceding definition covers; `Roles.classify` goes through all variables, outputs before uses,
and looks at where each is defined.

* `Definition.filter_appearances`: the variables that appear and are defined nowhere are the open
  uses, when no open use is defined anywhere.
* `Rule.roles_agree`: **the two agree** for every closed rule, in the variables and in their order,
  and the roles say where in the source a variable is found.
-/

namespace Isaforge

open Roles (DefinedIn Mentioned)

/-- The variables of the role, in the order in which they are listed. -/
def Roles.varsOf (r : Roles) (role : Role) : List Var :=
  (r.entries.filter (·.2 = role)).map (·.1)

theorem Roles.varsOf_classify (src dst : List Definition) (role : Role) :
    (classify src dst).varsOf role = distinct ((appearances (src ++ dst)).filter fun v =>
      Role.ofDefined (v ∈ Definition.outputsOf src) (v ∈ Definition.outputsOf dst) = role) := by
  rw [varsOf, classify, List.filter_map, List.map_map, distinct_filter]
  exact List.map_id _

/-- Where `q` holds of no output and of all open uses, it picks the open uses of what appears. -/
theorem Definition.filter_appearances {q : Var → Bool} {earlier : List Var} {ds : List Definition}
    (hout : ∀ v ∈ earlier ++ outputsOf ds, q v = false)
    (hopen : ∀ v ∈ openUses earlier ds, q v = true) :
    (Roles.appearances ds).filter q = openUses earlier ds := by
  induction ds generalizing earlier with
  | nil => rfl
  | cons d ds ih =>
      rw [outputsOf_cons, ← List.append_assoc] at hout
      rw [openUses] at hopen ⊢
      have hearlier : ∀ v ∈ earlier ++ d.outputs, q v = false :=
        fun v hv => hout v (List.mem_append_left _ hv)
      have houtputs : d.outputs.filter q = [] := by
        rw [List.filter_eq_nil_iff]
        intro v hv
        rw [hearlier v (List.mem_append_right _ hv)]
        exact Bool.false_ne_true
      have huses : d.uses.filter q = d.uses.filter (· ∉ earlier) := by
        refine List.filter_congr fun v hv => ?_
        by_cases he : v ∈ earlier
        · simp [he, hearlier v (List.mem_append_left _ he)]
        · have hmem : v ∈ d.uses.filter (· ∉ earlier) :=
            List.mem_filter.mpr ⟨hv, decide_eq_true he⟩
          simp [he, hopen v (List.mem_append_left _ hmem)]
      rw [Roles.appearances, List.flatMap_cons, List.filter_append, List.filter_append, houtputs,
        huses, List.nil_append]
      exact congrArg _ (ih hout fun v hv => hopen v (List.mem_append_right _ hv))

namespace Rule

variable {site : String} {src dst : Pattern} {r : Rule}

/-- The roles of a rule's variables agree with its inputs and with its source. -/
structure RolesAgree (r : Rule) : Prop where
  /-- The inputs are the variables that have the role of an input, in the order of the roles. -/
  inputs_eq : r.inputs = r.roles.varsOf .input
  /-- An input is used in the source. -/
  input_used : ∀ v ∈ r.inputs, ∃ d ∈ r.src.defs, d.Uses v
  /-- The source defines the intermediate variables and the outputs. -/
  defined_in_source : ∀ v, r.role? v = some .intermediate ∨ r.role? v = some .output →
    DefinedIn r.src.defs v
  /-- The source does not mention temporaries. -/
  temporary_not_mentioned : ∀ v, r.role? v = some .temporary → ¬ Mentioned r.src.defs v

/-- The open uses of the patterns are the appearances of the variables that neither defines. -/
theorem filter_appearances_eq_openUses {inputs : List Var}
    (h : checkInputs src dst = .ok inputs) :
    ((Roles.appearances (src.defs ++ dst.defs)).filter fun v =>
        Role.ofDefined (v ∈ src.outputs) (v ∈ dst.outputs) = .input) =
      src.openUses ++ dst.openUses := by
  obtain ⟨-, hsrc, hdst, -⟩ := checkInputs_eq_ok_iff.mp h
  have hrole : ∀ v, Role.ofDefined (v ∈ src.outputs) (v ∈ dst.outputs) = .input ↔
      Undefined src dst v := by
    intro v
    rw [undefined_iff, Role.ofDefined_eq_iff]
    simp [Role.inSource, Role.inDestination]
  have hdefined : ∀ v, v ∈ src.outputs ∨ v ∈ dst.outputs →
      decide (Role.ofDefined (v ∈ src.outputs) (v ∈ dst.outputs) = .input) = false := by
    intro v hv
    rw [decide_eq_false_iff_not, hrole, undefined_iff]
    tauto
  have happend : Roles.appearances (src.defs ++ dst.defs) =
      Roles.appearances src.defs ++ Roles.appearances dst.defs := List.flatMap_append
  rw [happend, List.filter_append]
  refine congrArg₂ (· ++ ·) (Definition.filter_appearances ?_ ?_)
    (Definition.filter_appearances ?_ ?_)
  · exact fun v hv => hdefined v (.inl hv)
  · exact fun v hv => decide_eq_true ((hrole v).mpr (hsrc v hv))
  · exact fun v hv => hdefined v (.inr hv)
  · exact fun v hv => decide_eq_true ((hrole v).mpr (hsrc v (hdst v hv)))

/-- Both traversals find the same inputs. -/
theorem inputs_eq_varsOf {inputs : List Var} (h : checkInputs src dst = .ok inputs) :
    inputs = (Roles.classify src.defs dst.defs).varsOf .input := by
  have hfilter := filter_appearances_eq_openUses h
  obtain ⟨-, -, hdst, rfl⟩ := checkInputs_eq_ok_iff.mp h
  have hnone : (distinct dst.openUses).filter (· ∉ src.openUses) = [] := by
    rw [List.filter_eq_nil_iff]
    intro v hv
    simpa using hdst v (mem_distinct.mp hv)
  calc distinct src.openUses
      = distinct (src.openUses ++ dst.openUses) := by
        rw [distinct_append, hnone, List.append_nil]
    _ = (Roles.classify src.defs dst.defs).varsOf .input := by
        rw [Roles.varsOf_classify, ← hfilter]
        rfl

/-- **Inputs and roles agree** for every rule that is closed. -/
theorem roles_agree (h : close site src dst = .ok r) : r.RolesAgree := by
  have hscope := wellScoped_of_close h
  obtain ⟨inputs, hinputs, -, rfl⟩ := close_eq_ok_iff.mp h
  obtain ⟨-, hsrc, -, hdistinct⟩ := checkInputs_eq_ok_iff.mp hinputs
  refine ⟨inputs_eq_varsOf hinputs, ?_, ?_, ?_⟩
  · intro v hv
    rw [hdistinct, mem_distinct] at hv
    obtain ⟨n, d, hd, hu, -⟩ := mem_openUses_iff.mp hv
    exact ⟨d, List.mem_of_getElem? hd, hu⟩
  · intro v hrole
    refine Definition.mem_outputsOf.mp ?_
    rcases hrole with hrole | hrole
    · exact (Roles.role?_classify_eq_some_iff.mp hrole).2.1.mpr rfl
    · exact (Roles.role?_classify_eq_some_iff.mp hrole).2.1.mpr rfl
  · intro v hrole
    obtain ⟨-, hs, hd⟩ := Roles.role?_classify_eq_some_iff.mp hrole
    have hout : v ∉ src.outputs := fun hv => Bool.false_ne_true (hs.mp hv)
    rintro ⟨d, hmem, hv | hu⟩
    · exact hout (Definition.mem_outputsOf.mpr ⟨d, hmem, hv⟩)
    · -- a use in the source of a variable that the destination defines is no open use
      obtain ⟨n, hn⟩ := List.getElem?_of_mem hmem
      rcases hscope.source n d v hn hu with hbefore | hundefined
      · exact hout (Definition.mem_outputsOf_of_definedBefore hbefore)
      · exact (undefined_iff.mp hundefined).2 (hd.mpr rfl)

/-- The rule `a << iadd(x, y); b << bnot(a) => t << bnot(x); b << isub(t, y)`, with variables of all
roles. -/
def invertedSum : Rule :=
  let x : Var := ⟨0, "x"⟩
  let y : Var := ⟨1, "y"⟩
  let a : Var := ⟨2, "a"⟩
  let b : Var := ⟨3, "b"⟩
  let t : Var := ⟨4, "t"⟩
  { site := "inverted sum"
    src := ⟨.source,
      [⟨[a], ⟨⟨3⟩, "iadd", []⟩, [.var x, .var y]⟩, ⟨[b], ⟨⟨15⟩, "bnot", []⟩, [.var a]⟩]⟩
    dst := ⟨.destination,
      [⟨[t], ⟨⟨15⟩, "bnot", []⟩, [.var x]⟩, ⟨[b], ⟨⟨4⟩, "isub", []⟩, [.var t, .var y]⟩]⟩
    inputs := [x, y]
    roles := ⟨[(a, .intermediate), (x, .input), (y, .input), (b, .output), (t, .temporary)]⟩ }

theorem invertedSum_roles_agree :
    close "inverted sum" invertedSum.src invertedSum.dst = .ok invertedSum ∧
      invertedSum.RolesAgree :=
  have hclose : close "inverted sum" invertedSum.src invertedSum.dst = .ok invertedSum := rfl
  ⟨hclose, roles_agree hclose⟩

end Rule

end Isaforge
