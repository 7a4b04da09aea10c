import Isaforge.Proofs.Appearance
import Mathlib.Data.Set.Card

/-!
# Classification — what the list of roles says

`Roles.Canonical src dst r` says without any traversal what the roles of the variables of two
sequences of definitions are: `r` lists the variables that the definitions mention and no others,
each once, in the order of first appearance; a role says which of the two sequences define its
variable; looking a variable up finds what is listed; and the counts are the numbers of variables
of each role.

**This determines the classification** (`canonical_iff_eq_classify`), for any definitions, whether
they make a rule or not.
-/

namespace Isaforge

/-- The number of variables of the role. -/
def RoleCounts.of (c : RoleCounts) : Role → Nat
  | .input => c.inputs
  | .output => c.outputs
  | .intermediate => c.intermediates
  | .temporary => c.temporaries

namespace Roles

/-- A definition of the sequence defines `v`. -/
def DefinedIn (defs : List Definition) (v : Var) : Prop :=
  ∃ d ∈ defs, v ∈ d.outputs

/-- The role says which of the two sequences define `v`. -/
def Describes (src dst : List Definition) (v : Var) : Role → Prop
  | .input => ¬ DefinedIn src v ∧ ¬ DefinedIn dst v
  | .output => DefinedIn src v ∧ DefinedIn dst v
  | .intermediate => DefinedIn src v ∧ ¬ DefinedIn dst v
  | .temporary => ¬ DefinedIn src v ∧ DefinedIn dst v

/-- The roles are those of the variables of the two sequences of definitions. -/
structure Canonical (src dst : List Definition) (r : Roles) : Prop where
  /-- The variables listed are those that occur as an output or in a value, at any depth. -/
  mem_iff : ∀ v, v ∈ r.vars ↔ Mentioned (src ++ dst) v
  /-- Each is listed once. -/
  nodup : r.vars.Nodup
  /-- So is each identity, when one identity has one name. -/
  ids_nodup : (∀ v w, Mentioned (src ++ dst) v → Mentioned (src ++ dst) w → v.id = w.id → v = w) →
    (r.vars.map (·.id)).Nodup
  /-- They are listed in the order of first appearance, the source before the destination. -/
  ordered : r.vars.Pairwise (AppearsBefore (src ++ dst))
  /-- The role listed with a variable is the one that describes it. -/
  describes : ∀ v role, (v, role) ∈ r.entries ↔ v ∈ r.vars ∧ Describes src dst v role
  /-- The role of a variable is the one listed, and a variable that is not listed has none. -/
  role?_eq_some_iff : ∀ v role, r.role? v = some role ↔ (v, role) ∈ r.entries
  isSome_role?_iff : ∀ v, (r.role? v).isSome ↔ v ∈ r.vars
  /-- The counts are the numbers of variables of each role. -/
  counts_of : ∀ role, r.counts.of role = {v | r.role? v = some role}.ncard
  counts_total : r.counts.total = r.size

variable {src dst : List Definition} {r : Roles} {v : Var} {role : Role}

/-! ### Roles -/

theorem describes_iff : Describes src dst v role ↔
    (v ∈ Definition.outputsOf src ↔ role.inSource) ∧
      (v ∈ Definition.outputsOf dst ↔ role.inDestination) := by
  rw [Definition.mem_outputsOf, Definition.mem_outputsOf]
  cases role <;> simp [Describes, DefinedIn, Role.inSource, Role.inDestination]

/-- Looking up a variable of a list without repetitions finds its entry. -/
theorem role?_eq_some_iff_of_nodup (h : r.vars.Nodup) :
    r.role? v = some role ↔ (v, role) ∈ r.entries := by
  obtain ⟨entries⟩ := r
  rw [role?]
  induction entries with
  | nil => simp
  | cons e es ih =>
      obtain ⟨w, role'⟩ := e
      obtain ⟨hnot, hnodup⟩ := List.nodup_cons.mp h
      rw [List.lookup_cons, List.mem_cons]
      by_cases hvw : v = w
      · subst hvw
        have hno : (v, role) ∉ es := fun hmem => hnot (List.mem_map.mpr ⟨(v, role), hmem, rfl⟩)
        simp [hno, eq_comm]
      · rw [beq_false_of_ne hvw]
        simp only [Prod.mk.injEq, hvw, false_and, false_or]
        exact ih hnodup

theorem isSome_role?_iff_of_nodup (h : r.vars.Nodup) : (r.role? v).isSome ↔ v ∈ r.vars := by
  rw [Option.isSome_iff_exists, vars, List.mem_map]
  constructor
  · rintro ⟨role, hrole⟩
    exact ⟨(v, role), (role?_eq_some_iff_of_nodup h).mp hrole, rfl⟩
  · rintro ⟨⟨w, role⟩, he, rfl⟩
    exact ⟨role, (role?_eq_some_iff_of_nodup h).mpr he⟩

/-! ### Counts -/

theorem counts_of_eq (r : Roles) (role : Role) :
    r.counts.of role = (r.entries.filter (·.2 = role)).length := by
  cases role <;> simp [counts, count, RoleCounts.of, List.countP_eq_length_filter]

/-- The variables of a role are as many as the entries with it. -/
theorem ncard_role (h : r.vars.Nodup) (role : Role) :
    {v | r.role? v = some role}.ncard = (r.entries.filter (·.2 = role)).length := by
  have hnodup : ((r.entries.filter (·.2 = role)).map (·.1)).Nodup :=
    h.sublist (List.filter_sublist.map _)
  have hset : {v | r.role? v = some role} =
      ↑((r.entries.filter (·.2 = role)).map (·.1)).toFinset := by
    ext v
    simp [role?_eq_some_iff_of_nodup h]
  rw [hset, Set.ncard_coe_finset, List.toFinset_card_of_nodup hnodup, List.length_map]

/-- Each entry is counted once. -/
theorem total_counts (r : Roles) : r.counts.total = r.size := by
  obtain ⟨entries⟩ := r
  induction entries with
  | nil => rfl
  | cons e es ih =>
      obtain ⟨v, role⟩ := e
      simp only [counts, count, RoleCounts.total, size, List.countP_cons, List.length_cons] at ih ⊢
      cases role <;> simp <;> omega

/-! ### The classification -/

theorem mem_entries_classify_iff :
    (v, role) ∈ (classify src dst).entries ↔
      v ∈ (classify src dst).vars ∧ Describes src dst v role := by
  rw [← role?_eq_some_iff_of_nodup (nodup_vars_classify src dst), role?_classify_eq_some_iff,
    mem_vars_classify, describes_iff]

theorem classify_canonical (src dst : List Definition) :
    Canonical src dst (classify src dst) where
  mem_iff _ := mem_vars_classify
  nodup := nodup_vars_classify src dst
  ids_nodup hids := by
    refine (List.nodup_map_iff_inj_on (nodup_vars_classify src dst)).mpr ?_
    intro v hv w hw
    exact hids v w (mem_vars_classify.mp hv) (mem_vars_classify.mp hw)
  ordered := by
    rw [vars_classify]
    exact pairwise_appearsBefore (src ++ dst)
  describes _ _ := mem_entries_classify_iff
  role?_eq_some_iff _ _ := role?_eq_some_iff_of_nodup (nodup_vars_classify src dst)
  isSome_role?_iff _ := isSome_role?_iff_of_nodup (nodup_vars_classify src dst)
  counts_of role := by rw [counts_of_eq, ncard_role (nodup_vars_classify src dst)]
  counts_total := total_counts _

/-- Canonical roles list the same variables in the same order. -/
theorem Canonical.vars_eq {r' : Roles} (h : Canonical src dst r) (h' : Canonical src dst r') :
    r.vars = r'.vars := by
  have hperm : r.vars.Perm r'.vars :=
    (List.perm_ext_iff_of_nodup h.nodup h'.nodup).mpr fun v =>
      (h.mem_iff v).trans (h'.mem_iff v).symm
  refine List.Perm.eq_of_pairwise ?_ h.ordered h'.ordered hperm
  -- No two variables appear each before the other.
  intro v w _ _ hvw hwv
  exact absurd hwv hvw.asymm

/-- The entries are the variables, each with the role it has. -/
theorem Canonical.entries_eq (h : Canonical src dst r) :
    r.entries.map some = r.vars.map fun v => (r.role? v).map (v, ·) := by
  rw [vars, List.map_map]
  refine List.map_congr_left ?_
  rintro ⟨v, role⟩ he
  have hrole : r.role? v = some role := (h.role?_eq_some_iff v role).mpr he
  simp [hrole]

theorem Canonical.role?_eq {r' : Roles} (h : Canonical src dst r) (h' : Canonical src dst r')
    (v : Var) : r.role? v = r'.role? v := by
  refine Option.ext fun role => ?_
  rw [h.role?_eq_some_iff, h'.role?_eq_some_iff, h.describes, h'.describes, h.mem_iff, h'.mem_iff]

/-- **The classification is the canonical one.**  For any two sequences of definitions, the roles
that say of each variable mentioned, once and in the order of first appearance, which of the
sequences define it, are those of the classification. -/
theorem canonical_iff_eq_classify (src dst : List Definition) (r : Roles) :
    Canonical src dst r ↔ r = classify src dst := by
  constructor
  · intro h
    have h' : Canonical src dst (classify src dst) := classify_canonical src dst
    have hentries : r.entries.map some = (classify src dst).entries.map some := by
      rw [h.entries_eq, h'.entries_eq, h.vars_eq h']
      exact List.map_congr_left fun v _ => by rw [h.role?_eq h' v]
    have hsome : Function.Injective (some : Var × Role → Option (Var × Role)) :=
      Option.some_injective _
    exact congrArg Roles.mk (List.map_injective_iff.mpr hsome hentries)
  · rintro rfl
    exact classify_canonical src dst

end Roles

end Isaforge
