import Isaforge.Rule
import Isaforge.Proofs.Occurrence

/-!
# Well-scoped rules

`Rule.close` decides by the open uses of each pattern, the variables used there that no definition
before defines: it looks among them for one that either pattern defines, and among those of the
destination for one that is not an open use of the source.  `Rule.WellScoped` says without open uses
and without any order of checking which patterns make a rule:

* the source has a definition;
* a variable used in the source is defined by a preceding definition of the source, or by no
  definition of either pattern;
* a variable used in the destination is defined by a preceding definition of the destination, or
  it is used in the source and defined by no definition of either pattern;
* variables of one name are equal.

**Acceptance is well-scopedness** (`close_accepts_iff_wellScoped`).  Each check has its own
characterisation, by the uses that no preceding definition covers (`checkInputs_eq_ok_iff`) and by
the variables mentioned anywhere (`checkNames_eq_ok_iff`); the order of the two loops is only in
`Definition.mem_openUses_iff`.
-/

namespace Isaforge.Rule

open Definition (DefinedBefore)
open Roles (Mentioned)

variable {site : String} {src dst : Pattern}

/-- No definition of either pattern defines `v`. -/
def Undefined (src dst : Pattern) (v : Var) : Prop :=
  ∀ d ∈ src.defs ++ dst.defs, v ∉ d.outputs

/-- Variables of one name that the patterns mention are equal. -/
def NamesDistinct (src dst : Pattern) : Prop :=
  ∀ v w, Mentioned (src.defs ++ dst.defs) v → Mentioned (src.defs ++ dst.defs) w →
    v.name = w.name → v = w

/-- The patterns make a rule. -/
structure WellScoped (src dst : Pattern) : Prop where
  nonempty : src.defs ≠ []
  source : ∀ n d v, src.defs[n]? = some d → d.Uses v →
    DefinedBefore src.defs n v ∨ Undefined src dst v
  destination : ∀ n d v, dst.defs[n]? = some d → d.Uses v →
    DefinedBefore dst.defs n v ∨ (∃ d' ∈ src.defs, d'.Uses v) ∧ Undefined src dst v
  names : NamesDistinct src dst

/-! ### The two checks -/

theorem undefined_iff {v : Var} : Undefined src dst v ↔ v ∉ src.outputs ∧ v ∉ dst.outputs := by
  simp only [Undefined, Pattern.outputs, Definition.mem_outputsOf, List.mem_append, not_exists,
    not_and]
  constructor
  · intro h
    exact ⟨fun d hd => h d (.inl hd), fun d hd => h d (.inr hd)⟩
  · rintro ⟨hs, hd⟩ d (h | h)
    · exact hs d h
    · exact hd d h

/-- The inputs are found when the source has a definition, no open use of it is defined
anywhere, and the destination has no other open uses. -/
theorem checkInputs_eq_ok_iff {inputs : List Var} :
    checkInputs src dst = .ok inputs ↔
      src.defs ≠ [] ∧ (∀ v ∈ src.openUses, Undefined src dst v) ∧
        (∀ v ∈ dst.openUses, v ∈ src.openUses) ∧ inputs = distinct src.openUses := by
  have hforeign : dst.openUses.filter (· ∉ distinct src.openUses) = [] ↔
      ∀ v ∈ dst.openUses, v ∈ src.openUses := by
    simp [List.filter_eq_nil_iff]
  have hfind : ∀ vs : List Var,
      vs.find? (fun v => src.defines v || dst.defines v) = none ↔
        ∀ v ∈ vs, Undefined src dst v := by
    intro vs
    simp [List.find?_eq_none, undefined_iff, Pattern.defines]
  rw [checkInputs]
  by_cases hempty : src.defs = []
  · simp [Pattern.isEmpty, hempty]
  · rw [if_neg (by simpa [Pattern.isEmpty] using hempty)]
    split
    · rename_i v hv
      refine ⟨fun h => (nomatch h), fun ⟨_, hsrc, hdst, _⟩ => ?_⟩
      rw [hforeign.mpr hdst, List.append_nil, (hfind _).mpr hsrc] at hv
      cases hv
    · rename_i hnone
      rw [hfind] at hnone
      have hsrc : ∀ v ∈ src.openUses, Undefined src dst v :=
        fun v hv => hnone v (List.mem_append_left _ hv)
      split
      · rename_i hnil
        rw [List.isEmpty_iff, hforeign] at hnil
        constructor
        · intro h
          cases h
          exact ⟨hempty, hsrc, hnil, rfl⟩
        · rintro ⟨-, -, -, rfl⟩
          rfl
      · rename_i hnil
        rw [List.isEmpty_iff, hforeign] at hnil
        exact ⟨fun h => (nomatch h), fun h => absurd h.2.2.1 hnil⟩

/-- The names are accepted when variables of one name are equal. -/
theorem checkNames_eq_ok_iff :
    checkNames (.classify src.defs dst.defs) = .ok () ↔ NamesDistinct src dst := by
  have hnames : firstRepeat? [] ((Roles.classify src.defs dst.defs).vars.map (·.name)) = none ↔
      NamesDistinct src dst := by
    rw [firstRepeat?_eq_none_iff, List.nodup_map_iff_inj_on (Roles.nodup_vars_classify _ _)]
    simp only [Roles.mem_vars_classify, NamesDistinct, List.not_mem_nil, not_false_eq_true,
      implies_true, and_true]
    exact ⟨fun h v w hv hw => h v hv w hw, fun h v hv w hw => h v w hv hw⟩
  rw [← hnames, checkNames]
  split
  · rename_i name hname
    simp [hname]
  · rename_i hname
    simp [hname]

/-- What a closed rule is made of. -/
theorem close_eq_ok_iff {r : Rule} :
    close site src dst = .ok r ↔
      ∃ inputs, checkInputs src dst = .ok inputs ∧ NamesDistinct src dst ∧
        r = ⟨site, src, dst, inputs, .classify src.defs dst.defs⟩ := by
  rw [← checkNames_eq_ok_iff, close]
  cases hinputs : checkInputs src dst with
  | error cause => simp [bind, Except.bind, Except.mapError]
  | ok inputs =>
      cases hnames : checkNames (.classify src.defs dst.defs) with
      | error cause => simp [bind, Except.bind, Except.mapError, hnames]
      | ok _ =>
          simp only [bind, Except.bind, Except.mapError, hnames, pure, Except.pure,
            Except.ok.injEq, true_and, exists_eq_left', eq_comm]

/-! ### Acceptance -/

theorem mem_openUses_iff {p : Pattern} {v : Var} :
    v ∈ p.openUses ↔
      ∃ n d, p.defs[n]? = some d ∧ d.Uses v ∧ ¬ DefinedBefore p.defs n v := by
  simp [Pattern.openUses, Definition.mem_openUses_iff]

/-- A use that nothing defines is an open use. -/
theorem mem_openUses_of_undefined {v : Var} {d : Definition} (hd : d ∈ src.defs) (hu : d.Uses v)
    (hv : Undefined src dst v) : v ∈ src.openUses := by
  obtain ⟨n, hn⟩ := List.getElem?_of_mem hd
  refine mem_openUses_iff.mpr ⟨n, d, hn, hu, ?_⟩
  intro hb
  exact (undefined_iff.mp hv).1 (Definition.mem_outputsOf_of_definedBefore hb)

/-- Well-scopedness, by open uses. -/
theorem wellScoped_iff_openUses :
    WellScoped src dst ↔
      src.defs ≠ [] ∧ (∀ v ∈ src.openUses, Undefined src dst v) ∧
        (∀ v ∈ dst.openUses, v ∈ src.openUses) ∧ NamesDistinct src dst := by
  constructor
  · intro h
    refine ⟨h.nonempty, ?_, ?_, h.names⟩
    · intro v hv
      obtain ⟨n, d, hd, hu, hb⟩ := mem_openUses_iff.mp hv
      exact (h.source n d v hd hu).resolve_left hb
    · intro v hv
      obtain ⟨n, d, hd, hu, hb⟩ := mem_openUses_iff.mp hv
      obtain ⟨⟨d', hd', hu'⟩, hv'⟩ := (h.destination n d v hd hu).resolve_left hb
      exact mem_openUses_of_undefined hd' hu' hv'
  · rintro ⟨hne, hsrc, hdst, hnames⟩
    refine ⟨hne, ?_, ?_, hnames⟩
    · intro n d v hd hu
      by_cases hb : DefinedBefore src.defs n v
      · exact .inl hb
      · exact .inr (hsrc v (mem_openUses_iff.mpr ⟨n, d, hd, hu, hb⟩))
    · intro n d v hd hu
      by_cases hb : DefinedBefore dst.defs n v
      · exact .inl hb
      · have hv : v ∈ src.openUses := hdst v (mem_openUses_iff.mpr ⟨n, d, hd, hu, hb⟩)
        obtain ⟨m, d', hd', hu', -⟩ := mem_openUses_iff.mp hv
        exact .inr ⟨⟨d', List.mem_of_getElem? hd', hu'⟩, hsrc v hv⟩

/-- The patterns of a closed rule are well-scoped. -/
theorem wellScoped_of_close {r : Rule} (h : close site src dst = .ok r) : WellScoped src dst := by
  obtain ⟨inputs, hinputs, hnames, -⟩ := close_eq_ok_iff.mp h
  obtain ⟨hne, hsrc, hdst, -⟩ := checkInputs_eq_ok_iff.mp hinputs
  exact wellScoped_iff_openUses.mpr ⟨hne, hsrc, hdst, hnames⟩

/-- **Acceptance is well-scopedness.**  Two patterns are closed to a rule exactly when they are
well-scoped. -/
theorem close_accepts_iff_wellScoped (site : String) (src dst : Pattern) :
    (∃ r, close site src dst = .ok r) ↔ WellScoped src dst := by
  constructor
  · rintro ⟨r, h⟩
    exact wellScoped_of_close h
  · intro h
    obtain ⟨hne, hsrc, hdst, hnames⟩ := wellScoped_iff_openUses.mp h
    have hinputs : checkInputs src dst = .ok (distinct src.openUses) :=
      checkInputs_eq_ok_iff.mpr ⟨hne, hsrc, hdst, rfl⟩
    exact ⟨_, close_eq_ok_iff.mpr ⟨_, hinputs, hnames, rfl⟩⟩

end Isaforge.Rule
