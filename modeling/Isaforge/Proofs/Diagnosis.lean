import Isaforge.Proofs.Appearance
import Isaforge.Proofs.WellScoped

/-!
# Diagnosis — the fault that a rejected rule is reported with

Two patterns can have several faults at once.  `Rule.Diagnosis src dst cause` says which of them is
the cause reported, by what there is in the patterns and without any order of checking:

* The source has no definition.
* Otherwise, something is used as an input that a definition of either pattern defines: no
  preceding definition of its own pattern does (`Rule.Clash`).  Of all such uses, the first one is
  named, where those of the source come before those of the destination.
* Otherwise, the destination uses variables that neither pattern defines and the source does not
  use (`Rule.IsExtra`).  They are listed in the order of their first uses.
* Otherwise, a variable has the name of another.  The first one whose name an earlier one has is
  named.

**Rejection is diagnosed** (`close_eq_error_iff`): two patterns are rejected with exactly the
diagnosis they have.  The uses that no preceding definition covers are looked through in the order
of their places (`Definition.openPlaces`), so what the search finds is the first clash.
-/

namespace Isaforge

open Roles (Mentioned AppearsBefore)

/-! ### The places of open uses -/

namespace Definition

/-- The uses that neither `earlier` nor a preceding definition covers, with their places, where the
definitions are those from number `n` on. -/
def openPlaces (n : Nat) (earlier : List Var) : List Definition → List (Place × Var)
  | [] => []
  | d :: ds =>
    ((d.value.expr.leaves.filter (·.2 ∉ earlier)).map fun l => (.value n l.1, l.2)) ++
      openPlaces (n + 1) (earlier ++ d.outputs) ds

variable {n : Nat} {earlier : List Var} {ds : List Definition} {p : Place} {v : Var}

theorem map_snd_openPlaces (n : Nat) (earlier : List Var) (ds : List Definition) :
    (openPlaces n earlier ds).map (·.2) = openUses earlier ds := by
  induction ds generalizing n earlier with
  | nil => rfl
  | cons d ds ih =>
      have huses : (d.value.expr.leaves.filter (·.2 ∉ earlier)).map (·.2) =
          d.uses.filter (· ∉ earlier) := by
        rw [uses, Application.vars, ← Expr.map_snd_leaves, List.filter_map]
        rfl
      rw [openPlaces, openUses, List.map_append, List.map_map, ih, ← huses]
      rfl

theorem mem_openPlaces_iff :
    (p, v) ∈ openPlaces n earlier ds ↔
      ∃ k path, p = .value (n + k) path ∧ (Place.value k path).var? ds = some v ∧ v ∉ earlier ∧
        ¬ DefinedBefore ds k v := by
  induction ds generalizing n earlier with
  | nil => simp [openPlaces, Place.var?]
  | cons d ds ih =>
      rw [openPlaces, List.mem_append, List.mem_map, ih]
      constructor
      · rintro (⟨⟨path, w⟩, hl, heq⟩ | ⟨k, path, rfl, hvar, hout, hbefore⟩)
        · obtain ⟨rfl, rfl⟩ := Prod.mk.inj heq
          obtain ⟨hleaf, hout⟩ := List.mem_filter.mp hl
          exact ⟨0, path, rfl, Expr.mem_leaves_iff.mp hleaf, of_decide_eq_true hout,
            not_definedBefore_zero⟩
        · rw [List.mem_append, not_or] at hout
          refine ⟨k + 1, path, by rw [Nat.add_right_comm, Nat.add_assoc], hvar, hout.1, ?_⟩
          rw [definedBefore_cons_succ, not_or]
          exact ⟨hout.2, hbefore⟩
      · rintro ⟨k, path, rfl, hvar, hout, hbefore⟩
        cases k with
        | zero =>
            refine .inl ⟨(path, v), List.mem_filter.mpr ⟨?_, decide_eq_true hout⟩, rfl⟩
            exact Expr.mem_leaves_iff.mpr hvar
        | succ k =>
            rw [definedBefore_cons_succ, not_or] at hbefore
            refine .inr ⟨k, path, by rw [Nat.add_right_comm, Nat.add_assoc], hvar, ?_, hbefore.2⟩
            rw [List.mem_append, not_or]
            exact ⟨hout, hbefore.1⟩

/-- Open uses are listed in the order of their places. -/
theorem pairwise_openPlaces (n : Nat) (earlier : List Var) (ds : List Definition) :
    (openPlaces n earlier ds).Pairwise fun a b => a.1.Before b.1 := by
  induction ds generalizing n earlier with
  | nil => exact List.Pairwise.nil
  | cons d ds ih =>
      rw [openPlaces, List.pairwise_append, List.pairwise_map]
      refine ⟨?_, ih _ _, ?_⟩
      · refine ((Expr.pairwise_leaves d.value.expr).filter _).imp ?_
        intro a b h
        simp [Place.Before, Place.key, h]
      · rintro a ha ⟨q, w⟩ hb
        obtain ⟨l, -, rfl⟩ := List.mem_map.mp ha
        obtain ⟨k, path, rfl, -⟩ := mem_openPlaces_iff.mp hb
        exact List.cons_lt_cons_iff.mpr (.inl (by omega))

end Definition

namespace Rule

open Definition (DefinedBefore openPlaces)

variable {site : String} {src dst : Pattern} {p q : Place} {v w : Var} {cause cause' : Error}

/-! ### Faults -/

/-- The use of `v` at the place has no preceding definition in its pattern, and yet a definition of
either pattern defines `v`.  Places of the destination are numbered behind those of the source.
Inputs of the rule are defined nowhere, so no use of an input is a clash. -/
inductive Clash (src dst : Pattern) : Place → Var → Prop where
  | source {n : Nat} {path : List Nat} {v : Var} :
      (Place.value n path).var? src.defs = some v → ¬ DefinedBefore src.defs n v →
      ¬ Undefined src dst v → Clash src dst (.value n path) v
  | destination {n : Nat} {path : List Nat} {v : Var} :
      (Place.value n path).var? dst.defs = some v → ¬ DefinedBefore dst.defs n v →
      ¬ Undefined src dst v → Clash src dst (.value (src.defs.length + n) path) v

/-- No other clash is read before this one. -/
def FirstClash (src dst : Pattern) (p : Place) (v : Var) : Prop :=
  Clash src dst p v ∧ ∀ q w, Clash src dst q w → q = p ∨ p.Before q

/-- `v` occurs in the destination, but nowhere in the source, and nothing defines it. -/
def IsExtra (src dst : Pattern) (v : Var) : Prop :=
  Mentioned dst.defs v ∧ ¬ Mentioned src.defs v ∧ Undefined src dst v

/-- The variables that occur in the destination only and are not defined, each once, in the order in
which the destination first uses them. -/
structure ListsExtras (src dst : Pattern) (vs : List Var) : Prop where
  mem_iff : ∀ v, v ∈ vs ↔ IsExtra src dst v
  nodup : vs.Nodup
  ordered : vs.Pairwise (AppearsBefore dst.defs)

/-- `v` is the first of the variables whose name an earlier one has. -/
def FirstNamesake (vars : List Var) (v : Var) : Prop :=
  ∃ before after, vars = before ++ v :: after ∧ (before.map (·.name)).Nodup ∧
    ∃ w ∈ before, w.name = v.name

/-- The cause that two patterns are rejected for. -/
structure Diagnosis (src dst : Pattern) (cause : Error) : Prop where
  empty_iff : cause = .emptyPattern .source ↔ src.defs = []
  clash_iff : src.defs ≠ [] → ((∃ name, cause = .inputDefined name) ↔ ∃ p v, Clash src dst p v)
  clash_first : ∀ name, cause = .inputDefined name → ∃ p v, FirstClash src dst p v ∧ v.name = name
  extra_iff : src.defs ≠ [] → (∀ p v, ¬ Clash src dst p v) →
    ((∃ names, cause = .extraInputs names) ↔ ∃ v, IsExtra src dst v)
  extra_listed : ∀ names, cause = .extraInputs names →
    ∃ vs, ListsExtras src dst vs ∧ ", ".intercalate (vs.map (·.name)) = names
  namesake : src.defs ≠ [] → (∀ p v, ¬ Clash src dst p v) → (∀ v, ¬ IsExtra src dst v) →
    ∃ v, FirstNamesake (Roles.classify src.defs dst.defs).vars v ∧ cause = .ambiguousName v.name

/-! ### Clashes -/

/-- The open uses of the two patterns, with their places. -/
def openPlacesOf (src dst : Pattern) : List (Place × Var) :=
  openPlaces 0 [] src.defs ++ openPlaces src.defs.length [] dst.defs

/-- The first open use of a variable that a definition defines. -/
def firstClash? (src dst : Pattern) : Option (Place × Var) :=
  (openPlacesOf src dst).find? fun a => src.defines a.2 || dst.defines a.2

theorem defines_iff : (src.defines v || dst.defines v) = true ↔ ¬ Undefined src dst v := by
  rw [undefined_iff, Bool.or_eq_true, Pattern.defines, Pattern.defines, decide_eq_true_iff,
    decide_eq_true_iff]
  tauto

theorem map_snd_openPlacesOf :
    (openPlacesOf src dst).map (·.2) = src.openUses ++ dst.openUses := by
  rw [openPlacesOf, List.map_append, Definition.map_snd_openPlaces, Definition.map_snd_openPlaces]
  rfl

theorem clash_iff_mem :
    Clash src dst p v ↔ (p, v) ∈ openPlacesOf src dst ∧ ¬ Undefined src dst v := by
  rw [openPlacesOf, List.mem_append, Definition.mem_openPlaces_iff, Definition.mem_openPlaces_iff]
  constructor
  · rintro (⟨hvar, hbefore, hdefined⟩ | ⟨hvar, hbefore, hdefined⟩)
    · exact ⟨.inl ⟨_, _, by rw [Nat.zero_add], hvar, List.not_mem_nil, hbefore⟩, hdefined⟩
    · exact ⟨.inr ⟨_, _, rfl, hvar, List.not_mem_nil, hbefore⟩, hdefined⟩
  · rintro ⟨⟨n, path, rfl, hvar, -, hbefore⟩ | ⟨n, path, rfl, hvar, -, hbefore⟩, hdefined⟩
    · rw [Nat.zero_add]
      exact .source hvar hbefore hdefined
    · exact .destination hvar hbefore hdefined

/-- The open uses of the source come before those of the destination. -/
theorem pairwise_openPlacesOf (src dst : Pattern) :
    (openPlacesOf src dst).Pairwise fun a b => a.1.Before b.1 := by
  rw [openPlacesOf, List.pairwise_append]
  refine ⟨Definition.pairwise_openPlaces _ _ _, Definition.pairwise_openPlaces _ _ _, ?_⟩
  rintro ⟨p, v⟩ ha ⟨q, w⟩ hb
  obtain ⟨n, path, rfl, hvar, -⟩ := Definition.mem_openPlaces_iff.mp ha
  obtain ⟨k, path', rfl, -⟩ := Definition.mem_openPlaces_iff.mp hb
  obtain ⟨d, hd, -⟩ := Option.bind_eq_some_iff.mp hvar
  have hn : n < src.defs.length := (List.getElem?_eq_some_iff.mp hd).1
  exact List.cons_lt_cons_iff.mpr (.inl (by omega))

/-- The search finds the first clash. -/
theorem firstClash_of_firstClash? (h : firstClash? src dst = some (p, v)) :
    FirstClash src dst p v := by
  obtain ⟨hv, before, after, hsplit, hbefore⟩ := List.find?_eq_some_iff_append.mp h
  have hmem : (p, v) ∈ openPlacesOf src dst := by
    rw [hsplit]
    exact List.mem_append_right _ List.mem_cons_self
  refine ⟨clash_iff_mem.mpr ⟨hmem, defines_iff.mp hv⟩, ?_⟩
  intro q w hclash
  obtain ⟨hq, hw⟩ := clash_iff_mem.mp hclash
  have hpairs := pairwise_openPlacesOf src dst
  rw [hsplit] at hq hpairs
  rcases List.mem_append.mp hq with hq | hq
  · -- the search has passed only variables that nothing defines
    have hnot := hbefore (q, w) hq
    rw [Bool.not_eq_true', Bool.eq_false_iff] at hnot
    exact absurd (defines_iff.mpr hw) hnot
  · rcases List.mem_cons.mp hq with heq | hq
    · exact .inl (congrArg Prod.fst heq)
    · have hlater := (List.pairwise_append.mp hpairs).2.1
      exact .inr ((List.pairwise_cons.mp hlater).1 (q, w) hq)

theorem firstClash?_eq_none_iff :
    firstClash? src dst = none ↔ ∀ p v, ¬ Clash src dst p v := by
  rw [firstClash?, List.find?_eq_none]
  constructor
  · intro h p v hclash
    obtain ⟨hmem, hv⟩ := clash_iff_mem.mp hclash
    exact h (p, v) hmem (defines_iff.mpr hv)
  · rintro h ⟨p, v⟩ hmem hv
    exact h p v (clash_iff_mem.mpr ⟨hmem, defines_iff.mp hv⟩)

/-- Without a clash, all open uses are of variables that nothing defines. -/
theorem undefined_of_not_clash (h : ∀ p v, ¬ Clash src dst p v)
    (hv : v ∈ src.openUses ++ dst.openUses) : Undefined src dst v := by
  rw [← map_snd_openPlacesOf] at hv
  obtain ⟨⟨p, v⟩, hmem, rfl⟩ := List.mem_map.mp hv
  exact not_not.mp fun hnot => h p v (clash_iff_mem.mpr ⟨hmem, hnot⟩)

theorem Clash.var_eq (h : Clash src dst p v) (h' : Clash src dst p w) : v = w := by
  have hlt : ∀ {n : Nat} {path : List Nat} {v : Var},
      (Place.value n path).var? src.defs = some v → n < src.defs.length := by
    intro n path v hvar
    obtain ⟨d, hd, -⟩ := Option.bind_eq_some_iff.mp hvar
    exact (List.getElem?_eq_some_iff.mp hd).1
  cases h with
  | source hvar _ _ =>
      have hn := hlt hvar
      generalize hp : Place.value _ _ = p at h'
      cases h' with
      | source hvar' _ _ =>
          cases hp
          exact Option.some.inj (hvar.symm.trans hvar')
      | destination _ _ _ =>
          cases hp
          omega
  | @destination n path _ hvar _ _ =>
      generalize hp : Place.value _ _ = p at h'
      cases h' with
      | source hvar' _ _ =>
          cases hp
          have hn := hlt hvar'
          omega
      | destination hvar' _ _ =>
          obtain ⟨hnumber, rfl⟩ := Place.value.inj hp
          obtain rfl := Nat.add_left_cancel hnumber
          exact Option.some.inj (hvar.symm.trans hvar')

theorem FirstClash.var_eq (h : FirstClash src dst p v) (h' : FirstClash src dst q w) : v = w := by
  have hplace : q = p := by
    rcases h.2 q w h'.1 with heq | hbefore
    · exact heq
    · exact (h'.2 p v h.1).elim Eq.symm fun hbefore' => absurd hbefore' hbefore.asymm
  subst hplace
  exact h.1.var_eq h'.1

/-! ### Extra inputs -/

/-- The open uses of the destination of variables that are no open uses of the source. -/
def foreignUses (src dst : Pattern) : List Var :=
  dst.openUses.filter (· ∉ distinct src.openUses)

theorem mem_foreignUses_iff :
    v ∈ foreignUses src dst ↔ v ∈ dst.openUses ∧ v ∉ src.openUses := by
  simp [foreignUses]

/-- Without a clash, the extra variables are those of the foreign uses. -/
theorem mem_foreignUses_iff_isExtra (h : ∀ p v, ¬ Clash src dst p v) :
    v ∈ foreignUses src dst ↔ IsExtra src dst v := by
  have hmention : ∀ {defs : List Definition}, (∀ d ∈ defs, v ∉ d.outputs) → Mentioned defs v →
      ∃ d ∈ defs, d.Uses v :=
    fun hout ⟨d, hd, hv⟩ => ⟨d, hd, hv.resolve_left (hout d hd)⟩
  rw [mem_foreignUses_iff]
  constructor
  · rintro ⟨hopen, hsrc⟩
    have hundefined := undefined_of_not_clash h (List.mem_append_right _ hopen)
    obtain ⟨n, d, hd, hu, -⟩ := mem_openUses_iff.mp hopen
    refine ⟨⟨d, List.mem_of_getElem? hd, .inr hu⟩, fun hmentioned => hsrc ?_, hundefined⟩
    obtain ⟨d', hd', hu'⟩ :=
      hmention (fun d hd => hundefined d (List.mem_append_left _ hd)) hmentioned
    exact mem_openUses_of_undefined hd' hu' hundefined
  · rintro ⟨hdst, hsrc, hundefined⟩
    obtain ⟨d, hd, hu⟩ := hmention (fun d hd => hundefined d (List.mem_append_right _ hd)) hdst
    refine ⟨mem_openUses_of_undefined hd hu (undefined_iff.mpr (undefined_iff.mp hundefined).symm),
      fun hopen => hsrc ?_⟩
    obtain ⟨n, d', hd', hu', -⟩ := mem_openUses_iff.mp hopen
    exact ⟨d', List.mem_of_getElem? hd', .inr hu'⟩

/-- Without a clash, the distinct foreign uses list the extra variables. -/
theorem listsExtras_distinct (h : ∀ p v, ¬ Clash src dst p v) :
    ListsExtras src dst (distinct (foreignUses src dst)) := by
  have hmem : ∀ v, v ∈ distinct (foreignUses src dst) ↔ IsExtra src dst v :=
    fun v => mem_distinct.trans (mem_foreignUses_iff_isExtra h)
  refine ⟨hmem, nodup_distinct _, ?_⟩
  have hforeign : foreignUses src dst = ((openPlaces 0 [] dst.defs).filter
      fun a => a.2 ∉ distinct src.openUses).map (·.2) := by
    have huses : dst.openUses = (openPlaces 0 [] dst.defs).map (·.2) :=
      (Definition.map_snd_openPlaces 0 [] dst.defs).symm
    rw [foreignUses, huses, List.filter_map]
    rfl
  have hordered := Roles.pairwise_distinct
    ((Definition.pairwise_openPlaces 0 [] dst.defs).filter fun a => a.2 ∉ distinct src.openUses)
  rw [← hforeign] at hordered
  refine hordered.imp_of_mem ?_
  rintro v w - hw ⟨p, hp, hfirst⟩
  obtain ⟨n, path, rfl, hvar, -⟩ := Definition.mem_openPlaces_iff.mp (List.mem_filter.mp hp).1
  obtain ⟨-, hout, hundefined⟩ := (hmem w).mp hw
  rw [Nat.zero_add] at hfirst
  refine ⟨_, hvar, fun q hq => hfirst q ?_⟩
  -- an extra variable is no output, so all its places are open uses
  cases q with
  | output k i =>
      obtain ⟨d, hd, ho⟩ := Option.bind_eq_some_iff.mp hq
      exact absurd (List.mem_of_getElem? ho)
        (hundefined d (List.mem_append_right _ (List.mem_of_getElem? hd)))
  | value k path' =>
      have hbefore : ¬ DefinedBefore dst.defs k w := fun hbefore =>
        (undefined_iff.mp hundefined).2 (Definition.mem_outputsOf_of_definedBefore hbefore)
      have hforeign := (mem_foreignUses_iff_isExtra h).mpr ((hmem w).mp hw)
      refine List.mem_filter.mpr ⟨Definition.mem_openPlaces_iff.mpr
        ⟨k, path', by rw [Nat.zero_add], hq, List.not_mem_nil, hbefore⟩, ?_⟩
      simpa using (mem_foreignUses_iff.mp hforeign).2

/-- There is one list of the extra variables. -/
theorem ListsExtras.eq {vs ws : List Var} (h : ListsExtras src dst vs)
    (h' : ListsExtras src dst ws) : vs = ws := by
  have hperm : vs.Perm ws := (List.perm_ext_iff_of_nodup h.nodup h'.nodup).mpr fun v =>
    (h.mem_iff v).trans (h'.mem_iff v).symm
  refine List.Perm.eq_of_pairwise ?_ h.ordered h'.ordered hperm
  intro v w _ _ hvw hwv
  exact absurd hwv hvw.asymm

/-! ### Names -/

/-- The search for a repeated name finds the name of the first variable that has one. -/
theorem firstRepeat?_names_iff {vars : List Var} {name : String} :
    firstRepeat? [] (vars.map (·.name)) = some name ↔
      ∃ v, FirstNamesake vars v ∧ v.name = name := by
  rw [firstRepeat?_eq_some_iff]
  constructor
  · rintro ⟨names, names', hsplit, hnd, -, hname⟩
    obtain ⟨before, rest, rfl, rfl, hrest⟩ := List.map_eq_append_iff.mp hsplit
    obtain ⟨v, after, rfl, rfl, -⟩ := List.map_eq_cons_iff.mp hrest
    have hmem := hname.resolve_left List.not_mem_nil
    exact ⟨v, ⟨before, after, rfl, hnd, List.mem_map.mp hmem⟩, rfl⟩
  · rintro ⟨v, ⟨before, after, rfl, hnd, w, hw, hname⟩, rfl⟩
    refine ⟨before.map (·.name), after.map (·.name), by rw [List.map_append, List.map_cons], hnd,
      fun _ _ => List.not_mem_nil, .inr ?_⟩
    exact hname ▸ List.mem_map_of_mem hw

theorem checkNames_eq_error_iff {roles : Roles} :
    checkNames roles = .error cause ↔
      ∃ v, FirstNamesake roles.vars v ∧ cause = .ambiguousName v.name := by
  rw [checkNames]
  split
  · rename_i name hname
    obtain ⟨v, hv, rfl⟩ := firstRepeat?_names_iff.mp hname
    constructor
    · intro h
      cases h
      exact ⟨v, hv, rfl⟩
    · rintro ⟨w, hw, rfl⟩
      rw [firstRepeat?_names_iff.mpr ⟨w, hw, rfl⟩] at hname
      rw [Option.some.inj hname]
  · rename_i hnone
    constructor
    · intro h
      cases h
    · rintro ⟨v, hv, -⟩
      rw [firstRepeat?_names_iff.mpr ⟨v, hv, rfl⟩] at hnone
      cases hnone

/-! ### The checks -/

/-- The open uses that the check looks through are searched for the first clash: those it leaves out
are of variables that are looked at before. -/
theorem find?_openUses (src dst : Pattern) :
    (src.openUses ++ foreignUses src dst).find? (fun v => src.defines v || dst.defines v) =
      (firstClash? src dst).map (·.2) := by
  have hplaces : (firstClash? src dst).map (·.2) =
      (src.openUses ++ dst.openUses).find? fun v => src.defines v || dst.defines v := by
    rw [← map_snd_openPlacesOf, List.find?_map]
    rfl
  rw [hplaces, List.find?_append, List.find?_append]
  cases hsrc : src.openUses.find? fun v => src.defines v || dst.defines v with
  | some v => rfl
  | none =>
      rw [Option.none_or, Option.none_or, foreignUses, List.find?_filter]
      rw [List.find?_eq_none] at hsrc
      refine congrArg (dst.openUses.find? ·) (funext fun v => ?_)
      by_cases hv : v ∈ src.openUses
      · have hfalse : (src.defines v || dst.defines v) = false := Bool.eq_false_iff.mpr (hsrc v hv)
        simp [hfalse]
      · simp [hv]

theorem checkInputs_of_clash (hne : src.defs ≠ []) (h : firstClash? src dst = some (p, v)) :
    checkInputs src dst = .error (.inputDefined v.name) := by
  have hfind := find?_openUses src dst
  rw [h, Option.map_some, foreignUses] at hfind
  rw [checkInputs, if_neg (by simpa [Pattern.isEmpty] using hne)]
  simp only [hfind]

theorem checkInputs_of_not_clash (hne : src.defs ≠ []) (h : ∀ p v, ¬ Clash src dst p v) :
    checkInputs src dst =
      if (foreignUses src dst).isEmpty then .ok (distinct src.openUses)
      else .error (.extraInputs
        (", ".intercalate ((distinct (foreignUses src dst)).map (·.name)))) := by
  have hfind := find?_openUses src dst
  rw [firstClash?_eq_none_iff.mpr h, Option.map_none, foreignUses] at hfind
  rw [checkInputs, if_neg (by simpa [Pattern.isEmpty] using hne)]
  simp only [hfind]
  rfl

/-- A rule is rejected by the check of its inputs, or else by that of its names. -/
theorem close_eq_error_cases {e : Error} (h : close site src dst = .error e) :
    ∃ cause, e = .rule site cause ∧
      (checkInputs src dst = .error cause ∨
        (∃ inputs, checkInputs src dst = .ok inputs) ∧
          checkNames (.classify src.defs dst.defs) = .error cause) := by
  rw [close] at h
  cases hinputs : checkInputs src dst with
  | error cause =>
      rw [hinputs] at h
      cases h
      exact ⟨cause, rfl, .inl rfl⟩
  | ok inputs =>
      cases hnames : checkNames (.classify src.defs dst.defs) with
      | error cause =>
          simp only [hinputs, hnames, bind, Except.bind, Except.mapError] at h
          cases h
          exact ⟨cause, rfl, .inr ⟨⟨inputs, rfl⟩, rfl⟩⟩
      | ok _ =>
          simp only [hinputs, hnames, bind, Except.bind, Except.mapError] at h
          cases h

/-! ### Rejection -/

theorem Diagnosis.of_empty (h : src.defs = []) : Diagnosis src dst (.emptyPattern .source) where
  empty_iff := ⟨fun _ => h, fun _ => rfl⟩
  clash_iff := fun hne => absurd h hne
  clash_first := fun _ h => nomatch h
  extra_iff := fun hne => absurd h hne
  extra_listed := fun _ h => nomatch h
  namesake := fun hne => absurd h hne

theorem Diagnosis.of_clash (hne : src.defs ≠ []) (h : FirstClash src dst p v) :
    Diagnosis src dst (.inputDefined v.name) where
  empty_iff := ⟨fun h => (nomatch h), fun h => absurd h hne⟩
  clash_iff := fun _ => ⟨fun _ => ⟨p, v, h.1⟩, fun _ => ⟨v.name, rfl⟩⟩
  clash_first := fun _ hname => ⟨p, v, h, Error.inputDefined.inj hname⟩
  extra_iff := fun _ hnot => absurd h.1 (hnot p v)
  extra_listed := fun _ h => nomatch h
  namesake := fun _ hnot => absurd h.1 (hnot p v)

theorem Diagnosis.of_extras {vs : List Var} (hne : src.defs ≠ [])
    (hclash : ∀ p v, ¬ Clash src dst p v) (hextra : IsExtra src dst v)
    (hvs : ListsExtras src dst vs) :
    Diagnosis src dst (.extraInputs (", ".intercalate (vs.map (·.name)))) where
  empty_iff := ⟨fun h => (nomatch h), fun h => absurd h hne⟩
  clash_iff := fun _ => ⟨fun ⟨_, h⟩ => (nomatch h), fun ⟨p, v, h⟩ => absurd h (hclash p v)⟩
  clash_first := fun _ h => nomatch h
  extra_iff := fun _ _ => ⟨fun _ => ⟨v, hextra⟩, fun _ => ⟨_, rfl⟩⟩
  extra_listed := fun _ hnames => ⟨vs, hvs, Error.extraInputs.inj hnames⟩
  namesake := fun _ _ hnot => absurd hextra (hnot v)

theorem Diagnosis.of_namesake (hne : src.defs ≠ []) (hclash : ∀ p v, ¬ Clash src dst p v)
    (hextra : ∀ v, ¬ IsExtra src dst v)
    (hv : FirstNamesake (Roles.classify src.defs dst.defs).vars v) :
    Diagnosis src dst (.ambiguousName v.name) where
  empty_iff := ⟨fun h => (nomatch h), fun h => absurd h hne⟩
  clash_iff := fun _ => ⟨fun ⟨_, h⟩ => (nomatch h), fun ⟨p, v, h⟩ => absurd h (hclash p v)⟩
  clash_first := fun _ h => nomatch h
  extra_iff := fun _ _ => ⟨fun ⟨_, h⟩ => (nomatch h), fun ⟨v, h⟩ => absurd h (hextra v)⟩
  extra_listed := fun _ h => nomatch h
  namesake := fun _ _ _ => ⟨v, hv, rfl⟩

/-- Two patterns have at most one diagnosis. -/
theorem Diagnosis.cause_eq (h : Diagnosis src dst cause) (h' : Diagnosis src dst cause') :
    cause = cause' := by
  by_cases hempty : src.defs = []
  · rw [h.empty_iff.mpr hempty, h'.empty_iff.mpr hempty]
  by_cases hclash : ∃ p v, Clash src dst p v
  · obtain ⟨name, rfl⟩ := (h.clash_iff hempty).mpr hclash
    obtain ⟨name', rfl⟩ := (h'.clash_iff hempty).mpr hclash
    obtain ⟨p, v, hv, rfl⟩ := h.clash_first name rfl
    obtain ⟨q, w, hw, rfl⟩ := h'.clash_first name' rfl
    rw [hv.var_eq hw]
  have hclash' : ∀ p v, ¬ Clash src dst p v := fun p v hv => hclash ⟨p, v, hv⟩
  by_cases hextra : ∃ v, IsExtra src dst v
  · obtain ⟨names, rfl⟩ := (h.extra_iff hempty hclash').mpr hextra
    obtain ⟨names', rfl⟩ := (h'.extra_iff hempty hclash').mpr hextra
    obtain ⟨vs, hvs, rfl⟩ := h.extra_listed names rfl
    obtain ⟨ws, hws, rfl⟩ := h'.extra_listed names' rfl
    rw [hvs.eq hws]
  have hextra' : ∀ v, ¬ IsExtra src dst v := fun v hv => hextra ⟨v, hv⟩
  obtain ⟨v, hv, hcause⟩ := h.namesake hempty hclash' hextra'
  obtain ⟨w, hw, hcause'⟩ := h'.namesake hempty hclash' hextra'
  -- both causes are the error of the same check
  have herror := checkNames_eq_error_iff.mpr ⟨v, hv, hcause⟩
  rw [checkNames_eq_error_iff.mpr ⟨w, hw, hcause'⟩] at herror
  exact (Except.error.inj herror).symm

/-- The check of the inputs fails with the diagnosis. -/
theorem diagnosis_of_checkInputs (h : checkInputs src dst = .error cause) :
    Diagnosis src dst cause := by
  by_cases hempty : src.defs = []
  · rw [checkInputs, if_pos (by simpa [Pattern.isEmpty] using hempty)] at h
    cases h
    exact .of_empty hempty
  by_cases hclash : ∀ p v, ¬ Clash src dst p v
  · rw [checkInputs_of_not_clash hempty hclash] at h
    split at h
    · cases h
    · rename_i hforeign
      cases h
      rw [List.isEmpty_iff] at hforeign
      obtain ⟨v, hv⟩ := List.exists_mem_of_ne_nil _ hforeign
      exact .of_extras hempty hclash ((mem_foreignUses_iff_isExtra hclash).mp hv)
        (listsExtras_distinct hclash)
  · rw [← firstClash?_eq_none_iff, ← ne_eq, Option.ne_none_iff_exists'] at hclash
    obtain ⟨⟨p, v⟩, hfirst⟩ := hclash
    rw [checkInputs_of_clash hempty hfirst] at h
    cases h
    exact .of_clash hempty (firstClash_of_firstClash? hfirst)

/-- Where the inputs are right, only names can be wrong. -/
theorem faultless_of_checkInputs {inputs : List Var} (h : checkInputs src dst = .ok inputs) :
    src.defs ≠ [] ∧ (∀ p v, ¬ Clash src dst p v) ∧ ∀ v, ¬ IsExtra src dst v := by
  obtain ⟨hne, hsrc, hdst, -⟩ := checkInputs_eq_ok_iff.mp h
  have hclash : ∀ p v, ¬ Clash src dst p v := by
    intro p v hclash
    obtain ⟨hmem, hdefined⟩ := clash_iff_mem.mp hclash
    have hopen : v ∈ src.openUses ++ dst.openUses := by
      rw [← map_snd_openPlacesOf]
      exact List.mem_map_of_mem hmem
    exact hdefined ((List.mem_append.mp hopen).elim (hsrc v) fun hv => hsrc v (hdst v hv))
  refine ⟨hne, hclash, fun v hv => ?_⟩
  obtain ⟨hopen, hforeign⟩ := mem_foreignUses_iff.mp ((mem_foreignUses_iff_isExtra hclash).mpr hv)
  exact hforeign (hdst v hopen)

/-- The check of the names fails with the diagnosis where the inputs are right. -/
theorem diagnosis_of_checkNames {inputs : List Var} (hinputs : checkInputs src dst = .ok inputs)
    (h : checkNames (.classify src.defs dst.defs) = .error cause) : Diagnosis src dst cause := by
  obtain ⟨hne, hclash, hextra⟩ := faultless_of_checkInputs hinputs
  obtain ⟨v, hv, rfl⟩ := checkNames_eq_error_iff.mp h
  exact .of_namesake hne hclash hextra hv

/-- Patterns that are accepted have no diagnosis. -/
theorem not_diagnosis_of_close {r : Rule} (h : close site src dst = .ok r) :
    ¬ Diagnosis src dst cause := by
  intro hcause
  obtain ⟨inputs, hinputs, hnames, -⟩ := close_eq_ok_iff.mp h
  obtain ⟨hne, hclash, hextra⟩ := faultless_of_checkInputs hinputs
  have herror := checkNames_eq_error_iff.mpr (hcause.namesake hne hclash hextra)
  rw [checkNames_eq_ok_iff.mpr hnames] at herror
  cases herror

/-- **Rejection is diagnosed.**  Two patterns are rejected exactly when they have a diagnosis, and
the error is that diagnosis, at the site of the rule. -/
theorem close_eq_error_iff (site : String) (src dst : Pattern) (e : Error) :
    close site src dst = .error e ↔ ∃ cause, e = .rule site cause ∧ Diagnosis src dst cause := by
  have hforward : ∀ {e}, close site src dst = .error e →
      ∃ cause, e = .rule site cause ∧ Diagnosis src dst cause := by
    intro e h
    obtain ⟨cause, rfl, hinputs | ⟨⟨inputs, hinputs⟩, hnames⟩⟩ := close_eq_error_cases h
    · exact ⟨cause, rfl, diagnosis_of_checkInputs hinputs⟩
    · exact ⟨cause, rfl, diagnosis_of_checkNames hinputs hnames⟩
  refine ⟨hforward, ?_⟩
  rintro ⟨cause, rfl, hcause⟩
  cases hclose : close site src dst with
  | error e =>
      obtain ⟨cause', rfl, hcause'⟩ := hforward hclose
      rw [hcause.cause_eq hcause']
  | ok r => exact absurd hcause (not_diagnosis_of_close hclose)

/-- A clash at the end of the destination wins over an extra variable before it. -/
example :
    let x : Var := ⟨0, "x"⟩
    let a : Var := ⟨1, "a"⟩
    let q : Var := ⟨2, "q"⟩
    let uses (outputs : List Var) (v : Var) : Definition := ⟨outputs, ⟨⟨0⟩, "bnot", []⟩, [.var v]⟩
    let dst : Pattern := ⟨.destination, [uses [⟨3, "t"⟩] q, uses [⟨4, "u"⟩] a]⟩
    (close "here" ⟨.source, [uses [a] x]⟩ dst).map (·.inputs) =
      .error (.rule "here" (.inputDefined "a")) := by
  rfl

end Rule

end Isaforge
