import Isaforge.Proofs.Classification

/-!
# Exchange — what the roles depend on

The roles of the variables of two sequences of definitions only depend on which definitions these
have.  In another order, or with repetitions, the same variables are listed with the same roles,
and only their order is another.  With the two sequences exchanged the same variables are listed
too, the intermediate ones as temporary and the other way round.

Both are cases of one correspondence between lists of roles (`Roles.Corresponds`), along a renaming
of roles.  It holds when the same variables are mentioned and the renaming agrees with what the
roles say of the definitions (`Roles.corresponds_classify`).  `Roles.classify_corresponds` puts the
two together.
-/

namespace Isaforge

/-- The role, when source and destination are exchanged. -/
def Role.exchanged : Role → Role
  | .input => .input
  | .output => .output
  | .intermediate => .temporary
  | .temporary => .intermediate

theorem Role.exchanged_exchanged (role : Role) : role.exchanged.exchanged = role := by
  cases role <;> rfl

namespace Roles

variable {src dst src' dst' defs defs' : List Definition} {r r' : Roles} {v : Var} {role : Role}
  {f : Role → Role}

/-! ### Rearrangements -/

/-- The definitions are put in another order, and some of them repeated. -/
inductive Rearranged : List Definition → List Definition → Prop where
  | perm {defs defs' : List Definition} : defs.Perm defs' → Rearranged defs defs'
  | repeated {before after : List Definition} {d : Definition} : d ∈ before ++ after →
      Rearranged (before ++ after) (before ++ d :: after)
  | trans {defs defs' defs'' : List Definition} : Rearranged defs defs' →
      Rearranged defs' defs'' → Rearranged defs defs''

theorem Rearranged.mem_iff (h : Rearranged defs defs') (d : Definition) : d ∈ defs' ↔ d ∈ defs := by
  induction h with
  | perm h => exact h.mem_iff.symm
  | repeated hd =>
      rw [List.mem_append, List.mem_cons, or_left_comm, ← List.mem_append]
      exact or_iff_right_of_imp fun heq => heq ▸ hd
  | trans _ _ ih ih' => exact ih'.trans ih

/-! ### Correspondence -/

/-- The two lists of roles have the same variables, and `f` makes the roles of the one those of the
other. -/
structure Corresponds (f : Role → Role) (r r' : Roles) : Prop where
  entries : r'.entries.Perm (r.entries.map fun e => (e.1, f e.2))
  vars : r'.vars.Perm r.vars
  role? : ∀ v, r'.role? v = (r.role? v).map f
  counts : ∀ role, r'.counts.of (f role) = r.counts.of role
  size : r'.size = r.size

section OfEntries

variable (hf : Function.Involutive f) (hmem : ∀ v role, (v, role) ∈ r'.entries ↔
  (v, f role) ∈ r.entries) (hr : r.vars.Nodup) (hr' : r'.vars.Nodup)

include hf hmem hr hr'

theorem entries_perm_of_entries : r'.entries.Perm (r.entries.map fun e => (e.1, f e.2)) := by
  have hinjective : Function.Injective fun e : Var × Role => (e.1, f e.2) := by
    rintro ⟨v, role⟩ ⟨w, role'⟩ h
    obtain ⟨rfl, hrole⟩ := Prod.mk.inj h
    exact congrArg (Prod.mk _) (hf.injective hrole)
  have hnodup : (r.entries.map fun e => (e.1, f e.2)).Nodup :=
    (List.Nodup.of_map _ hr).map hinjective
  refine (List.perm_ext_iff_of_nodup (.of_map _ hr') hnodup).mpr ?_
  rintro ⟨v, role⟩
  rw [hmem]
  constructor
  · intro h
    exact List.mem_map.mpr ⟨(v, f role), h, by rw [hf role]⟩
  · intro h
    obtain ⟨⟨w, role'⟩, he, heq⟩ := List.mem_map.mp h
    cases heq
    rwa [hf role']

theorem role?_of_entries (v : Var) : r'.role? v = (r.role? v).map f := by
  refine Option.ext fun role => ?_
  rw [role?_eq_some_iff_of_nodup hr', hmem, ← role?_eq_some_iff_of_nodup hr, Option.map_eq_some_iff]
  constructor
  · intro h
    exact ⟨f role, h, hf role⟩
  · rintro ⟨role', h, rfl⟩
    rwa [hf role']

/-- Lists of roles correspond when their entries do. -/
theorem Corresponds.of_entries : Corresponds f r r' := by
  have hentries : r'.entries.Perm (r.entries.map fun e => (e.1, f e.2)) :=
    entries_perm_of_entries hf hmem hr hr'
  refine ⟨hentries, ?_, role?_of_entries hf hmem hr hr', fun role => ?_, ?_⟩
  · have hvars := hentries.map (·.1)
    rwa [List.map_map] at hvars
  · rw [counts_of_eq, counts_of_eq, ← List.countP_eq_length_filter,
      ← List.countP_eq_length_filter, hentries.countP_eq, List.countP_map]
    simp only [Function.comp_def, hf.injective.eq_iff]
  · rw [Roles.size, hentries.length_eq, List.length_map, Roles.size]

end OfEntries

/-! ### What the classification depends on -/

/-- The classifications of definitions that mention the same variables correspond, when `f` agrees
with what the roles say of the definitions. -/
theorem corresponds_classify (hf : Function.Involutive f)
    (hmentioned : ∀ v, Mentioned (src' ++ dst') v ↔ Mentioned (src ++ dst) v)
    (hdescribes : ∀ v role, Describes src' dst' v role ↔ Describes src dst v (f role)) :
    Corresponds f (classify src dst) (classify src' dst') := by
  refine .of_entries hf (fun v role => ?_) (nodup_vars_classify _ _) (nodup_vars_classify _ _)
  rw [mem_entries_classify_iff, mem_entries_classify_iff, mem_vars_classify, mem_vars_classify,
    hmentioned, hdescribes]

theorem mentioned_append : Mentioned (defs ++ defs') v ↔ Mentioned defs v ∨ Mentioned defs' v := by
  simp only [Mentioned, List.mem_append, or_and_right, exists_or]

theorem describes_exchanged : Describes dst src v role ↔ Describes src dst v role.exchanged := by
  cases role <;> exact and_comm

theorem corresponds_exchanged (src dst : List Definition) :
    Corresponds Role.exchanged (classify src dst) (classify dst src) := by
  refine corresponds_classify Role.exchanged_exchanged (fun v => ?_)
    fun v role => describes_exchanged
  rw [mentioned_append, mentioned_append, or_comm]

theorem corresponds_rearranged (hsrc : Rearranged src src') (hdst : Rearranged dst dst') :
    Corresponds id (classify src dst) (classify src' dst') := by
  refine corresponds_classify (fun _ => rfl) (fun v => ?_) fun v role => ?_
  · simp only [Mentioned, List.mem_append, hsrc.mem_iff, hdst.mem_iff]
  · cases role <;> simp only [Describes, DefinedIn, hsrc.mem_iff, hdst.mem_iff, id]

/-- **What the classification depends on.**  Exchanging the two sequences of definitions exchanges
intermediate and temporary variables, and keeps the others; and putting either sequence in another
order, or repeating definitions, keeps all of them.  It is only their order that changes. -/
theorem classify_corresponds (src dst : List Definition) :
    Corresponds Role.exchanged (classify src dst) (classify dst src) ∧
      ∀ src' dst', Rearranged src src' → Rearranged dst dst' →
        Corresponds id (classify src dst) (classify src' dst') :=
  ⟨corresponds_exchanged src dst, fun _ _ => corresponds_rearranged⟩

/-- The definition `a << iadd(x, bnot(y))`. -/
def invertedSum : Definition :=
  ⟨[⟨0, "a"⟩], ⟨⟨3⟩, "iadd", []⟩, [.var ⟨1, "x"⟩, .app ⟨⟨15⟩, "bnot", []⟩ [.var ⟨2, "y"⟩]]⟩

/-- The definition `b << isub(y, a)`. -/
def difference : Definition :=
  ⟨[⟨3, "b"⟩], ⟨⟨4⟩, "isub", []⟩, [.var ⟨2, "y"⟩, .var ⟨0, "a"⟩]⟩

/-- In another order, and with a repetition, the definitions mention their variables in another
order. -/
theorem rearranged_differs :
    Rearranged [invertedSum, difference] [difference, invertedSum, difference] ∧
      Corresponds id (classify [invertedSum, difference] [difference])
        (classify [difference, invertedSum, difference] [difference]) ∧
      (classify [difference, invertedSum, difference] [difference]).vars ≠
        (classify [invertedSum, difference] [difference]).vars := by
  have hrearranged : Rearranged ([] ++ [invertedSum, difference])
      ([] ++ difference :: [invertedSum, difference]) :=
    .repeated (by decide)
  have hsame : Rearranged [difference] [difference] := .perm (.refl _)
  exact ⟨hrearranged, (classify_corresponds _ _).2 _ _ hrearranged hsame, by decide⟩

end Roles

end Isaforge
