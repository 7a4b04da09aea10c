import Isaforge.Proofs.Occurrence
import Mathlib.Data.List.Lex

/-!
# Appearance — the places of variables, and their order

A variable stands at places in a sequence of definitions: as an output of a definition, or in its
value, where the numbers of the arguments on the way lead to it (`Place.var?`).  Places are read
definition by definition, the outputs of a definition before its value, and the arguments of an
application from left to right with all that is nested in them (`Place.Before`).

`Roles.appearances` is the list of the variables in that order: it lists what stands at the places
(`map_snd_places`, `mem_places_iff`), and earlier places come earlier (`pairwise_places`).

A variable *appears before* another when it stands at a place before all places of the other.  The
distinct variables of a sequence of definitions are listed in this order
(`pairwise_appearsBefore`).
-/

namespace Isaforge

theorem pairwise_zipIdx {α : Type} (xs : List α) :
    xs.zipIdx.Pairwise fun a b => a.2 < b.2 := by
  have hrange : (xs.zipIdx.map (·.2)).Pairwise (· < ·) := by
    rw [List.zipIdx_map_snd]
    exact List.pairwise_lt_range' 1
  exact List.pairwise_map.mp hrange

/-! ### Expressions -/

namespace Expr

/-- The variable that the numbers of arguments lead to, from the expression down. -/
def leaf? : Expr → List Nat → Option Var
  | .var v, [] => some v
  | .var _, _ :: _ => none
  | .app _ _, [] => none
  | .app _ args, n :: path => args[n]?.bind fun e => e.leaf? path

mutual

/-- The variables of the expression from left to right, each with the numbers of the arguments
that lead to it. -/
def leaves : Expr → List (List Nat × Var)
  | .var v => [([], v)]
  | .app _ args => leavesFrom 0 args

/-- The variables of the expressions, which are arguments from number `n` on. -/
def leavesFrom (n : Nat) : List Expr → List (List Nat × Var)
  | [] => []
  | e :: es => (e.leaves.map fun l => (n :: l.1, l.2)) ++ leavesFrom (n + 1) es

end

theorem leavesFrom_eq_flatMap (n : Nat) (es : List Expr) :
    leavesFrom n es = (es.zipIdx n).flatMap fun e => e.1.leaves.map fun l => (e.2 :: l.1, l.2) := by
  induction es generalizing n with
  | nil => rfl
  | cons e es ih => rw [leavesFrom, ih, List.zipIdx_cons, List.flatMap_cons]

/-- The leaves of an expression are its variables, in order. -/
theorem map_snd_leaves (e : Expr) : e.leaves.map (·.2) = e.vars := by
  induction e with
  | var v => rfl
  | app head args ih =>
      -- for arguments from any number on
      have hargs : ∀ (n : Nat) (es : List Expr), (∀ e ∈ es, e.leaves.map (·.2) = e.vars) →
          (leavesFrom n es).map (·.2) = varsAll es := by
        intro n es hes
        induction es generalizing n with
        | nil => rfl
        | cons e es ih =>
            rw [leavesFrom, varsAll, List.map_append, List.map_map,
              ih (n + 1) fun e' he' => hes e' (List.mem_cons_of_mem _ he')]
            exact congrArg (· ++ _) (hes e List.mem_cons_self)
      exact hargs 0 args ih

/-- The leaves are the variables that the paths lead to. -/
theorem mem_leaves_iff {e : Expr} {path : List Nat} {v : Var} :
    (path, v) ∈ e.leaves ↔ e.leaf? path = some v := by
  induction e generalizing path with
  | var w => cases path <;> simp [leaves, leaf?, eq_comm]
  | app head args ih =>
      rw [leaves, leavesFrom_eq_flatMap, List.mem_flatMap]
      constructor
      · rintro ⟨⟨e, n⟩, he, hl⟩
        obtain ⟨⟨path', w⟩, hleaf, heq⟩ := List.mem_map.mp hl
        cases heq
        rw [List.mk_mem_zipIdx_iff_getElem?] at he
        rw [leaf?, he, Option.bind_some]
        exact (ih e (List.mem_of_getElem? he)).mp hleaf
      · intro h
        cases path with
        | nil => cases h
        | cons n path =>
            rw [leaf?, Option.bind_eq_some_iff] at h
            obtain ⟨e, he, hleaf⟩ := h
            refine ⟨(e, n), List.mk_mem_zipIdx_iff_getElem?.mpr he, ?_⟩
            exact List.mem_map.mpr
              ⟨(path, v), (ih e (List.mem_of_getElem? he)).mpr hleaf, rfl⟩

/-- The leaves are listed in the order of their paths. -/
theorem pairwise_leaves (e : Expr) : e.leaves.Pairwise fun a b => a.1 < b.1 := by
  induction e with
  | var v => exact List.pairwise_singleton _ _
  | app head args ih =>
      rw [leaves, leavesFrom_eq_flatMap, List.pairwise_flatMap]
      constructor
      -- within an argument, and of two arguments
      · rintro ⟨e, n⟩ he
        rw [List.mk_mem_zipIdx_iff_getElem?] at he
        refine List.pairwise_map.mpr ((ih e (List.mem_of_getElem? he)).imp ?_)
        intro a b h
        exact List.cons_lt_cons_iff.mpr (.inr ⟨rfl, h⟩)
      · refine (pairwise_zipIdx args).imp ?_
        rintro ⟨e, m⟩ ⟨e', n⟩ hmn _ ha _ hb
        obtain ⟨a, -, rfl⟩ := List.mem_map.mp ha
        obtain ⟨b, -, rfl⟩ := List.mem_map.mp hb
        exact List.cons_lt_cons_iff.mpr (.inl hmn)

end Expr

/-! ### Definitions -/

/-- A place in a sequence of definitions: an output of a definition, or a place in its value. -/
inductive Place where
  | output (definition index : Nat)
  | value (definition : Nat) (path : List Nat)

namespace Place

/-- Places are compared by these numbers, from left to right. -/
def key : Place → List Nat
  | output n i => [n, 0, i]
  | value n path => n :: 1 :: path

/-- The place is read before the other. -/
def Before (p q : Place) : Prop :=
  p.key < q.key

theorem Before.asymm {p q : Place} (h : p.Before q) : ¬ q.Before p :=
  List.lt_asymm h

/-- The variable at a place of the definitions. -/
def var? (defs : List Definition) : Place → Option Var
  | output n i => defs[n]?.bind fun d => d.outputs[i]?
  | value n path => defs[n]?.bind fun d => d.value.expr.leaf? path

end Place

namespace Roles

/-- The places of definition `n` that hold variables, in order. -/
def placesOf (n : Nat) (d : Definition) : List (Place × Var) :=
  (d.outputs.zipIdx.map fun o => (.output n o.2, o.1)) ++
    d.value.expr.leaves.map fun l => (.value n l.1, l.2)

/-- The places of the definitions that hold variables, in order. -/
def places (defs : List Definition) : List (Place × Var) :=
  defs.zipIdx.flatMap fun d => placesOf d.2 d.1

theorem map_snd_placesOf (n : Nat) (d : Definition) :
    (placesOf n d).map (·.2) = d.outputs ++ d.uses := by
  rw [placesOf, List.map_append, List.map_map, List.map_map]
  exact congrArg₂ _ (List.zipIdx_map_fst 0 d.outputs) (Expr.map_snd_leaves d.value.expr)

/-- The places of a sequence are its appearances, in order. -/
theorem map_snd_places (defs : List Definition) :
    (places defs).map (·.2) = appearances defs := by
  have hfrom : ∀ n, ((defs.zipIdx n).flatMap fun d => placesOf d.2 d.1).map (·.2) =
      appearances defs := by
    induction defs with
    | nil => exact fun _ => rfl
    | cons d ds ih =>
        intro n
        rw [List.zipIdx_cons, List.flatMap_cons, List.map_append, ih, map_snd_placesOf]
        rfl
  exact hfrom 0

/-- The places listed are those at which a variable stands. -/
theorem mem_places_iff {defs : List Definition} {p : Place} {v : Var} :
    (p, v) ∈ places defs ↔ p.var? defs = some v := by
  rw [places, List.mem_flatMap]
  constructor
  · rintro ⟨⟨d, n⟩, hd, hp⟩
    rw [List.mk_mem_zipIdx_iff_getElem?] at hd
    rcases List.mem_append.mp hp with hp | hp
    · obtain ⟨⟨w, i⟩, ho, heq⟩ := List.mem_map.mp hp
      cases heq
      rw [Place.var?, hd, Option.bind_some]
      exact List.mk_mem_zipIdx_iff_getElem?.mp ho
    · obtain ⟨⟨path, w⟩, hl, heq⟩ := List.mem_map.mp hp
      cases heq
      rw [Place.var?, hd, Option.bind_some]
      exact Expr.mem_leaves_iff.mp hl
  · intro h
    cases p with
    | output n i =>
        obtain ⟨d, hd, ho⟩ := Option.bind_eq_some_iff.mp h
        refine ⟨(d, n), List.mk_mem_zipIdx_iff_getElem?.mpr hd, List.mem_append_left _ ?_⟩
        exact List.mem_map.mpr ⟨(v, i), List.mk_mem_zipIdx_iff_getElem?.mpr ho, rfl⟩
    | value n path =>
        obtain ⟨d, hd, hl⟩ := Option.bind_eq_some_iff.mp h
        refine ⟨(d, n), List.mk_mem_zipIdx_iff_getElem?.mpr hd, List.mem_append_right _ ?_⟩
        exact List.mem_map.mpr ⟨(path, v), Expr.mem_leaves_iff.mpr hl, rfl⟩

theorem pairwise_placesOf (n : Nat) (d : Definition) :
    (placesOf n d).Pairwise fun a b => a.1.Before b.1 := by
  rw [placesOf, List.pairwise_append, List.pairwise_map, List.pairwise_map]
  refine ⟨?_, ?_, ?_⟩
  · refine (pairwise_zipIdx d.outputs).imp ?_
    intro a b h
    simp [Place.Before, Place.key, List.cons_lt_cons_iff, h]
  · refine (Expr.pairwise_leaves d.value.expr).imp ?_
    intro a b h
    simp [Place.Before, Place.key, h]
  · intro a ha b hb
    obtain ⟨o, -, rfl⟩ := List.mem_map.mp ha
    obtain ⟨l, -, rfl⟩ := List.mem_map.mp hb
    simp [Place.Before, Place.key, List.cons_lt_cons_iff]

/-- The definition that a listed place belongs to leads its key. -/
theorem head?_key_of_mem_placesOf {n : Nat} {d : Definition} {a : Place × Var}
    (h : a ∈ placesOf n d) : ∃ rest, a.1.key = n :: rest := by
  rcases List.mem_append.mp h with h | h
  · obtain ⟨o, -, rfl⟩ := List.mem_map.mp h
    exact ⟨_, rfl⟩
  · obtain ⟨l, -, rfl⟩ := List.mem_map.mp h
    exact ⟨_, rfl⟩

/-- The places are listed from the first to the last. -/
theorem pairwise_places (defs : List Definition) :
    (places defs).Pairwise fun a b => a.1.Before b.1 := by
  rw [places, List.pairwise_flatMap]
  refine ⟨fun d _ => pairwise_placesOf d.2 d.1, ?_⟩
  -- Of two definitions the number, which leads the key, decides.
  refine (pairwise_zipIdx defs).imp ?_
  intro d d' hlt a ha b hb
  obtain ⟨rest, hrest⟩ := head?_key_of_mem_placesOf ha
  obtain ⟨rest', hrest'⟩ := head?_key_of_mem_placesOf hb
  rw [Place.Before, hrest, hrest']
  exact List.cons_lt_cons_iff.mpr (.inl hlt)

/-! ### The order of first appearance -/

/-- `v` stands at a place before all places of `w`. -/
def AppearsBefore (defs : List Definition) (v w : Var) : Prop :=
  ∃ p : Place, p.var? defs = some v ∧ ∀ q : Place, q.var? defs = some w → p.Before q

/-- Of two variables, at most one appears before the other. -/
theorem AppearsBefore.asymm {defs : List Definition} {v w : Var} (h : AppearsBefore defs v w) :
    ¬ AppearsBefore defs w v := by
  obtain ⟨p, hp, hbefore⟩ := h
  rintro ⟨q, hq, hbefore'⟩
  exact (hbefore q hq).asymm (hbefore' p hp)

/-- Distinct elements of a list whose places are in order are in the order of their first
places. -/
theorem pairwise_distinct {κ α : Type} [DecidableEq α] {R : κ → κ → Prop} {xs : List (κ × α)}
    (h : xs.Pairwise fun a b => R a.1 b.1) :
    (distinct (xs.map (·.2))).Pairwise fun v w =>
      ∃ p, (p, v) ∈ xs ∧ ∀ q, (q, w) ∈ xs → R p q := by
  induction xs with
  | nil => exact List.Pairwise.nil
  | cons x xs ih =>
      obtain ⟨hfirst, hrest⟩ := List.pairwise_cons.mp h
      rw [List.map_cons, distinct, distinctBy, List.pairwise_cons, List.pairwise_filter]
      constructor
      · intro w hw
        have hne : w ≠ x.2 := by simpa using (List.mem_filter.mp hw).2
        refine ⟨x.1, List.mem_cons_self, ?_⟩
        intro q hq
        rcases List.mem_cons.mp hq with heq | hq
        · exact absurd (congrArg (·.2) heq) hne
        · exact hfirst (q, w) hq
      · refine (ih hrest).imp ?_
        rintro v w ⟨p, hp, hbefore⟩ hv hw
        -- The first element is dropped from the rest, so it is no place of `w`.
        have hne : w ≠ x.2 := by simpa using hw
        refine ⟨p, List.mem_cons_of_mem _ hp, ?_⟩
        intro q hq
        rcases List.mem_cons.mp hq with heq | hq
        · exact absurd (congrArg (·.2) heq) hne
        · exact hbefore q hq

/-- The distinct variables of definitions are listed in the order of first appearance. -/
theorem pairwise_appearsBefore (defs : List Definition) :
    (distinct (appearances defs)).Pairwise (AppearsBefore defs) := by
  have h := pairwise_distinct (pairwise_places defs)
  rw [map_snd_places] at h
  refine h.imp ?_
  rintro v w ⟨p, hp, hbefore⟩
  exact ⟨p, mem_places_iff.mp hp, fun q hq => hbefore q (mem_places_iff.mpr hq)⟩

end Roles

end Isaforge
