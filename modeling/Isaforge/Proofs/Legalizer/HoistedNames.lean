import Isaforge.Proofs.Legalizer.Scope

/-!
# Hoisted names — what an arm asks its supply for

One supply serves all definitions of a destination.  It is asked for a name wherever an application
is nested in another, one definition after the other (`names_flattenAll`).

`hoisted_names_enumerated`: **each request ends**, after as many tries as there are taken names, and
one more, at most, and the names that an arm gets are `tmp1`, `tmp2` and so on in order, without
those of the variables of the rule.
-/

namespace Isaforge

namespace Fresh

/-- The names are those of the numbers up to `last`, in order, without exactly the taken ones. -/
structure Enumerates (taken : List String) (last : Nat) (names : List String) : Prop where
  eq_filter : names = ((List.range' 1 last).map nameOf).filter (· ∉ taken)
  nodup : names.Nodup
  notMem : ∀ name ∈ names, name ∉ taken
  /-- Each taken name is passed once at most, so no number is larger than those of the requests and
  of the taken names together. -/
  last_le : last ≤ names.length + taken.toFinset.card

/-- From the beginning, the supply enumerates the names that are not taken. -/
theorem enumerates_take (taken : List String) (k : Nat) :
    Enumerates taken ((supply taken).after 0 k) ((supply taken).take 0 k) := by
  obtain ⟨tried, hle, hafter, htake⟩ := exists_take_eq taken 0 k
  rw [Nat.zero_add] at hafter htake
  refine ⟨?_, nodup_take taken 0 k, fun _ hname => notMem_of_mem_take hname, ?_⟩
  · rw [hafter]
    exact htake
  · rw [hafter, Supply.length_take]
    exact hle

/-- There is one search for the next free name, and the supply gives what it ends at. -/
theorem exists_search_supply (taken : List String) (n : Nat) :
    ∃ tries number,
      (∀ tries' number', Search taken n tries' number' ↔ tries' = tries ∧ number' = number) ∧
      tries ≤ taken.toFinset.card + 1 ∧ supply taken n = (nameOf number, number) := by
  obtain ⟨tries, h⟩ := exists_search_nextFree taken n
  refine ⟨tries, nextFree taken taken.length n, fun tries' number' => ?_, h.tries_le, rfl⟩
  constructor
  · exact h.unique
  · rintro ⟨rfl, rfl⟩
    exact h

end Fresh

namespace Legalizer

/-- The names under which the calls of the destination are hoisted, in order. -/
def Matcher.hoistedNames (m : Matcher) : List String :=
  m.destination.flatMap fun p => p.2.hoisted.map (·.name)

/-- Flattening definitions asks the supply for one name for each application that is nested in
another. -/
theorem names_flattenAll {σ : Type} (next : Supply σ) (ds : List Definition) (s : σ) :
    ((Matcher.flattenAll next ds s).flatMap fun p => p.2.hoisted.map (·.name)) =
      next.take s (nested ds) := by
  induction ds generalizing s with
  | nil => rfl
  | cons d ds ih =>
      rw [flattenAll_cons, List.flatMap_cons, ih, names_definition, after_definition,
        ← Supply.take_add]
      rfl

/-- **Fresh names do not run out, and none is given twice.**  Whatever names are taken, there is one
search for a free name from each number.  It ends after as many tries as there are taken names, and
one more, at most, and the supply gives the name that it ends at.  For any number of requests the
names given are `tmp1`, `tmp2` and so on, in order, without exactly those that are taken.  The calls
hoisted in an arm get them from the beginning, one for each application that a definition of the
destination nests in another, and the names of the variables of the rule are taken. -/
theorem hoisted_names_enumerated :
    (∀ (taken : List String) (n : Nat), ∃ tries number,
      (∀ tries' number',
        Fresh.Search taken n tries' number' ↔ tries' = tries ∧ number' = number) ∧
      tries ≤ taken.toFinset.card + 1 ∧
      Fresh.supply taken n = (Fresh.nameOf number, number)) ∧
    (∀ (taken : List String) (k : Nat), ((Fresh.supply taken).take 0 k).length = k ∧
      Fresh.Enumerates taken ((Fresh.supply taken).after 0 k) ((Fresh.supply taken).take 0 k)) ∧
    ∀ m : Matcher, m.hoistedNames =
      (Fresh.supply (m.rule.roles.vars.map (·.name))).take 0 (nested m.rule.dst.defs) := by
  refine ⟨Fresh.exists_search_supply, ?_, ?_⟩
  · intro taken k
    exact ⟨Supply.length_take _ 0 k, Fresh.enumerates_take taken k⟩
  · intro m
    exact names_flattenAll _ m.rule.dst.defs 0

/-- Two of the taken names are passed, in whatever order they are taken. -/
example : (Fresh.supply ["tmp4", "x", "tmp2"]).take 0 3 = ["tmp1", "tmp3", "tmp5"] := by decide

end Legalizer

end Isaforge
