import Isaforge.Call

/-!
# Fresh names

The names `tmp1`, `tmp2`, … without those of a list of taken ones, as a supply.  Its state is
the number of the last name given.  Going on from there, each taken name is met once at most,
so as many tries as there are taken names, and one more, find a name that is free.
-/

namespace Isaforge.Fresh

/-- The name of number `n`. -/
def nameOf (n : Nat) : String :=
  "tmp" ++ toString n

/-- The number of the first name after number `n` that is not taken, among the next `tries`
names; the one after these when all are taken. -/
def nextFree (taken : List String) : (tries n : Nat) → Nat
  | 0, n => n + 1
  | tries + 1, n =>
    if nameOf (n + 1) ∈ taken then nextFree taken tries (n + 1) else n + 1

/-- The supply of the names that are not taken. -/
def supply (taken : List String) : Supply Nat := fun n =>
  let n := nextFree taken taken.length n
  (nameOf n, n)

end Isaforge.Fresh
