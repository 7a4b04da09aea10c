/-!
# Repeated and distinct elements of a list

`firstRepeat? seen xs` is the first element of `xs` that was met before, in `seen` or earlier
in `xs`.  `distinctBy key xs` keeps of the elements with one key the first.
-/

namespace Isaforge

variable {α κ : Type}

/-- The first element of the list that is in `seen` or occurs earlier in the list. -/
def firstRepeat? [DecidableEq α] (seen : List α) : List α → Option α
  | [] => none
  | x :: xs => if x ∈ seen then some x else firstRepeat? (x :: seen) xs

/-- The first elements of each key, in the order of the list. -/
def distinctBy [DecidableEq κ] (key : α → κ) : List α → List α
  | [] => []
  | x :: xs => x :: (distinctBy key xs).filter (key · ≠ key x)

/-- The distinct elements of the list, in the order of their first occurrences. -/
def distinct [DecidableEq α] (xs : List α) : List α :=
  distinctBy id xs

end Isaforge
