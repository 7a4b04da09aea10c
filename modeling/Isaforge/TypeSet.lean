import Isaforge.ValueType

/-!
# Type sets and type variables

A type variable ranges over a type set, which admits lanes by kind and vectors or scalars
only.
-/

namespace Isaforge

/-- A set of value types: the lane kinds admitted, and whether vectors of them are. -/
structure TypeSet where
  ints : Bool
  floats : Bool
  bools : Bool
  simd : Bool
deriving DecidableEq, Repr

namespace TypeSet

/-- The scalar integers. -/
def scalarInts : TypeSet := ⟨true, false, false, false⟩

/-- The scalar floats. -/
def scalarFloats : TypeSet := ⟨false, true, false, false⟩

/-- The scalar booleans. -/
def scalarBools : TypeSet := ⟨false, false, true, false⟩

/-- Every type. -/
def all : TypeSet := ⟨true, true, true, true⟩

/-- The set with the vectors of its lanes. -/
def withSimd (s : TypeSet) : TypeSet :=
  { s with simd := true }

/-- The set admits lanes of the kind. -/
def admits (s : TypeSet) : LaneKind → Bool
  | .int => s.ints
  | .float => s.floats
  | .bool => s.bools

/-- `t` is in the set. -/
def contains (s : TypeSet) (t : ValueType) : Bool :=
  (!t.isVector || s.simd) && s.admits t.lane.kind

end TypeSet

/-- A type variable of a polymorphic instruction. -/
structure TypeVar where
  name : String
  doc : String
  types : TypeSet
deriving DecidableEq, Repr

end Isaforge
