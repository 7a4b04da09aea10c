import Mathlib.Data.List.Infix
import Isaforge.Source.Code
import Isaforge.Proofs.Outcome

/-!
# Emission — code that may break off

An emission without an error is its lines (`Emission.eq_ofCode`).  So code that is emitted as part
of it, whatever the blocks around it, is part of these lines (`Emission.infix_lines`).

The error of an emission is the first fault of its elements (`Emission.error?_eq_findSome?`), and
blocks have no faults of their own (`Emission.findSome?_block`).
-/

namespace Isaforge.Source.Emission

/-! ### The error of an emission -/

/-- An emission breaks off at the first fault in it. -/
theorem error?_eq_findSome? (e : Emission) : e.error? = e.findSome? fault? := by
  induction e with
  | nil => rfl
  | cons x e ih =>
      cases x with
      | error cause => rfl
      | ok l =>
          rw [error?, ih]
          rfl

/-- Code has no fault. -/
theorem findSome?_ofCode (c : Code) : (ofCode c).findSome? fault? = none :=
  findSome?_map_ok c

/-- A block breaks off where its body does. -/
theorem findSome?_block (opening : String) (body : Emission) (closing : String) :
    (block opening body closing).findSome? fault? = body.findSome? fault? := by
  rw [block, List.findSome?_append, List.findSome?_append, findSome?_ofCode, findSome?_ofCode,
    nested, findSome?_map_map, Option.none_or, Option.or_none]

/-! ### Code that does not break off -/

/-- An emission that does not break off is the code of its lines. -/
theorem eq_ofCode {e : Emission} (h : e.error? = none) : e = ofCode e.lines := by
  induction e with
  | nil => rfl
  | cons x e ih =>
      cases x with
      | error cause => cases h
      | ok l =>
          rw [lines, ofCode, List.map_cons]
          exact congrArg _ (ih h)

/-- Code that is part of an emission without an error is part of its lines. -/
theorem infix_lines {e : Emission} {c : Code} (h : e.error? = none) (hc : ofCode c <:+: e) :
    c <:+: e.lines := by
  rw [eq_ofCode h] at hc
  have hinjective : Function.Injective (Except.ok : Line → Except Error Line) :=
    fun _ _ h => Except.ok.inj h
  obtain ⟨c', hc', hmap⟩ := List.infix_map_iff.mp hc
  rwa [List.map_injective_iff.mpr hinjective hmap]

theorem lines_ofCode (c : Code) : (ofCode c).lines = c := by
  induction c with
  | nil => rfl
  | cons l c ih => exact congrArg (l :: ·) ih

theorem ofCode_append (c c' : Code) : ofCode (c ++ c') = ofCode c ++ ofCode c' :=
  List.map_append ..

theorem nested_ofCode (c : Code) : nested (ofCode c) = ofCode c.nested := by
  simp [nested, ofCode, Code.nested, Except.map]

theorem block_ofCode (opening : String) (c : Code) (closing : String) :
    block opening (ofCode c) closing = ofCode (Code.block opening c closing) := by
  rw [block, nested_ofCode, Code.block, ofCode_append, ofCode_append]

/-- The body of a block is part of it, one block deeper. -/
theorem nested_infix_block {e body : Emission} (opening closing : String) (h : e <:+: body) :
    nested e <:+: block opening body closing :=
  (h.map _).trans (List.infix_append _ _ _)

end Isaforge.Source.Emission
