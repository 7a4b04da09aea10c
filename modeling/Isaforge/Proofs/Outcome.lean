import Isaforge.Error

/-!
# Outcome — results that may be errors

* `bind_eq_ok_iff`, `map_eq_ok_iff`: when what goes on from a result succeeds.
* `exists_map_ok`: a list of outcomes without a fault is one of results.
-/

namespace Isaforge

/-- A sequence of two steps succeeds when both do. -/
theorem bind_eq_ok_iff {ε α β : Type} {x : Except ε α} {f : α → Except ε β} {b : β} :
    x >>= f = .ok b ↔ ∃ a, x = .ok a ∧ f a = .ok b := by
  cases x with
  | error e => exact ⟨fun h => (nomatch h), fun ⟨_, h, _⟩ => (nomatch h)⟩
  | ok a => exact ⟨fun h => ⟨a, rfl, h⟩, fun ⟨_, h, h'⟩ => by cases h; exact h'⟩

theorem map_eq_ok_iff {α β : Type} {f : α → β} {e : Except Error α} {b : β} :
    e.map f = .ok b ↔ ∃ a, e = .ok a ∧ f a = b := by
  cases e with
  | error cause => exact ⟨fun h => (nomatch h), fun ⟨_, h, _⟩ => (nomatch h)⟩
  | ok a => exact ⟨fun h => ⟨a, rfl, Except.ok.inj h⟩, fun ⟨_, h, h'⟩ => by cases h; rw [← h']; rfl⟩

/-- The fault of an outcome. -/
def fault? {α : Type} : Except Error α → Option Error
  | .ok _ => none
  | .error e => some e

theorem findSome?_map_ok {α : Type} (as : List α) :
    (as.map (Except.ok (ε := Error))).findSome? fault? = none :=
  List.findSome?_eq_none_iff.mpr fun e he => by
    obtain ⟨a, -, rfl⟩ := List.mem_map.mp he
    rfl

/-- Mapping the result of a step leaves its fault. -/
theorem fault?_map {α β : Type} (f : α → β) (e : Except Error α) :
    fault? (e.map f) = fault? e := by
  cases e <;> rfl

theorem findSome?_map_map {α β : Type} (f : α → β) (es : List (Except Error α)) :
    (es.map (·.map f)).findSome? fault? = es.findSome? fault? := by
  rw [List.findSome?_map]
  exact congrArg es.findSome? (funext (fault?_map f))

/-- A list without faults is one of results. -/
theorem exists_map_ok {α : Type} {es : List (Except Error α)} (h : es.findSome? fault? = none) :
    ∃ as : List α, es = as.map .ok := by
  induction es with
  | nil => exact ⟨[], rfl⟩
  | cons e es ih =>
      cases e with
      | error cause => cases h
      | ok a =>
          obtain ⟨as, rfl⟩ := ih h
          exact ⟨a :: as, rfl⟩

/-- The elements of a list of results. -/
theorem eq_filterMap_of_map_ok {α : Type} {es : List (Except Error α)} {as : List α}
    (h : es = as.map .ok) : as = es.filterMap Except.toOption := by
  rw [h, List.filterMap_map]
  exact List.filterMap_some.symm

end Isaforge
