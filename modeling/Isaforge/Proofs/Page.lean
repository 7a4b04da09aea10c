import Isaforge.Source.Page
import Isaforge.Proofs.Emission

/-!
# Page — what an emission leaves on a page

An emission only adds lines to a page, and leaves its depth (`Page.lines_emit`, `Page.depth_emit`),
also when it breaks off.

Emissions know the depth of their lines beforehand.  A page that is written to as it goes does the
same: what is emitted one block deeper is emitted on the page one block deeper, and then the depth
is what it was, whether that broke off or not (`Page.emit_nested`).  What follows is written only
when nothing broke off (`Page.emit_append`).
-/

namespace Isaforge.Source

namespace Emission

/-- Behind an emission that broke off, nothing more is written. -/
theorem lines_append (e e' : Emission) :
    (e ++ e').lines = e.lines ++ if e.error?.isSome then [] else e'.lines := by
  induction e with
  | nil => rfl
  | cons x e ih =>
      cases x with
      | error cause => rfl
      | ok l =>
          rw [List.cons_append, lines, lines, ih, error?]
          rfl

/-- Of two emissions, the fault of the first one counts. -/
theorem error?_append (e e' : Emission) : (e ++ e').error? = e.error?.or e'.error? := by
  simp only [error?_eq_findSome?, List.findSome?_append]

theorem lines_nested (e : Emission) : e.nested.lines = e.lines.nested := by
  induction e with
  | nil => rfl
  | cons x e ih =>
      cases x with
      | error cause => rfl
      | ok l => exact congrArg (l.nested :: ·) ih

theorem error?_nested (e : Emission) : e.nested.error? = e.error? := by
  rw [error?_eq_findSome?, error?_eq_findSome?, nested, findSome?_map_map]

end Emission

namespace Page

/-- Lines are added at the end, indented to the depth of the page. -/
theorem lines_emit (p : Page) (e : Emission) :
    (p.emit e).1.lines = p.lines ++ e.lines.map (indented p.depth) :=
  rfl

theorem depth_emit (p : Page) (e : Emission) : (p.emit e).1.depth = p.depth :=
  rfl

/-- An emission that is a fault from the start leaves the page as it was. -/
theorem emit_error (p : Page) (cause : Error) : p.emit [.error cause] = (p, .error cause) := by
  simp [emit, write, Emission.lines, Emission.error?]

/-- Writing succeeds when the emission does not break off. -/
theorem snd_emit_eq_ok_iff {p : Page} {e : Emission} :
    (p.emit e).2 = .ok () ↔ e.error? = none := by
  rw [emit]
  cases e.error? <;> simp

/-- An emission that does not break off is written as code. -/
theorem emit_eq_ok_iff {p q : Page} {e : Emission} :
    p.emit e = (q, .ok ()) ↔ e.error? = none ∧ p.write e.lines = q := by
  cases h : e.error? with
  | none => simp [emit, h]
  | some cause => simp [emit, h]

/-- One emission after another: the second is emitted when the first does not break off. -/
theorem emit_append (p : Page) (e e' : Emission) :
    p.emit (e ++ e') =
      match p.emit e with
      | (q, .error cause) => (q, .error cause)
      | (q, .ok ()) => q.emit e' := by
  cases h : e.error? with
  | none => simp [emit, write, Emission.lines_append, Emission.error?_append, h]
  | some cause => simp [emit, write, Emission.lines_append, Emission.error?_append, h]

theorem indented_nested (depth : Nat) (l : Line) :
    indented depth l.nested = indented (depth + 1) l := by
  have hdepth : depth + (l.depth + 1) = depth + 1 + l.depth := by omega
  simp only [indented, Line.nested, hdepth]

/-- What is emitted one block deeper leaves the page at its depth, also when it breaks off. -/
theorem emit_nested (p : Page) (e : Emission) :
    p.emit e.nested =
      (p.deeper fun q => (q.emit e).1, (Page.emit { p with depth := p.depth + 1 } e).2) := by
  have hlines : e.nested.lines.map (indented p.depth) =
      e.lines.map (indented (p.depth + 1)) := by
    rw [Emission.lines_nested, Code.nested, List.map_map]
    exact List.map_congr_left fun l _ => indented_nested p.depth l
  simp only [emit, write, deeper, hlines, Emission.error?_nested]

end Page

end Isaforge.Source
