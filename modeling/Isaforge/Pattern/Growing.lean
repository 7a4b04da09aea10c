import Isaforge.Pattern

/-!
# Growing patterns

A pattern to which definitions are pushed records which variables are defined, so that a push need
not go through the definitions that are there.  The push goes through the outputs of its
definition, from left to right, and is refused at the first that is recorded, or that stands among
the outputs before it.  When it has come to the end, it records the outputs and keeps the
definition.

A growing pattern is changed in place: whatever a push has changed by the time it is refused stays
changed.
-/

namespace Isaforge

/-- The definitions that were pushed, in order, and the variables recorded as defined. -/
structure GrowingPattern where
  side : Side
  defs : List Definition := []
  defined : List Var := []
deriving DecidableEq, Repr

namespace GrowingPattern

/-- The pattern that has grown. -/
def pattern (p : GrowingPattern) : Pattern :=
  ⟨p.side, p.defs⟩

/-- `v` is recorded as defined. -/
def defines (p : GrowingPattern) (v : Var) : Bool :=
  v ∈ p.defined

/-- What changes a growing pattern in place, and may be refused. -/
abbrev Change := ExceptT Error (StateM GrowingPattern) Unit

/-- Refuse the output `v` when it is recorded as defined or is one of the outputs before it. -/
def checkOutput (before : List Var) (v : Var) : Change := do
  let p ← get
  if p.defines v || v ∈ before then
    throw (.duplicateDefinition v.name p.side)

/-- Refuse the first output that is defined a second time, where `before` are outputs that were
gone through. -/
def checkOutputs (before : List Var) : List Var → Change
  | [] => pure ()
  | v :: vs => do
    checkOutput before v
    checkOutputs (before ++ [v]) vs

/-- Record variables as defined. -/
def record (vs : List Var) : Change :=
  modify fun p => { p with defined := p.defined ++ vs }

/-- Keep a definition. -/
def keep (d : Definition) : Change :=
  modify fun p => { p with defs := p.defs ++ [d] }

/-- Add a definition, unless it defines a variable a second time. -/
def push (d : Definition) : Change := do
  checkOutputs [] d.outputs
  record d.outputs
  keep d

/-- The answer to pushing `d`, and the pattern after it. -/
def pushed (p : GrowingPattern) (d : Definition) : Except Error Unit × GrowingPattern :=
  (push d).run.run p

end GrowingPattern

end Isaforge
