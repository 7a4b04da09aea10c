import Isaforge.Expr

/-!
# Definitions and patterns

A definition binds variables, at least one, to the results of an application.  A pattern is a
sequence of definitions for one side of a rule in which no variable is defined twice:
`Pattern.push` adds a definition or refuses it and leaves the pattern as it was.
-/

namespace Isaforge

/-- Variables bound to the results of an application. -/
structure Definition where
  outputs : List Var
  value : Application
deriving DecidableEq, Repr

namespace Definition

/-- The definition of `outputs` as `value`, which has to be an application. -/
def make (outputs : List Var) (value : Expr) : Except Error Definition :=
  match value with
  | .var v => .error (.notAnApplication v.name)
  | .app head args =>
    if outputs.isEmpty then .error (.noOutputs value.text)
    else .ok ⟨outputs, head, args⟩

/-- The definition defines `v`. -/
def defines (d : Definition) (v : Var) : Bool :=
  v ∈ d.outputs

/-- The variables used in the value, from left to right, as often as they occur. -/
def uses (d : Definition) : List Var :=
  d.value.vars

/-- Names as a binding writes them: one alone as it is, any other number in parentheses. -/
def bindingText : List String → String
  | [name] => name
  | names => "(" ++ ", ".intercalate names ++ ")"

/-- The definition as text: `a << iadd(x, y)`. -/
def text (d : Definition) : String :=
  bindingText (d.outputs.map (·.name)) ++ " << " ++ d.value.text

/-- The variables that a sequence of definitions defines, in order. -/
def outputsOf (defs : List Definition) : List Var :=
  defs.flatMap (·.outputs)

/-- The variables that a sequence of definitions uses and no earlier definition of it, nor
`earlier`, defines: from left to right, as often as they occur. -/
def openUses (earlier : List Var) : List Definition → List Var
  | [] => []
  | d :: ds => d.uses.filter (· ∉ earlier) ++ openUses (earlier ++ d.outputs) ds

end Definition

/-- The definitions of one side of a rule, in order. -/
structure Pattern where
  side : Side
  defs : List Definition := []
deriving DecidableEq, Repr

namespace Pattern

/-- The variables that the definitions define, in order. -/
def outputs (p : Pattern) : List Var :=
  Definition.outputsOf p.defs

/-- A definition of the pattern defines `v`. -/
def defines (p : Pattern) (v : Var) : Bool :=
  v ∈ p.outputs

/-- The variables used where no earlier definition of the pattern defines them. -/
def openUses (p : Pattern) : List Var :=
  Definition.openUses [] p.defs

/-- The pattern has no definition. -/
def isEmpty (p : Pattern) : Bool :=
  p.defs.isEmpty

/-- The pattern with a definition added, unless it defines a variable a second time. -/
def push (p : Pattern) (d : Definition) : Except Error Pattern :=
  match firstRepeat? p.outputs d.outputs with
  | some v => .error (.duplicateDefinition v.name p.side)
  | none => .ok { p with defs := p.defs ++ [d] }

/-- The pattern with the definition of `outputs` as `value` added. -/
def define (p : Pattern) (outputs : List Var) (value : Expr) : Except Error Pattern := do
  p.push (← Definition.make outputs value)

/-- The pattern as text. -/
def text (p : Pattern) : String :=
  "; ".intercalate (p.defs.map (·.text))

end Pattern

end Isaforge
