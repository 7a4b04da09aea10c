import Isaforge.Pattern

/-!
# The roles of a rule's variables

A variable of a rule has one of four roles, which only depends on where it is defined: in
neither pattern, in both, in the source alone or in the destination alone.  `Roles.classify`
lists every variable that occurs in two sequences of definitions once, with its role, in the
order of first appearance: the source before the destination, definition by definition, the
variables a definition defines before those it uses.
-/

namespace Isaforge

/-- The role of a variable in a rule. -/
inductive Role where
  | input
  | output
  | intermediate
  | temporary
deriving DecidableEq, Repr

namespace Role

/-- The role of a variable that is defined in the source, in the destination, in both or in
neither. -/
def ofDefined (inSource inDestination : Bool) : Role :=
  match inSource, inDestination with
  | false, false => .input
  | true, true => .output
  | true, false => .intermediate
  | false, true => .temporary

/-- The name of the role. -/
def text : Role → String
  | .input => "input"
  | .output => "output"
  | .intermediate => "intermediate"
  | .temporary => "temporary"

end Role

/-- How many variables have each role. -/
structure RoleCounts where
  inputs : Nat
  outputs : Nat
  intermediates : Nat
  temporaries : Nat
deriving DecidableEq, Repr

/-- The number of variables of any role. -/
def RoleCounts.total (c : RoleCounts) : Nat :=
  c.inputs + c.outputs + c.intermediates + c.temporaries

/-- The variables of a rule with their roles, in order of first appearance. -/
structure Roles where
  entries : List (Var × Role)
deriving DecidableEq, Repr

namespace Roles

/-- The variables of a sequence of definitions as they appear: for each definition those it
defines, then those it uses. -/
def appearances (defs : List Definition) : List Var :=
  defs.flatMap fun d => d.outputs ++ d.uses

/-- Every variable of the two sequences of definitions with its role. -/
def classify (src dst : List Definition) : Roles :=
  let inSource := Definition.outputsOf src
  let inDestination := Definition.outputsOf dst
  ⟨(distinct (appearances (src ++ dst))).map fun v =>
    (v, .ofDefined (v ∈ inSource) (v ∈ inDestination))⟩

/-- The variables, in order of first appearance. -/
def vars (r : Roles) : List Var :=
  r.entries.map (·.1)

/-- The role of `v`. -/
def role? (r : Roles) (v : Var) : Option Role :=
  r.entries.lookup v

/-- The role of `v`, for a caller that takes `v` to be a variable of the rule. -/
def expect (r : Roles) (v : Var) : Except Error Role :=
  match r.role? v with
  | some role => .ok role
  | none => .error (.unknownVariable v.name)

/-- The number of variables. -/
def size (r : Roles) : Nat :=
  r.entries.length

/-- The number of variables of the role. -/
def count (r : Roles) (role : Role) : Nat :=
  r.entries.countP (·.2 = role)

/-- How many variables have each role. -/
def counts (r : Roles) : RoleCounts :=
  ⟨r.count .input, r.count .output, r.count .intermediate, r.count .temporary⟩

end Roles

end Isaforge
