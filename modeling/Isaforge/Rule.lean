import Isaforge.Role

/-!
# Replacement rules

A rule says that the code its source pattern describes may be replaced by the code its
destination pattern describes.  `Rule.close` makes a rule of two patterns.  It accepts them
when

* the source has a definition;
* a variable used in the source is defined by an earlier definition of the source or nowhere:
  then it is an input of the rule;
* a variable used in the destination is defined by an earlier definition of the destination or
  is an input of the rule;
* no two variables of the rule share a name.

A rejected rule is reported at its site, the place where it was declared, as messages are to
show it.  `Rule.build` runs a script that adds definitions to both patterns and closes the
rule; a `RuleGroup` collects the rules that one legalization pass applies, and a rejected rule
never reaches it.
-/

namespace Isaforge

/-- A closed rule: its patterns, its inputs in order of first use, and the roles of its
variables. -/
structure Rule where
  site : String
  src : Pattern
  dst : Pattern
  inputs : List Var
  roles : Roles
deriving Repr

namespace Rule

/-- The inputs of a rule of the two patterns, in order of first use. -/
def checkInputs (src dst : Pattern) : Except Error (List Var) :=
  let inputs := distinct src.openUses
  let foreign := dst.openUses.filter (· ∉ inputs)
  if src.isEmpty then .error (.emptyPattern .source)
  else
    match (src.openUses ++ foreign).find? (fun v => src.defines v || dst.defines v) with
    | some v => .error (.inputDefined v.name)
    | none =>
      if foreign.isEmpty then .ok inputs
      else .error (.extraInputs (", ".intercalate ((distinct foreign).map (·.name))))

/-- No two variables share a name. -/
def checkNames (roles : Roles) : Except Error Unit :=
  match firstRepeat? [] (roles.vars.map (·.name)) with
  | some name => .error (.ambiguousName name)
  | none => .ok ()

/-- The rule of the two patterns. -/
def close (site : String) (src dst : Pattern) : Except Error Rule :=
  Except.mapError (.rule site) do
    let inputs ← checkInputs src dst
    let roles := Roles.classify src.defs dst.defs
    checkNames roles
    return ⟨site, src, dst, inputs, roles⟩

/-- The role of `v` in the rule. -/
def role? (r : Rule) (v : Var) : Option Role :=
  r.roles.role? v

/-- `v` has the role in the rule. -/
def hasRole (r : Rule) (role : Role) (v : Var) : Bool :=
  r.role? v = some role

/-- `v` is an output of the rule: defined in the source and again in the destination. -/
def isOutput (r : Rule) (v : Var) : Bool :=
  r.hasRole .output v

/-- Whether `v` is an output of the rule, for a caller that takes `v` to be a variable of it. -/
def expectOutput (r : Rule) (v : Var) : Except Error Bool :=
  (r.roles.expect v).map (· = .output)

/-- The rule as text. -/
def text (r : Rule) : String :=
  r.src.text ++ " => " ++ r.dst.text

/-! ### Building rules -/

/-- The patterns of a rule that is being built. -/
structure Draft where
  src : Pattern := ⟨.source, []⟩
  dst : Pattern := ⟨.destination, []⟩
deriving Repr

/-- What builds a rule: it may add definitions to both patterns and may fail. -/
abbrev Script := StateT Draft (Except Error) Unit

/-- Add the definition of `outputs` as `value` to the source. -/
def source (outputs : List Var) (value : Expr) : Script := do
  let draft ← get
  set { draft with src := ← draft.src.define outputs value }

/-- Add the definition of `outputs` as `value` to the destination. -/
def destination (outputs : List Var) (value : Expr) : Script := do
  let draft ← get
  set { draft with dst := ← draft.dst.define outputs value }

/-- The rule that the script builds. -/
def build (site : String) (script : Script) : Except Error Rule :=
  match script.run {} with
  | .error cause => .error (.rule site cause)
  | .ok (_, draft) => close site draft.src draft.dst

end Rule

/-- The rules of one legalization pass. -/
structure RuleGroup where
  name : String
  doc : String
  rules : List Rule := []
deriving Repr

namespace RuleGroup

/-- The group with the rule that the script builds added. -/
def legalize (g : RuleGroup) (site : String) (script : Rule.Script) : Except Error RuleGroup := do
  return { g with rules := g.rules ++ [← Rule.build site script] }

end RuleGroup

end Isaforge
