import Isaforge.Rule

/-!
# Calls

A call is an application as generated code sees it: variables have become names, and the
instruction with its type arguments is an operation with a text.  `Call.ofApplication` takes an
application there, keeping its shape.

Generated code cannot nest calls.  `Call.flatten` takes the nested calls out, innermost first
and left to right, binds each to a name of a supply, and leaves a sequence of flat calls, whose
arguments are names only: the hoisted ones with their names, then the call itself.
-/

namespace Isaforge

/-- The operation of a call: an instruction with its type arguments, and their text. -/
structure Operation where
  text : String
  inst : InstId
  types : List ValueType
deriving DecidableEq, Repr

/-- The operation that applies a head. -/
def Head.operation (h : Head) : Operation :=
  ⟨h.text, h.inst, h.types⟩

/-- An argument of a call: a name, or a nested call. -/
inductive CallArg where
  | name (name : String)
  | call (op : Operation) (args : List CallArg)
deriving Repr

/-- A call of an operation. -/
structure Call where
  op : Operation
  args : List CallArg
deriving Repr

namespace CallArg

mutual

/-- The argument as text. -/
def text : CallArg → String
  | .name n => n
  | .call op args => op.text ++ "(" ++ ", ".intercalate (textAll args) ++ ")"

/-- The texts of the arguments. -/
def textAll : List CallArg → List String
  | [] => []
  | a :: as => a.text :: textAll as

end

mutual

/-- An expression as an argument. -/
def ofExpr : Expr → CallArg
  | .var v => .name v.name
  | .app head args => .call head.operation (ofExprs args)

/-- Expressions as arguments. -/
def ofExprs : List Expr → List CallArg
  | [] => []
  | e :: es => ofExpr e :: ofExprs es

end

theorem textAll_eq_map (as : List CallArg) : textAll as = as.map text := by
  induction as with
  | nil => rfl
  | cons a as ih => simp [textAll, ih]

theorem ofExprs_eq_map (es : List Expr) : ofExprs es = es.map ofExpr := by
  induction es with
  | nil => rfl
  | cons e es ih => simp [ofExprs, ih]

end CallArg

/-- A call whose arguments are all names. -/
structure FlatCall where
  op : Operation
  args : List String
deriving DecidableEq, Repr

/-- The flat call as text. -/
def FlatCall.text (c : FlatCall) : String :=
  c.op.text ++ "(" ++ ", ".intercalate c.args ++ ")"

/-- The flat call as a call. -/
def FlatCall.asCall (c : FlatCall) : Call :=
  ⟨c.op, c.args.map .name⟩

/-- A flat call whose result has a name. -/
structure NamedCall where
  name : String
  call : FlatCall
deriving DecidableEq, Repr

/-- A call without nesting: the calls hoisted out of it, in order, and what is left. -/
structure FlatSequence where
  hoisted : List NamedCall
  top : FlatCall
deriving DecidableEq, Repr

/-- The calls of the sequence, in order. -/
def FlatSequence.calls (s : FlatSequence) : List FlatCall :=
  s.hoisted.map (·.call) ++ [s.top]

/-- A supply of names: each step gives a name and the state to go on with. -/
abbrev Supply (σ : Type) := σ → String × σ

namespace CallArg

variable {σ : Type}

mutual

/-- Hoist the calls out of an argument: the hoisted calls, the name left in its place, and the
state of the supply. -/
def hoist (next : Supply σ) : CallArg → σ → List NamedCall × String × σ
  | .name n, s => ([], n, s)
  | .call op args, s =>
    let (hoisted, names, s) := hoistAll next args s
    let (n, s) := next s
    (hoisted ++ [⟨n, op, names⟩], n, s)

/-- Hoist the calls out of the arguments, from left to right. -/
def hoistAll (next : Supply σ) : List CallArg → σ → List NamedCall × List String × σ
  | [], s => ([], [], s)
  | a :: as, s =>
    let (hoisted, n, s) := hoist next a s
    let (hoisted', names, s) := hoistAll next as s
    (hoisted ++ hoisted', n :: names, s)

end

end CallArg

namespace Call

/-- The application as a call. -/
def ofApplication (a : Application) : Call :=
  ⟨a.head.operation, CallArg.ofExprs a.args⟩

/-- The call as an argument of another. -/
def arg (c : Call) : CallArg :=
  .call c.op c.args

/-- The call as text. -/
def text (c : Call) : String :=
  c.arg.text

/-- The call without nesting, and the state of the supply after the names it took. -/
def flatten {σ : Type} (next : Supply σ) (c : Call) (s : σ) : FlatSequence × σ :=
  let (hoisted, names, s) := CallArg.hoistAll next c.args s
  (⟨hoisted, c.op, names⟩, s)

end Call

end Isaforge
