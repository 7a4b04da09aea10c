import Isaforge.Catalog

/-!
# Expressions of rules

A rule relates variables by instruction applications.  A variable is its identity together with
its name: two variables of one name are different when their identities are.  An application
applies a `Head`, an instruction with its type arguments, to expressions, which are variables
or applications again, nested to any depth.

`Expr.vars` lists the variables of an expression from left to right, as often as they occur.
`Application.make` puts an application together and refuses it when its instruction is unknown,
bound twice, bound to types it does not admit, or given the wrong number of arguments, in this
order.
-/

namespace Isaforge

/-- A variable of a rule. -/
structure Var where
  id : Nat
  name : String
deriving DecidableEq, Repr

/-- Variables are ordered by identity, that is, by creation. -/
def Var.order (v w : Var) : Ordering :=
  compare v.id w.id

/-- What an application applies: an instruction, under the name its catalog gave it, and its
type arguments. -/
structure Head where
  inst : InstId
  name : String
  types : List ValueType
deriving DecidableEq, Repr

/-- The name of the instruction, followed by the type arguments: `iadd.i32`. -/
def Head.text (h : Head) : String :=
  h.name ++ String.join (h.types.map fun t => "." ++ t.text)

/-- A variable, or a head applied to expressions. -/
inductive Expr where
  | var (v : Var)
  | app (head : Head) (args : List Expr)
deriving Repr

namespace Expr

mutual

/-- The variables of the expression from left to right, as often as they occur. -/
def vars : Expr → List Var
  | .var v => [v]
  | .app _ args => varsAll args

/-- The variables of the expressions from left to right, as often as they occur. -/
def varsAll : List Expr → List Var
  | [] => []
  | e :: es => e.vars ++ varsAll es

end

mutual

/-- The expression as text: the name of a variable, or a head and its arguments. -/
def text : Expr → String
  | .var v => v.name
  | .app head args => head.text ++ "(" ++ ", ".intercalate (textAll args) ++ ")"

/-- The texts of the expressions. -/
def textAll : List Expr → List String
  | [] => []
  | e :: es => e.text :: textAll es

end

mutual

/-- Whether two expressions are the same. -/
def decEq : (a b : Expr) → Decidable (a = b)
  | .var v, .var w =>
    if h : v = w then .isTrue (by rw [h]) else .isFalse (by simpa using h)
  | .app head args, .app head' args' =>
    if h : head = head' then
      match decEqAll args args' with
      | .isTrue h' => .isTrue (by rw [h, h'])
      | .isFalse h' => .isFalse (by simp [h'])
    else .isFalse (by simp [h])
  | .var _, .app _ _ => .isFalse (by simp)
  | .app _ _, .var _ => .isFalse (by simp)

/-- Whether two lists of expressions are the same. -/
def decEqAll : (as bs : List Expr) → Decidable (as = bs)
  | [], [] => .isTrue rfl
  | a :: as, b :: bs =>
    match decEq a b, decEqAll as bs with
    | .isTrue h, .isTrue h' => .isTrue (by rw [h, h'])
    | .isFalse h, _ => .isFalse (by simp [h])
    | _, .isFalse h => .isFalse (by simp [h])
  | [], _ :: _ => .isFalse (by simp)
  | _ :: _, [] => .isFalse (by simp)

end

instance : DecidableEq Expr := decEq

/-- The variable that the expression is. -/
def var? : Expr → Option Var
  | .var v => some v
  | .app _ _ => none

theorem varsAll_eq_flatMap (es : List Expr) : varsAll es = es.flatMap vars := by
  induction es with
  | nil => rfl
  | cons e es ih => simp [varsAll, ih]

theorem textAll_eq_map (es : List Expr) : textAll es = es.map text := by
  induction es with
  | nil => rfl
  | cons e es ih => simp [textAll, ih]

end Expr

/-- A head applied to expressions. -/
structure Application where
  head : Head
  args : List Expr
deriving DecidableEq, Repr

namespace Application

/-- The application as an expression. -/
def expr (a : Application) : Expr :=
  .app a.head a.args

/-- The variables of the application from left to right, as often as they occur. -/
def vars (a : Application) : List Var :=
  a.expr.vars

/-- The application as text. -/
def text (a : Application) : String :=
  a.expr.text

/-- The type arguments of an application of `ref` that is given `types`: a bound reference
brings its own and admits no others. -/
def typeArguments (name : String) (ref : InstRef) (types : List ValueType) :
    Except Error (List ValueType) :=
  match ref with
  | .unbound _ => .ok types
  | .bound _ own => if types.isEmpty then .ok own else .error (.alreadyBound name)

/-- The application of `ref`, with the type arguments `types`, to `args`. -/
def make (c : Catalog) (ref : InstRef) (types : List ValueType) (args : List Expr) :
    Except Error Application :=
  match c.signature? ref.id with
  | none => .error (.unknownInstruction ref.id.index)
  | some s => do
    let types ← typeArguments s.name ref types
    c.checkBinding ref.id types
    if args.length ≠ s.arity then throw (.arityMismatch s.name s.arity args.length)
    return ⟨⟨ref.id, s.name, types⟩, args⟩

end Application

end Isaforge
