import Isaforge.Proofs.Flattening

/-!
# Rendering — an application and its call say the same

Nested code is written by two printers: `Expr.text` writes the expressions of a rule, and
`CallArg.text` the calls that generated code is made from.  The call of an application is a tree of
another type, and `CallArg.Mirrors` says node by node that it has the same shape.

* `CallArg.mirrors_iff`: exactly one argument mirrors an expression, the one that `CallArg.ofExpr`
  makes.
* `CallArg.Mirrors.text_eq`: an argument that mirrors an expression is written like it.
* `Call.application_mirrored`: **the call of an application mirrors it and is written like it.**
-/

namespace Isaforge

/-- Lists of one length agree under two functions when their elements do, place by place. -/
theorem map_eq_map_of_getElem? {α β γ : Type} {f : α → γ} {g : β → γ} {as : List α} {bs : List β}
    (hlength : as.length = bs.length)
    (h : ∀ (n : Nat) (a : α) (b : β), as[n]? = some a → bs[n]? = some b → f a = g b) :
    as.map f = bs.map g := by
  refine List.ext_getElem (by simpa using hlength) fun n hn hn' => ?_
  rw [List.length_map] at hn hn'
  rw [List.getElem_map, List.getElem_map]
  exact h n _ _ (List.getElem?_eq_getElem hn) (List.getElem?_eq_getElem hn')

namespace CallArg

variable {e : Expr} {a : CallArg}

/-- The argument has the shape of the expression, node by node.  A name stands where a variable of
that name stands.  A call stands where an application does: it is one of the same instruction, with
the same type arguments, its operation is written like the head, and its arguments, as many and in
the same order, mirror those of the application. -/
inductive Mirrors : CallArg → Expr → Prop where
  | name (v : Var) : Mirrors (.name v.name) (.var v)
  | call {op : Operation} {as : List CallArg} {head : Head} {es : List Expr} :
      op.inst = head.inst → op.types = head.types → op.text = head.text → as.length = es.length →
      (∀ (n : Nat) (a : CallArg) (e : Expr), as[n]? = some a → es[n]? = some e → Mirrors a e) →
      Mirrors (.call op as) (.app head es)

/-- The argument that is made of an expression mirrors it. -/
theorem mirrors_ofExpr (e : Expr) : Mirrors (ofExpr e) e := by
  induction e with
  | var v => exact .name v
  | app head es ih =>
      rw [ofExpr, ofExprs_eq_map]
      refine .call rfl rfl rfl (List.length_map _) fun n a e ha he => ?_
      rw [List.getElem?_map, he, Option.map_some] at ha
      obtain rfl := Option.some.inj ha
      exact ih e (List.mem_of_getElem? he)

/-- Nothing else does. -/
theorem Mirrors.eq_ofExpr (h : Mirrors a e) : a = ofExpr e := by
  induction h with
  | name v => rfl
  | @call op as head es hinst htypes htext hlength _ ih =>
      have hop : op = head.operation := by
        obtain ⟨text, inst, types⟩ := op
        obtain rfl : inst = head.inst := hinst
        obtain rfl : types = head.types := htypes
        obtain rfl : text = head.text := htext
        rfl
      have hargs : as.map id = es.map ofExpr := map_eq_map_of_getElem? hlength ih
      rw [List.map_id] at hargs
      rw [ofExpr, ofExprs_eq_map, hop, hargs]

theorem mirrors_iff : Mirrors a e ↔ a = ofExpr e :=
  ⟨Mirrors.eq_ofExpr, fun h => h ▸ mirrors_ofExpr e⟩

/-- An argument is written like the expression that it mirrors. -/
theorem Mirrors.text_eq (h : Mirrors a e) : a.text = e.text := by
  induction h with
  | name v => rfl
  | @call op as head es _ _ htext hlength _ ih =>
      have hargs : as.map text = es.map Expr.text := map_eq_map_of_getElem? hlength ih
      rw [text, Expr.text, htext, textAll_eq_map, Expr.textAll_eq_map, hargs]

end CallArg

theorem Call.arg_inj {c c' : Call} : c.arg = c'.arg ↔ c = c' := by
  obtain ⟨op, as⟩ := c
  obtain ⟨op', as'⟩ := c'
  rw [arg, arg, CallArg.call.injEq, mk.injEq]

/-- **The call of an application says the same.**  It is the one call that has the shape of the
application, and it is written like the application. -/
theorem Call.application_mirrored (a : Application) :
    (ofApplication a).text = a.text ∧
      ∀ c : Call, c.arg.Mirrors a.expr ↔ c = ofApplication a := by
  refine ⟨(CallArg.mirrors_ofExpr a.expr).text_eq, fun c => ?_⟩
  have harg : CallArg.ofExpr a.expr = (ofApplication a).arg := rfl
  rw [CallArg.mirrors_iff, harg, arg_inj]

end Isaforge
