import Isaforge.Proofs.Evaluation
import Isaforge.Proofs.FreshNames

/-!
# Flattening — hoisted calls compute what the nested ones do

Under an interpretation of the operations and an environment of names, an argument has a value and
makes calls, as an expression does.  Hoisted calls are run instead, one after the other: each looks
its arguments up, and binds its name to its first result.

* `CallArg.hoist_run`: when the names the supply gives are new, running the hoisted calls makes
  the calls of the argument, in the same order, and binds the name left in its place to its
  value.  Everything looked up on the way is bound, and no name but the new ones changes.
* `CallArg.value_ofExpr`, `CallArg.calls_ofExpr`: an expression as an argument means the same.
* `CallArg.hoistAll_ofExprs_run`: so the calls hoisted out of the arguments of an application do
  what evaluating the arguments does.
-/

namespace Isaforge

variable {V : Type}

/-- The results that operations give. -/
abbrev Operations (V : Type) := Operation → List V → List V

/-- The operations, as what heads give. -/
def Operations.semantics (ops : Operations V) : Semantics V :=
  fun head => ops head.operation

/-- A call of a head, as a call of its operation. -/
def Head.call (c : Head × List V) : Operation × List V :=
  (c.1.operation, c.2)

/-- The operation and the number of arguments. -/
def FlatCall.shape (c : FlatCall) : Operation × Nat :=
  (c.op, c.args.length)

/-! ### Nested calls -/

namespace CallArg

/-- Induction on arguments: a call is reached from its own arguments. -/
@[induction_eliminator]
theorem nested_induction {motive : CallArg → Prop} (name : ∀ n, motive (.name n))
    (call : ∀ op args, (∀ a ∈ args, motive a) → motive (.call op args)) : ∀ a, motive a
  | .name n => name n
  | .call op args => call op args fun a _ => nested_induction name call a

mutual

/-- The names in the argument. -/
def names : CallArg → List String
  | .name n => [n]
  | .call _ args => namesAll args

/-- The names in the arguments. -/
def namesAll : List CallArg → List String
  | [] => []
  | a :: as => a.names ++ namesAll as

end

mutual

/-- The number of calls in the argument. -/
def nodes : CallArg → Nat
  | .name _ => 0
  | .call _ args => nodesAll args + 1

/-- The number of calls in the arguments. -/
def nodesAll : List CallArg → Nat
  | [] => 0
  | a :: as => a.nodes + nodesAll as

end

section

variable [Inhabited V]

mutual

/-- The value of the argument. -/
def value (ops : Operations V) (τ : String → V) : CallArg → V
  | .name n => τ n
  | .call op args => (ops op (values ops τ args)).headD default

/-- The values of the arguments. -/
def values (ops : Operations V) (τ : String → V) : List CallArg → List V
  | [] => []
  | a :: as => a.value ops τ :: values ops τ as

end

mutual

/-- The calls that evaluating the argument makes. -/
def calls (ops : Operations V) (τ : String → V) : CallArg → List (Operation × List V)
  | .name _ => []
  | .call op args => callsAll ops τ args ++ [(op, values ops τ args)]

/-- The calls that evaluating the arguments makes. -/
def callsAll (ops : Operations V) (τ : String → V) : List CallArg → List (Operation × List V)
  | [] => []
  | a :: as => a.calls ops τ ++ callsAll ops τ as

end

end

/-! ### Hoisting -/

variable {σ : Type} {next : Supply σ}

theorem hoist_call (op : Operation) (args : List CallArg) (s : σ) :
    hoist next (.call op args) s =
      ((hoistAll next args s).1 ++
          [⟨(next (hoistAll next args s).2.2).1, op, (hoistAll next args s).2.1⟩],
        next (hoistAll next args s).2.2) :=
  rfl

theorem hoistAll_cons (a : CallArg) (as : List CallArg) (s : σ) :
    hoistAll next (a :: as) s =
      ((hoist next a s).1 ++ (hoistAll next as (hoist next a s).2.2).1,
        (hoist next a s).2.1 :: (hoistAll next as (hoist next a s).2.2).2.1,
        (hoistAll next as (hoist next a s).2.2).2.2) :=
  rfl

theorem hoistAll_supply_of {as : List CallArg}
    (h : ∀ a ∈ as, ∀ s, (hoist next a s).1.map (·.name) = next.take s a.nodes ∧
      (hoist next a s).2.2 = next.after s a.nodes) (s : σ) :
    (hoistAll next as s).1.map (·.name) = next.take s (nodesAll as) ∧
      (hoistAll next as s).2.2 = next.after s (nodesAll as) := by
  induction as generalizing s with
  | nil => exact ⟨rfl, rfl⟩
  | cons a as ih =>
      obtain ⟨hnames, hstate⟩ := h a List.mem_cons_self s
      obtain ⟨hnames', hstate'⟩ :=
        ih (fun a' ha' => h a' (List.mem_cons_of_mem _ ha')) (next.after s a.nodes)
      rw [hoistAll_cons, hstate, nodesAll, Supply.take_add, Supply.after_add, List.map_append,
        hnames, hnames']
      exact ⟨rfl, hstate'⟩

/-- Hoisting takes one name of the supply for each call. -/
theorem hoist_supply (a : CallArg) (s : σ) :
    (hoist next a s).1.map (·.name) = next.take s a.nodes ∧
      (hoist next a s).2.2 = next.after s a.nodes := by
  induction a generalizing s with
  | name n => exact ⟨rfl, rfl⟩
  | call op args ih =>
      obtain ⟨hnames, hstate⟩ := hoistAll_supply_of ih s
      rw [hoist_call, hstate, nodes, Supply.take_add, Supply.after_add, List.map_append, hnames]
      exact ⟨rfl, rfl⟩

theorem hoistAll_supply (as : List CallArg) (s : σ) :
    (hoistAll next as s).1.map (·.name) = next.take s (nodesAll as) ∧
      (hoistAll next as s).2.2 = next.after s (nodesAll as) :=
  hoistAll_supply_of (fun a _ => hoist_supply a) s

mutual

/-- The operation and the number of arguments of each call, in the order they are made. -/
def shapes : CallArg → List (Operation × Nat)
  | .name _ => []
  | .call op args => shapesAll args ++ [(op, args.length)]

/-- The operation and the number of arguments of each call in the arguments. -/
def shapesAll : List CallArg → List (Operation × Nat)
  | [] => []
  | a :: as => a.shapes ++ shapesAll as

end

theorem length_hoistAll (next : Supply σ) (as : List CallArg) (s : σ) :
    (hoistAll next as s).2.1.length = as.length := by
  induction as generalizing s with
  | nil => rfl
  | cons a as ih => rw [hoistAll_cons, List.length_cons, ih, List.length_cons]

theorem hoistAll_shapes_of {as : List CallArg}
    (h : ∀ a ∈ as, ∀ s, (hoist next a s).1.map (·.call.shape) = a.shapes) (s : σ) :
    (hoistAll next as s).1.map (·.call.shape) = shapesAll as := by
  induction as generalizing s with
  | nil => rfl
  | cons a as ih =>
      have has := ih (fun a' ha' => h a' (List.mem_cons_of_mem _ ha')) (hoist next a s).2.2
      rw [hoistAll_cons, List.map_append, h a List.mem_cons_self s, has, shapesAll]

/-- Hoisting keeps the operations, the numbers of arguments and the order. -/
theorem hoist_shapes (a : CallArg) (s : σ) :
    (hoist next a s).1.map (·.call.shape) = a.shapes := by
  induction a generalizing s with
  | name n => rfl
  | call op args ih =>
      rw [hoist_call, List.map_append, hoistAll_shapes_of ih, shapes, List.map_singleton,
        FlatCall.shape, length_hoistAll]

theorem hoistAll_shapes (next : Supply σ) (as : List CallArg) (s : σ) :
    (hoistAll next as s).1.map (·.call.shape) = shapesAll as :=
  hoistAll_shapes_of (fun a _ => hoist_shapes a) s

/-- The calls of a flattened call are those of the call, in the order they are made. -/
theorem shapes_flatten (next : Supply σ) (c : Call) (s : σ) :
    (c.flatten next s).1.calls.map (·.shape) = c.arg.shapes := by
  have hhoisted := hoistAll_shapes next c.args s
  have htop := length_hoistAll next c.args s
  simp only [Call.flatten, FlatSequence.calls, List.map_append, List.map_map, List.map_singleton,
    FlatCall.shape, htop, Call.arg, shapes] at hhoisted ⊢
  rw [← hhoisted]
  rfl

/-- The name left in the place of an argument is in the argument, or new. -/
theorem mem_of_hoist (next : Supply σ) (a : CallArg) (s : σ) :
    (hoist next a s).2.1 ∈ a.names ∨ (hoist next a s).2.1 ∈ next.take s a.nodes := by
  cases a with
  | name n => exact .inl List.mem_cons_self
  | call op args =>
      refine .inr ?_
      rw [hoist_call, (hoistAll_supply args s).2, nodes, Supply.take_add]
      exact List.mem_append_right _ List.mem_cons_self

end CallArg

/-! ### Flat calls -/

/-- The names that are bound, with their values, and the calls made so far, in order. -/
structure FlatState (V : Type) where
  values : String → Option V
  log : List (Operation × List V)

/-- Run a call whose result has a name: look up its arguments, make the call, and bind the name to
its first result. -/
def NamedCall.run [Inhabited V] (ops : Operations V) (st : FlatState V) (c : NamedCall) :
    Option (FlatState V) := do
  let xs ← c.call.args.mapM st.values
  return ⟨Function.update st.values c.name (some ((ops c.call.op xs).headD default)),
    st.log ++ [(c.call.op, xs)]⟩

theorem mapM_eq_some_of_map {α β : Type} {f : α → Option β} {as : List α} {bs : List β}
    (h : as.map f = bs.map some) : as.mapM f = some bs := by
  induction as generalizing bs with
  | nil =>
      obtain rfl : bs = [] := by simpa using h.symm
      rfl
  | cons a as ih =>
      cases bs with
      | nil => simp at h
      | cons b bs =>
          obtain ⟨hhead, htail⟩ : f a = some b ∧ as.map f = bs.map some := by simpa using h
          rw [List.mapM_cons, hhead, ih htail]
          rfl

theorem mapM_eq_ok_map {ε α β : Type} {f : α → Except ε β} {g : α → β} {as : List α}
    (h : ∀ a ∈ as, f a = .ok (g a)) : as.mapM f = .ok (as.map g) := by
  induction as with
  | nil => rfl
  | cons a as ih =>
      rw [List.mapM_cons, h a List.mem_cons_self, ih fun b hb => h b (List.mem_cons_of_mem _ hb)]
      rfl

namespace CallArg

variable {σ : Type} [Inhabited V] {ops : Operations V} {next : Supply σ} {τ : String → V}

/-- What running the calls hoisted out of arguments does: it makes the calls `log`, binds the
names left to the values, and changes no name but the new ones. -/
def Runs (ops : Operations V) (hoisted : List NamedCall) (left new : List String) (xs : List V)
    (log : List (Operation × List V)) (st : FlatState V) : Prop :=
  ∃ values, hoisted.foldlM (NamedCall.run ops) st = some ⟨values, st.log ++ log⟩ ∧
    left.map values = xs.map some ∧ ∀ n ∉ new, values n = st.values n

theorem hoistAll_run_of {as : List CallArg}
    (h : ∀ a ∈ as, ∀ (s : σ) (st : FlatState V),
      (∀ n ∈ a.names, st.values n = some (τ n)) → (next.take s a.nodes).Nodup →
      (∀ n ∈ next.take s a.nodes, n ∉ a.names) →
      Runs ops (hoist next a s).1 [(hoist next a s).2.1] (next.take s a.nodes) [a.value ops τ]
        (a.calls ops τ) st)
    (s : σ) (st : FlatState V) (hbound : ∀ n ∈ namesAll as, st.values n = some (τ n))
    (hnd : (next.take s (nodesAll as)).Nodup)
    (hnew : ∀ n ∈ next.take s (nodesAll as), n ∉ namesAll as) :
    Runs ops (hoistAll next as s).1 (hoistAll next as s).2.1 (next.take s (nodesAll as))
      (values ops τ as) (callsAll ops τ as) st := by
  induction as generalizing s st with
  | nil => exact ⟨st.values, by rw [callsAll, List.append_nil]; rfl, rfl, fun _ _ => rfl⟩
  | cons a as ih =>
      rw [nodesAll, Supply.take_add] at hnd hnew
      rw [List.nodup_append'] at hnd
      obtain ⟨hnd₁, hnd₂, hdisjoint⟩ := hnd
      have hnew₁ : ∀ n ∈ next.take s a.nodes, n ∉ a.names ++ namesAll as :=
        fun n hn => hnew n (List.mem_append_left _ hn)
      have hnew₂ : ∀ n ∈ next.take (next.after s a.nodes) (nodesAll as),
          n ∉ a.names ++ namesAll as :=
        fun n hn => hnew n (List.mem_append_right _ hn)
      obtain ⟨values₁, hrun₁, hleft₁, hframe₁⟩ := h a List.mem_cons_self s st
        (fun n hn => hbound n (List.mem_append_left _ hn)) hnd₁
        fun n hn hn' => hnew₁ n hn (List.mem_append_left _ hn')
      -- the names of the other arguments are not new, so they are still bound
      have hbound₂ : ∀ n ∈ namesAll as, values₁ n = some (τ n) := by
        intro n hn
        have hold : n ∉ next.take s a.nodes :=
          fun hn' => hnew₁ n hn' (List.mem_append_right _ hn)
        rw [hframe₁ n hold]
        exact hbound n (List.mem_append_right _ hn)
      obtain ⟨values₂, hrun₂, hleft₂, hframe₂⟩ :=
        ih (fun a' ha' => h a' (List.mem_cons_of_mem _ ha')) (next.after s a.nodes)
          ⟨values₁, st.log ++ a.calls ops τ⟩ hbound₂ hnd₂
          fun n hn hn' => hnew₂ n hn (List.mem_append_right _ hn')
      -- nor does running their calls change the name left for the first argument
      have hkept : values₂ (hoist next a s).2.1 = values₁ (hoist next a s).2.1 := by
        refine hframe₂ _ ?_
        intro hn
        rcases mem_of_hoist next a s with hmem | hmem
        · exact hnew₂ _ hn (List.mem_append_left _ hmem)
        · exact hdisjoint hmem hn
      rw [hoistAll_cons, (hoist_supply a s).2, nodesAll, Supply.take_add]
      refine ⟨values₂, ?_, ?_, ?_⟩
      · rw [List.foldlM_append, hrun₁, callsAll, ← List.append_assoc]
        exact hrun₂
      · rw [List.map_cons, hkept, hleft₂, values, List.map_cons]
        rw [List.map_singleton, List.map_singleton] at hleft₁
        rw [List.singleton_inj.mp hleft₁]
      · intro n hn
        rw [List.mem_append, not_or] at hn
        exact (hframe₂ n hn.2).trans (hframe₁ n hn.1)

/-- **Hoisting an argument.**  When its names are bound and the names the supply gives are new, the
hoisted calls make the calls of the argument and bind the name left to its value. -/
theorem hoist_run (a : CallArg) (s : σ) (st : FlatState V)
    (hbound : ∀ n ∈ a.names, st.values n = some (τ n)) (hnd : (next.take s a.nodes).Nodup)
    (hnew : ∀ n ∈ next.take s a.nodes, n ∉ a.names) :
    Runs ops (hoist next a s).1 [(hoist next a s).2.1] (next.take s a.nodes) [a.value ops τ]
      (a.calls ops τ) st := by
  induction a generalizing s st with
  | name n =>
      refine ⟨st.values, ?_, ?_, fun _ _ => rfl⟩
      · rw [calls, List.append_nil]
        rfl
      · rw [List.map_singleton, List.map_singleton, value]
        exact List.singleton_inj.mpr (hbound n List.mem_cons_self)
  | call op args ih =>
      rw [nodes, Supply.take_add] at hnd hnew
      obtain ⟨values', hrun, hleft, hframe⟩ := hoistAll_run_of ih s st hbound
        (List.nodup_append'.mp hnd).1 fun n hn => hnew n (List.mem_append_left _ hn)
      rw [hoist_call, (hoistAll_supply args s).2, nodes, Supply.take_add]
      refine ⟨Function.update values' (next (next.after s (nodesAll args))).1
        (some ((ops op (values ops τ args)).headD default)), ?_, ?_, ?_⟩
      · have hargs := mapM_eq_some_of_map hleft
        rw [List.foldlM_append, hrun, calls, ← List.append_assoc]
        simp [NamedCall.run, hargs]
      · rw [List.map_singleton, Function.update_self, value]
        rfl
      · intro n hn
        rw [List.mem_append, not_or] at hn
        have hne : n ≠ (next (next.after s (nodesAll args))).1 :=
          fun h => hn.2 (h.symm ▸ List.mem_cons_self)
        rw [Function.update_of_ne hne, hframe n hn.1]

/-- Hoisting arguments, from left to right. -/
theorem hoistAll_run (as : List CallArg) (s : σ) (st : FlatState V)
    (hbound : ∀ n ∈ namesAll as, st.values n = some (τ n))
    (hnd : (next.take s (nodesAll as)).Nodup)
    (hnew : ∀ n ∈ next.take s (nodesAll as), n ∉ namesAll as) :
    Runs ops (hoistAll next as s).1 (hoistAll next as s).2.1 (next.take s (nodesAll as))
      (values ops τ as) (callsAll ops τ as) st :=
  hoistAll_run_of (fun a _ => hoist_run a) s st hbound hnd hnew

/-! ### Expressions as arguments -/

mutual

theorem names_ofExpr : ∀ e : Expr, (ofExpr e).names = e.vars.map (·.name)
  | .var _ => rfl
  | .app _ args => namesAll_ofExprs args

theorem namesAll_ofExprs : ∀ es : List Expr, namesAll (ofExprs es) = (Expr.varsAll es).map (·.name)
  | [] => rfl
  | e :: es => by
      rw [ofExprs, namesAll, names_ofExpr e, namesAll_ofExprs es, Expr.varsAll, List.map_append]

end

mutual

theorem nodes_ofExpr : ∀ e : Expr, (ofExpr e).nodes = e.nodes
  | .var _ => rfl
  | .app _ args => by rw [ofExpr, nodes, nodesAll_ofExprs args, Expr.nodes]

theorem nodesAll_ofExprs : ∀ es : List Expr, nodesAll (ofExprs es) = Expr.nodesAll es
  | [] => rfl
  | e :: es => by
      rw [ofExprs, nodesAll, nodes_ofExpr e, nodesAll_ofExprs es, Expr.nodesAll]

end

mutual

/-- The calls of an expression as an argument are its applications. -/
theorem exists_within_of_mem_shapes :
    ∀ (e : Expr) (p : Operation × Nat), p ∈ (ofExpr e).shapes →
      ∃ a : Application, a.Within e ∧ p = (a.head.operation, a.args.length)
  | .app head args, p, h => by
      rw [ofExpr, shapes, List.mem_append, List.mem_singleton] at h
      rcases h with h | rfl
      · obtain ⟨e, he, a, ha, rfl⟩ := exists_within_of_mem_shapesAll args p h
        exact ⟨a, .arg he ha, rfl⟩
      · exact ⟨⟨head, args⟩, .self, by rw [ofExprs_eq_map, List.length_map]⟩

theorem exists_within_of_mem_shapesAll :
    ∀ (es : List Expr) (p : Operation × Nat), p ∈ shapesAll (ofExprs es) →
      ∃ e ∈ es, ∃ a : Application, a.Within e ∧ p = (a.head.operation, a.args.length)
  | e :: es, p, h => by
      rw [ofExprs, shapesAll, List.mem_append] at h
      rcases h with h | h
      · exact ⟨e, List.mem_cons_self, exists_within_of_mem_shapes e p h⟩
      · obtain ⟨e', he', ha⟩ := exists_within_of_mem_shapesAll es p h
        exact ⟨e', List.mem_cons_of_mem _ he', ha⟩

end

mutual

/-- An expression as an argument calls its heads, in their order. -/
theorem shapes_ofExpr :
    ∀ e : Expr, (ofExpr e).shapes.map (·.1) = e.heads.map Head.operation
  | .var _ => rfl
  | .app head args => by
      rw [ofExpr, shapes, List.map_append, shapesAll_ofExprs args, Expr.heads, List.map_append]
      rfl

theorem shapesAll_ofExprs :
    ∀ es : List Expr, (shapesAll (ofExprs es)).map (·.1) = (Expr.headsAll es).map Head.operation
  | [] => rfl
  | e :: es => by
      rw [ofExprs, shapesAll, List.map_append, shapes_ofExpr e, shapesAll_ofExprs es,
        Expr.headsAll, List.map_append]

end

/-- The calls of a flattened application are those of its heads, in their order. -/
theorem ops_flatten (next : Supply σ) (a : Application) (s : σ) :
    ((Call.ofApplication a).flatten next s).1.calls.map (·.op) =
      a.expr.heads.map Head.operation := by
  have harg : (Call.ofApplication a).arg = ofExpr a.expr := rfl
  rw [← shapes_ofExpr, ← harg, ← shapes_flatten next _ s, List.map_map]
  rfl

variable {ρ : Var → V}

mutual

/-- An expression as an argument has its value. -/
theorem value_ofExpr :
    ∀ e : Expr, (∀ v ∈ e.vars, τ v.name = ρ v) →
      (ofExpr e).value ops τ = e.value ops.semantics ρ
  | .var v, h => h v List.mem_cons_self
  | .app head args, h => by
      rw [ofExpr, value, values_ofExprs args h, Expr.value]
      rfl

theorem values_ofExprs :
    ∀ es : List Expr, (∀ v ∈ Expr.varsAll es, τ v.name = ρ v) →
      values ops τ (ofExprs es) = Expr.values ops.semantics ρ es
  | [], _ => rfl
  | e :: es, h => by
      rw [ofExprs, values, value_ofExpr e fun v hv => h v (List.mem_append_left _ hv),
        values_ofExprs es fun v hv => h v (List.mem_append_right _ hv), Expr.values]

end

mutual

/-- An expression as an argument makes its calls. -/
theorem calls_ofExpr :
    ∀ e : Expr, (∀ v ∈ e.vars, τ v.name = ρ v) →
      (ofExpr e).calls ops τ = (e.calls ops.semantics ρ).map Head.call
  | .var _, _ => rfl
  | .app head args, h => by
      rw [ofExpr, calls, callsAll_ofExprs args h, values_ofExprs args h, Expr.calls,
        List.map_append]
      rfl

theorem callsAll_ofExprs :
    ∀ es : List Expr, (∀ v ∈ Expr.varsAll es, τ v.name = ρ v) →
      callsAll ops τ (ofExprs es) = (Expr.callsAll ops.semantics ρ es).map Head.call
  | [], _ => rfl
  | e :: es, h => by
      rw [ofExprs, callsAll, calls_ofExpr e fun v hv => h v (List.mem_append_left _ hv),
        callsAll_ofExprs es fun v hv => h v (List.mem_append_right _ hv), Expr.callsAll,
        List.map_append]

end

/-- **Hoisting the arguments of an application.**  When its variables are bound under their names
and the names the supply gives are new, the hoisted calls make the calls of the arguments and bind
the names left to their values. -/
theorem hoistAll_ofExprs_run (es : List Expr) (s : σ) (st : FlatState V)
    (hbound : ∀ v ∈ Expr.varsAll es, st.values v.name = some (ρ v))
    (hnd : (next.take s (Expr.nodesAll es)).Nodup)
    (hnew : ∀ v ∈ Expr.varsAll es, v.name ∉ next.take s (Expr.nodesAll es)) :
    Runs ops (hoistAll next (ofExprs es) s).1 (hoistAll next (ofExprs es) s).2.1
      (next.take s (Expr.nodesAll es)) (Expr.values ops.semantics ρ es)
      ((Expr.callsAll ops.semantics ρ es).map Head.call) st := by
  -- a name stands for the value it is bound to, which is the value of its variable
  let τ : String → V := fun n => (st.values n).getD default
  have hτ : ∀ v ∈ Expr.varsAll es, τ v.name = ρ v := by
    intro v hv
    have hname : τ v.name = (st.values v.name).getD default := rfl
    rw [hname, hbound v hv, Option.getD_some]
  rw [← nodesAll_ofExprs] at hnd hnew
  rw [← nodesAll_ofExprs, ← values_ofExprs es hτ, ← callsAll_ofExprs es hτ]
  refine hoistAll_run (ofExprs es) s st ?_ hnd ?_
  · intro n hn
    rw [namesAll_ofExprs] at hn
    obtain ⟨v, hv, rfl⟩ := List.mem_map.mp hn
    rw [hbound v hv, hτ v hv]
  · intro n hn hmem
    rw [namesAll_ofExprs] at hmem
    obtain ⟨v, hv, rfl⟩ := List.mem_map.mp hmem
    exact hnew v hv hn

end CallArg

end Isaforge
