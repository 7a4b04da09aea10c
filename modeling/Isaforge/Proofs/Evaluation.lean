import Mathlib.Algebra.Ring.Nat
import Mathlib.Logic.Function.Basic
import Isaforge.Proofs.Occurrence

/-!
# Evaluation — the meaning of definitions

A `Semantics V` says what results an instruction with its type arguments gives for the values of
its arguments.  Under it and an environment, every expression has a value, definitions bind their
outputs to results, and a sequence of definitions takes an environment to another one.

An argument that is an application stands for its first result, and an output that a call gives no
result for is bound to `default`; so everything is defined for every semantics, and a semantics
that gives as many results as definitions bind never meets a default.

* `Expr.calls`: the calls that evaluating an expression makes, in order, one for each application
  (`Expr.length_calls`).
* `Definition.runAll_of_notMem`: definitions leave alone what they do not define.
-/

namespace Isaforge

variable {κ V : Type}

/-! ### Binding -/

/-- The function with the keys bound to the values one after the other, each as `f` makes it; a
key without a value is bound to the default. -/
def bindAs {W : Type} [DecidableEq κ] [Inhabited V] (f : V → W) (ρ : κ → W) :
    List κ → List V → κ → W
  | [], _ => ρ
  | k :: ks, xs => bindAs f (Function.update ρ k (f (xs.headD default))) ks xs.tail

/-- The function with the keys bound to the values one after the other. -/
abbrev bindAll [DecidableEq κ] [Inhabited V] (ρ : κ → V) : List κ → List V → κ → V :=
  bindAs id ρ

section

variable {W : Type} [DecidableEq κ] [Inhabited V] {f : V → W}

theorem bindAs_of_notMem {ks : List κ} {k : κ} (ρ : κ → W) (xs : List V) (h : k ∉ ks) :
    bindAs f ρ ks xs k = ρ k := by
  induction ks generalizing ρ xs with
  | nil => rfl
  | cons k' ks ih =>
      rw [List.mem_cons, not_or] at h
      rw [bindAs, ih _ _ h.2, Function.update_of_ne h.1]

/-- A key has the value at its last place. -/
theorem bindAs_of_last {ks : List κ} {k : κ} {n : Nat} (ρ : κ → W) (xs : List V)
    (h : ks[n]? = some k) (hlast : k ∉ ks.drop (n + 1)) :
    bindAs f ρ ks xs k = f (xs.getD n default) := by
  induction ks generalizing ρ xs n with
  | nil => simp at h
  | cons k' ks ih =>
      cases n with
      | zero =>
          obtain rfl : k' = k := by simpa using h
          have hks : k' ∉ ks := by simpa using hlast
          rw [bindAs, bindAs_of_notMem _ _ hks, Function.update_self]
          cases xs <;> rfl
      | succ n =>
          have h' : ks[n]? = some k := by simpa using h
          have hlast' : k ∉ ks.drop (n + 1) := by simpa using hlast
          rw [bindAs, ih _ _ h' hlast']
          cases xs <;> simp

/-- A key that is bound once has the value at its place. -/
theorem bindAs_of_nodup {ks : List κ} {k : κ} {n : Nat} (ρ : κ → W) (xs : List V)
    (hks : ks.Nodup) (h : ks[n]? = some k) : bindAs f ρ ks xs k = f (xs.getD n default) := by
  refine bindAs_of_last ρ xs h ?_
  intro hmem
  obtain ⟨m, hm⟩ := List.getElem?_of_mem hmem
  rw [List.getElem?_drop, ← h] at hm
  have hlt : n < ks.length := (List.getElem?_eq_some_iff.mp h).1
  have hmn : n = n + 1 + m := (List.getElem?_inj hlt hks).mp hm.symm
  omega

/-- Binding under other names of the keys, which tell `k` from the others. -/
theorem bindAs_map {κ' : Type} [DecidableEq κ'] {g : κ → κ'} {ks : List κ} {k : κ} (ρ : κ → V)
    (ρ' : κ' → W) (xs : List V) (hg : ∀ k' ∈ ks, g k' = g k → k' = k)
    (hρ : k ∉ ks → ρ' (g k) = f (ρ k)) :
    bindAs f ρ' (ks.map g) xs (g k) = f (bindAll ρ ks xs k) := by
  induction ks generalizing ρ ρ' xs with
  | nil => exact hρ List.not_mem_nil
  | cons k' ks ih =>
      refine ih _ _ _ (fun k'' h => hg k'' (List.mem_cons_of_mem _ h)) ?_
      intro hk
      by_cases hkk : k = k'
      · rw [hkk, Function.update_self, Function.update_self]
        rfl
      · have hgk : g k ≠ g k' := fun h => hkk (hg k' List.mem_cons_self h.symm).symm
        rw [Function.update_of_ne hgk, Function.update_of_ne hkk]
        exact hρ fun h => (List.mem_cons.mp h).elim hkk hk

end

/-! ### Expressions -/

/-- The results that applying a head to values gives. -/
abbrev Semantics (V : Type) := Head → List V → List V

namespace Expr

variable [Inhabited V]

mutual

/-- The value of the expression. -/
def value (sem : Semantics V) (σ : Var → V) : Expr → V
  | .var v => σ v
  | .app head args => (sem head (values sem σ args)).headD default

/-- The values of the expressions. -/
def values (sem : Semantics V) (σ : Var → V) : List Expr → List V
  | [] => []
  | e :: es => e.value sem σ :: values sem σ es

end

mutual

/-- The calls that evaluating the expression makes: those of its arguments, from left to right,
and then its own, with the values of the arguments. -/
def calls (sem : Semantics V) (σ : Var → V) : Expr → List (Head × List V)
  | .var _ => []
  | .app head args => callsAll sem σ args ++ [(head, values sem σ args)]

/-- The calls that evaluating the expressions makes. -/
def callsAll (sem : Semantics V) (σ : Var → V) : List Expr → List (Head × List V)
  | [] => []
  | e :: es => e.calls sem σ ++ callsAll sem σ es

end

variable {sem : Semantics V} {σ : Var → V}

theorem values_map_var (vs : List Var) : values sem σ (vs.map .var) = vs.map σ := by
  induction vs with
  | nil => rfl
  | cons v vs ih => rw [List.map_cons, values, ih, value, List.map_cons]

theorem callsAll_eq_flatMap (es : List Expr) : callsAll sem σ es = es.flatMap (calls sem σ) := by
  induction es with
  | nil => rfl
  | cons e es ih => rw [callsAll, ih, List.flatMap_cons]

mutual

/-- The number of applications in the expression. -/
def nodes : Expr → Nat
  | .var _ => 0
  | .app _ args => nodesAll args + 1

/-- The number of applications in the expressions. -/
def nodesAll : List Expr → Nat
  | [] => 0
  | e :: es => e.nodes + nodesAll es

end

theorem nodesAll_eq_sum (es : List Expr) : nodesAll es = (es.map nodes).sum := by
  induction es with
  | nil => rfl
  | cons e es ih => rw [nodesAll, ih, List.map_cons, List.sum_cons]

/-- Evaluation makes one call for each application. -/
theorem length_calls (e : Expr) : (e.calls sem σ).length = e.nodes := by
  induction e with
  | var v => rfl
  | app head args ih =>
      have hargs : args.map (fun e => (e.calls sem σ).length) = args.map nodes :=
        List.map_congr_left fun e he => ih e he
      rw [calls, nodes, callsAll_eq_flatMap, List.length_append, List.length_flatMap, hargs,
        nodesAll_eq_sum]
      rfl

end Expr

/-! ### Definitions -/

namespace Definition

variable [Inhabited V]

/-- The results of the value of the definition. -/
def results (sem : Semantics V) (σ : Var → V) (d : Definition) : List V :=
  sem d.value.head (Expr.values sem σ d.value.args)

/-- The environment with the outputs bound to the results. -/
def run (sem : Semantics V) (σ : Var → V) (d : Definition) : Var → V :=
  bindAll σ d.outputs (d.results sem σ)

/-- The environment after the definitions, in order. -/
def runAll (sem : Semantics V) : (Var → V) → List Definition → Var → V
  | σ, [] => σ
  | σ, d :: ds => runAll sem (d.run sem σ) ds

/-- The calls that the definitions make, in order. -/
def callsOf (sem : Semantics V) : (Var → V) → List Definition → List (Head × List V)
  | _, [] => []
  | σ, d :: ds => d.value.expr.calls sem σ ++ callsOf sem (d.run sem σ) ds

variable {sem : Semantics V}

/-- The definitions make one call for each application in their values. -/
theorem length_callsOf (σ : Var → V) (defs : List Definition) :
    (callsOf sem σ defs).length = (defs.map (·.value.expr.nodes)).sum := by
  induction defs generalizing σ with
  | nil => rfl
  | cons d ds ih =>
      rw [callsOf, List.length_append, ih, Expr.length_calls, List.map_cons, List.sum_cons]

theorem callsOf_singleton (σ : Var → V) (d : Definition) :
    callsOf sem σ [d] = d.value.expr.calls sem σ :=
  List.append_nil _

theorem runAll_append (σ : Var → V) (defs defs' : List Definition) :
    runAll sem σ (defs ++ defs') = runAll sem (runAll sem σ defs) defs' := by
  induction defs generalizing σ with
  | nil => rfl
  | cons d ds ih => rw [List.cons_append, runAll, runAll, ih]

theorem callsOf_append (σ : Var → V) (defs defs' : List Definition) :
    callsOf sem σ (defs ++ defs') =
      callsOf sem σ defs ++ callsOf sem (runAll sem σ defs) defs' := by
  induction defs generalizing σ with
  | nil => rfl
  | cons d ds ih => rw [List.cons_append, callsOf, callsOf, runAll, ih, List.append_assoc]

/-- Definitions leave alone what they do not define. -/
theorem runAll_of_notMem {v : Var} {defs : List Definition} (σ : Var → V)
    (h : v ∉ outputsOf defs) : runAll sem σ defs v = σ v := by
  induction defs generalizing σ with
  | nil => rfl
  | cons d ds ih =>
      rw [outputsOf_cons, List.mem_append, not_or] at h
      rw [runAll, ih _ h.2, run, bindAll, bindAs_of_notMem _ _ h.1]

end Definition

end Isaforge
