import Isaforge.Proofs.Flattening
import Isaforge.Proofs.Legalizer.Scope

/-!
# Restoring — a flattened call says what the nested one does

`Call.flatten` takes a nested call apart.  Nothing is lost: a name that it leaves in the place of
a call stands for that call, so that putting the hoisted calls back, the last one first, makes the
nested call again (`NamedCall.restore`).

* `CallArg.hoistAll_restored`: each hoisted call, with those before it put back, is the call at its
  place in the post-order of the arguments; and each name left in the place of an argument is that
  argument.
* `CallArg.hoistAll_args`: the arguments of the hoisted calls are the names of the nested ones and
  the new names, each of these once.
* `Call.flatten_faithful`: what flattening gives for any call and any supply whose names are new.
-/

namespace Isaforge

/-! ### Putting calls back -/

namespace CallArg

mutual

/-- The argument with others in the places of names. -/
def subst (f : String → CallArg) : CallArg → CallArg
  | .name n => f n
  | .call op args => .call op (substAll f args)

/-- The arguments with others in the places of names. -/
def substAll (f : String → CallArg) : List CallArg → List CallArg
  | [] => []
  | a :: as => a.subst f :: substAll f as

end

mutual

/-- The calls in the argument, each after those in its own arguments. -/
def postorder : CallArg → List CallArg
  | .name _ => []
  | .call op args => postorderAll args ++ [.call op args]

/-- The calls in the arguments, from left to right. -/
def postorderAll : List CallArg → List CallArg
  | [] => []
  | a :: as => a.postorder ++ postorderAll as

end

theorem substAll_eq_map (f : String → CallArg) (as : List CallArg) :
    substAll f as = as.map (subst f) := by
  induction as with
  | nil => rfl
  | cons a as ih => rw [substAll, ih, List.map_cons]

theorem namesAll_eq_flatMap (as : List CallArg) : namesAll as = as.flatMap names := by
  induction as with
  | nil => rfl
  | cons a as ih => rw [namesAll, ih, List.flatMap_cons]

/-- An argument stays as it is when its names do. -/
theorem subst_eq_self {f : String → CallArg} {a : CallArg} (h : ∀ n ∈ a.names, f n = .name n) :
    a.subst f = a := by
  induction a with
  | name n => exact h n List.mem_cons_self
  | call op args ih =>
      rw [names, namesAll_eq_flatMap] at h
      have hargs : args.map (subst f) = args.map id :=
        List.map_congr_left fun a ha => ih a ha fun n hn => h n (List.mem_flatMap.mpr ⟨a, ha, hn⟩)
      rw [subst, substAll_eq_map, hargs, List.map_id]

end CallArg

namespace NamedCall

/-- The argument with the call in the places of its name. -/
def putBack (c : NamedCall) (a : CallArg) : CallArg :=
  a.subst (Function.update .name c.name c.call.asCall.arg)

/-- The argument with the calls in the places of their names, the last call first. -/
def restore (cs : List NamedCall) (a : CallArg) : CallArg :=
  cs.foldr putBack a

/-- The calls, each with those before it in the places of their names; `done` are the calls before
the first one. -/
def restoreEach : (done cs : List NamedCall) → List CallArg
  | _, [] => []
  | done, c :: cs => restore done c.call.asCall.arg :: restoreEach (done ++ [c]) cs

variable {cs : List NamedCall}

theorem restore_append (cs ds : List NamedCall) (a : CallArg) :
    restore (cs ++ ds) a = restore cs (restore ds a) :=
  List.foldr_append

theorem restoreEach_append (done cs ds : List NamedCall) :
    restoreEach done (cs ++ ds) = restoreEach done cs ++ restoreEach (done ++ cs) ds := by
  induction cs generalizing done with
  | nil => rw [List.append_nil]; rfl
  | cons c cs ih =>
      rw [List.cons_append, restoreEach, restoreEach, ih, List.append_assoc]
      rfl

theorem restore_of_notMem {a : CallArg} (h : ∀ n ∈ cs.map (·.name), n ∉ a.names) :
    restore cs a = a := by
  induction cs with
  | nil => rfl
  | cons c cs ih =>
      rw [List.map_cons, List.forall_mem_cons] at h
      have hne : ∀ n ∈ a.names, n ≠ c.name := fun n hn heq => h.1 (heq ▸ hn)
      rw [restore, List.foldr_cons, ← restore, ih h.2]
      exact CallArg.subst_eq_self fun n hn => Function.update_of_ne (hne n hn) _ _

theorem restore_call (cs : List NamedCall) (op : Operation) (args : List CallArg) :
    restore cs (.call op args) = .call op (args.map (restore cs)) := by
  induction cs with
  | nil => exact congrArg (CallArg.call op) (List.map_id args).symm
  | cons c cs ih =>
      rw [restore, List.foldr_cons, ← restore, ih, putBack, CallArg.subst, CallArg.substAll_eq_map,
        List.map_map]
      rfl

/-- A flat call with calls in the places of its arguments. -/
theorem restore_asCall (cs : List NamedCall) (c : FlatCall) :
    restore cs c.asCall.arg = .call c.op (c.args.map fun n => restore cs (.name n)) := by
  rw [Call.arg, FlatCall.asCall, restore_call, List.map_map]
  rfl

end NamedCall

/-! ### Hoisting -/

namespace CallArg

variable {σ : Type} {next : Supply σ}

open NamedCall (restore restoreEach restore_append restoreEach_append restore_of_notMem
  restore_asCall)

theorem hoistAll_restored_of {as : List CallArg}
    (h : ∀ a ∈ as, ∀ (s : σ) (done : List NamedCall), (∀ n ∈ done.map (·.name), n ∉ a.names) →
      (next.take s a.nodes).Nodup → (∀ n ∈ next.take s a.nodes, n ∉ a.names) →
      restoreEach done (hoist next a s).1 = a.postorder ∧
        restore (done ++ (hoist next a s).1) (.name (hoist next a s).2.1) = a)
    (s : σ) (done : List NamedCall) (hdone : ∀ n ∈ done.map (·.name), n ∉ namesAll as)
    (hnd : (next.take s (nodesAll as)).Nodup)
    (hnew : ∀ n ∈ next.take s (nodesAll as), n ∉ namesAll as) :
    restoreEach done (hoistAll next as s).1 = postorderAll as ∧
      (hoistAll next as s).2.1.map
        (fun n => restore (done ++ (hoistAll next as s).1) (.name n)) = as := by
  induction as generalizing s done with
  | nil => exact ⟨rfl, rfl⟩
  | cons a as ih =>
      obtain ⟨hnames, hstate⟩ := @hoist_supply σ next a s
      rw [nodesAll, Supply.take_add] at hnd hnew
      obtain ⟨hnd₁, hnd₂, hdisjoint⟩ := List.nodup_append'.mp hnd
      simp only [namesAll, List.mem_append, not_or] at hdone hnew
      obtain ⟨heach, hname⟩ := h a List.mem_cons_self s done (fun n hn => (hdone n hn).1) hnd₁
        fun n hn => (hnew n (.inl hn)).1
      -- the calls hoisted out of the first argument come before those of the others
      have hdone' : ∀ n ∈ (done ++ (hoist next a s).1).map (·.name), n ∉ namesAll as := by
        intro n hn
        rw [List.map_append, hnames, List.mem_append] at hn
        rcases hn with hn | hn
        · exact (hdone n hn).2
        · exact (hnew n (.inl hn)).2
      obtain ⟨heach', hnames'⟩ := ih (fun a' ha' => h a' (List.mem_cons_of_mem _ ha'))
        (hoist next a s).2.2 (done ++ (hoist next a s).1) hdone' (hstate ▸ hnd₂)
        fun n hn => (hnew n (.inr (hstate ▸ hn))).2
      -- and the name left in its place is none of theirs
      have hkept : restore (hoistAll next as (hoist next a s).2.2).1
          (.name (hoist next a s).2.1) = .name (hoist next a s).2.1 := by
        refine restore_of_notMem fun n hn hleft => ?_
        rw [(hoistAll_supply as _).1, hstate] at hn
        obtain rfl := List.mem_singleton.mp hleft
        rcases mem_of_hoist next a s with hmem | hmem
        · exact (hnew _ (.inr hn)).1 hmem
        · exact hdisjoint hmem hn
      rw [hoistAll_cons, restoreEach_append, heach, heach', postorderAll, List.map_cons,
        ← List.append_assoc, hnames', restore_append, hkept, hname]
      exact ⟨rfl, rfl⟩

/-- The calls hoisted out of an argument are its calls in post-order, and the name left in its
place stands for it. -/
theorem hoist_restored (a : CallArg) (s : σ) (done : List NamedCall)
    (hdone : ∀ n ∈ done.map (·.name), n ∉ a.names) (hnd : (next.take s a.nodes).Nodup)
    (hnew : ∀ n ∈ next.take s a.nodes, n ∉ a.names) :
    restoreEach done (hoist next a s).1 = a.postorder ∧
      restore (done ++ (hoist next a s).1) (.name (hoist next a s).2.1) = a := by
  induction a generalizing s done with
  | name n =>
      refine ⟨rfl, ?_⟩
      rw [hoist, List.append_nil]
      exact restore_of_notMem hdone
  | call op args ih =>
      rw [nodes, Supply.take_add] at hnd hnew
      obtain ⟨heach, hargs⟩ := hoistAll_restored_of ih s done hdone (List.nodup_append'.mp hnd).1
        fun n hn => hnew n (List.mem_append_left _ hn)
      have hcall : restore (done ++ (hoistAll next args s).1)
          (FlatCall.asCall ⟨op, (hoistAll next args s).2.1⟩).arg = .call op args := by
        rw [restore_asCall, hargs]
      rw [hoist_call, restoreEach_append, heach, postorder, ← List.append_assoc, restore_append]
      refine ⟨congrArg (postorderAll args ++ [·]) hcall, ?_⟩
      rw [← hcall]
      exact congrArg (restore _) (Function.update_self ..)

/-- **Hoisting is undone** by putting the calls back. -/
theorem hoistAll_restored (as : List CallArg) (s : σ)
    (hnd : (next.take s (nodesAll as)).Nodup)
    (hnew : ∀ n ∈ next.take s (nodesAll as), n ∉ namesAll as) :
    restoreEach [] (hoistAll next as s).1 = postorderAll as ∧
      (hoistAll next as s).2.1.map (fun n => restore (hoistAll next as s).1 (.name n)) = as :=
  hoistAll_restored_of (fun a _ => hoist_restored a) s [] (fun _ h => (nomatch h)) hnd hnew

/-! ### The names that are used -/

theorem hoistAll_args_of {as : List CallArg}
    (h : ∀ a ∈ as, ∀ s, ((hoist next a s).1.flatMap (·.call.args) ++ [(hoist next a s).2.1]).Perm
      (a.names ++ (hoist next a s).1.map (·.name))) (s : σ) :
    ((hoistAll next as s).1.flatMap (·.call.args) ++ (hoistAll next as s).2.1).Perm
      (namesAll as ++ (hoistAll next as s).1.map (·.name)) := by
  induction as generalizing s with
  | nil => exact .refl _
  | cons a as ih =>
      have hfirst := h a List.mem_cons_self s
      have hrest := ih (fun a' ha' => h a' (List.mem_cons_of_mem _ ha')) (hoist next a s).2.2
      rw [List.perm_iff_count] at hfirst hrest ⊢
      intro n
      have hn := hfirst n
      have hn' := hrest n
      rw [hoistAll_cons, namesAll, List.flatMap_append, List.map_append]
      simp only [List.count_append, List.count_cons, List.count_nil] at hn hn' ⊢
      omega

/-- An argument uses its names and those of the calls hoisted out of it, one of which may be left
in its place. -/
theorem hoist_args (a : CallArg) (s : σ) :
    ((hoist next a s).1.flatMap (·.call.args) ++ [(hoist next a s).2.1]).Perm
      (a.names ++ (hoist next a s).1.map (·.name)) := by
  induction a generalizing s with
  | name n => exact .refl _
  | call op args ih =>
      rw [hoist_call, List.flatMap_append, List.map_append, ← List.append_assoc,
        List.flatMap_singleton]
      exact (hoistAll_args_of ih s).append_right _

/-- **The names that hoisted calls use** are those of the arguments, and their own. -/
theorem hoistAll_args (as : List CallArg) (s : σ) :
    ((hoistAll next as s).1.flatMap (·.call.args) ++ (hoistAll next as s).2.1).Perm
      (namesAll as ++ (hoistAll next as s).1.map (·.name)) :=
  hoistAll_args_of (fun a _ => hoist_args a) s

end CallArg

/-! ### Flattening -/

namespace FlatSequence

/-- The names of the results, of the calls in order; the last call has none. -/
def results (q : FlatSequence) : List (Option String) :=
  q.hoisted.map (some ·.name) ++ [none]

/-- Each call with those before it put back. -/
def restoreEach (q : FlatSequence) : List CallArg :=
  NamedCall.restoreEach [] q.hoisted ++ [NamedCall.restore q.hoisted q.top.asCall.arg]

/-- Make the calls in order, and give the value of the last. -/
def run {V : Type} [Inhabited V] (ops : Operations V) (q : FlatSequence) (st : FlatState V) :
    Option (V × FlatState V) := do
  let st ← q.hoisted.foldlM (NamedCall.run ops) st
  let xs ← q.top.args.mapM st.values
  return ((ops q.top.op xs).headD default, ⟨st.values, st.log ++ [(q.top.op, xs)]⟩)

/-- The sequence is the call `c` taken apart, with the names `new` for its nested calls. -/
structure Faithful (c : Call) (new : List String) (q : FlatSequence) : Prop where
  /-- There is one flat call for each call. -/
  length : q.calls.length = c.arg.nodes
  /-- It has the operation of that call and as many arguments, and comes after those for its
  arguments. -/
  shapes : q.calls.map FlatCall.shape = c.arg.shapes
  /-- It is that call when those before it are put back in the places of their names. -/
  postorder : q.restoreEach = c.arg.postorder
  /-- The last one is the whole call. -/
  restored : NamedCall.restore q.hoisted q.top.asCall.arg = c.arg
  /-- The results have the new names in order, all but the last. -/
  results : q.results = new.map some ++ [none]
  /-- A new name is used once. -/
  used_once : ∀ n ∈ new, (q.calls.flatMap (·.args)).count n = 1
  /-- A name that a flat call uses is one of the nested call, or of an earlier result. -/
  used_after : ∀ (k : Nat) (f : FlatCall), q.calls[k]? = some f → ∀ n ∈ f.args,
    n ∈ c.arg.names ∨ some n ∈ q.results.take k
  /-- Under every interpretation, where the names of the nested call have values, the flat calls
  make the calls that it makes, the last one has its value, and only new names are bound. -/
  evaluates : ∀ (V : Type) [Inhabited V] (ops : Operations V) (τ : String → V) (st : FlatState V),
    (∀ n ∈ c.arg.names, st.values n = some (τ n)) →
    ∃ values, q.run ops st = some (c.arg.value ops τ, ⟨values, st.log ++ c.arg.calls ops τ⟩) ∧
      ∀ n ∉ new, values n = st.values n

end FlatSequence

section

variable {σ : Type} {next : Supply σ} {c : Call} {s : σ}

/-- The flat calls use the names of the nested call, and the new names. -/
theorem Call.args_flatten :
    ((c.flatten next s).1.calls.flatMap (·.args)).Perm
      (c.arg.names ++ next.take s (CallArg.nodesAll c.args)) := by
  have huses := @CallArg.hoistAll_args σ next c.args s
  rw [(CallArg.hoistAll_supply c.args s).1] at huses
  rw [FlatSequence.calls, List.flatMap_append, List.flatMap_map, List.flatMap_singleton]
  exact huses

/-- A name that a flat call uses is one of the nested call, or of a call before it. -/
theorem Call.used_after_flatten {k : Nat} {f : FlatCall} {n : String}
    (hf : (c.flatten next s).1.calls[k]? = some f) (hn : n ∈ f.args) :
    n ∈ c.arg.names ∨ some n ∈ (c.flatten next s).1.results.take k := by
  obtain ⟨hscoped, hleft⟩ :=
    @CallArg.hoistAll_scoped σ next c.arg.names c.args s (List.Subset.refl _)
  have hcalls : (c.flatten next s).1.calls =
      (CallArg.hoistAll next c.args s).1.map (·.call) ++
        [⟨c.op, (CallArg.hoistAll next c.args s).2.1⟩] := rfl
  have hresults : (c.flatten next s).1.results =
      (CallArg.hoistAll next c.args s).1.map (some ·.name) ++ [none] := rfl
  rw [hcalls] at hf
  rw [hresults]
  generalize (CallArg.hoistAll next c.args s).1 = hoisted at *
  rcases Nat.lt_or_ge k hoisted.length with hk | hk
  · -- a hoisted call
    rw [List.getElem?_append_left (by rwa [List.length_map]), List.getElem?_map,
      Option.map_eq_some_iff] at hf
    obtain ⟨h, hh, rfl⟩ := hf
    have hscope : (hoisted.map NamedCall.scope)[k]? = some h.scope := by
      rw [List.getElem?_map, hh, Option.map_some]
    refine (hscoped.bound_before hscope hn).imp_right ?_
    rintro ⟨l, hl, hbinds⟩
    rw [← List.map_take] at hl
    obtain ⟨h', hh', rfl⟩ := List.mem_map.mp hl
    obtain rfl := List.mem_singleton.mp hbinds
    rw [List.take_append_of_le_length (by rw [List.length_map]; omega), ← List.map_take]
    exact List.mem_map_of_mem hh'
  · -- the last call
    have hlt := (List.getElem?_eq_some_iff.mp hf).1
    rw [List.length_append, List.length_map, List.length_singleton] at hlt
    obtain rfl : k = hoisted.length := by omega
    rw [List.getElem?_append_right (by rw [List.length_map]), List.length_map, Nat.sub_self] at hf
    obtain rfl := Option.some.inj hf
    refine (List.mem_append.mp (hleft hn)).imp_right fun hmem => ?_
    obtain ⟨h, hh, rfl⟩ := List.mem_map.mp hmem
    rw [List.take_left' (List.length_map _)]
    exact List.mem_map_of_mem hh

/-- **Flattening is faithful.**  For every call and every supply that gives distinct names, none of
them a name of the call, the flat calls are the call taken apart, and one name is drawn for each
call but the last. -/
theorem Call.flatten_faithful (next : Supply σ) (c : Call) (s : σ)
    (hnd : (next.take s (CallArg.nodesAll c.args)).Nodup)
    (hnew : ∀ n ∈ next.take s (CallArg.nodesAll c.args), n ∉ c.arg.names) :
    (c.flatten next s).1.Faithful c (next.take s (CallArg.nodesAll c.args)) ∧
      (c.flatten next s).2 = next.after s (CallArg.nodesAll c.args) := by
  obtain ⟨heach, hargs⟩ := CallArg.hoistAll_restored c.args s hnd hnew
  obtain ⟨hnames, hstate⟩ := @CallArg.hoistAll_supply σ next c.args s
  have hrestored : NamedCall.restore (c.flatten next s).1.hoisted
      (c.flatten next s).1.top.asCall.arg = c.arg :=
    (NamedCall.restore_asCall _ _).trans (congrArg (CallArg.call c.op) hargs)
  have hlength : (CallArg.hoistAll next c.args s).1.length = CallArg.nodesAll c.args := by
    rw [← List.length_map (·.name), hnames, Supply.length_take]
  refine ⟨⟨?_, CallArg.shapes_flatten next c s, ?_, hrestored, ?_, fun n hn => ?_,
    fun k f hf n hn => used_after_flatten hf hn, fun V _ ops τ st hbound => ?_⟩, hstate⟩
  · rw [FlatSequence.calls, List.length_append, List.length_map]
    exact congrArg (· + 1) hlength
  · rw [FlatSequence.restoreEach, hrestored]
    exact congrArg (· ++ [c.arg]) heach
  · rw [FlatSequence.results, ← hnames, List.map_map]
    rfl
  · rw [args_flatten.count_eq, List.count_append, List.count_eq_zero_of_not_mem (hnew n hn),
      List.count_eq_one_of_mem hnd hn]
  · obtain ⟨values, hrun, hleft, hframe⟩ := CallArg.hoistAll_run c.args s st hbound hnd hnew
    refine ⟨values, ?_, hframe⟩
    have htop := mapM_eq_some_of_map hleft
    have hq : (c.flatten next s).1 =
        ⟨(CallArg.hoistAll next c.args s).1, c.op, (CallArg.hoistAll next c.args s).2.1⟩ := rfl
    rw [FlatSequence.run, hq, hrun]
    simp [htop, Call.arg, CallArg.value, CallArg.calls]

/-- `iadd(iadd.i32(y, x), isub(x, ineg(y)))`. -/
def nestedSum : Call where
  op := ⟨"iadd", ⟨0⟩, []⟩
  args := [
    .call ⟨"iadd.i32", ⟨0⟩, [.scalar ⟨.int, 32⟩]⟩ [.name "y", .name "x"],
    .call ⟨"isub", ⟨1⟩, []⟩ [.name "x", .call ⟨"ineg", ⟨2⟩, []⟩ [.name "y"]]]

theorem nestedSum_flattened :
    (nestedSum.flatten (Fresh.supply nestedSum.arg.names) 0).1.calls.map FlatCall.text =
        ["iadd.i32(y, x)", "ineg(y)", "isub(x, tmp2)", "iadd(tmp1, tmp3)"] ∧
      (nestedSum.flatten (Fresh.supply nestedSum.arg.names) 0).1.Faithful nestedSum
        ["tmp1", "tmp2", "tmp3"] :=
  ⟨by decide, (nestedSum.flatten_faithful (Fresh.supply nestedSum.arg.names) 0
    (Fresh.nodup_take _ _ _) fun _ h => Fresh.notMem_of_mem_take h).1⟩

end

end Isaforge
