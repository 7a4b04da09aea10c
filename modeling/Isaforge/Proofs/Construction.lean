import Isaforge.Proofs.Outcome
import Isaforge.Proofs.WellScoped

/-!
# Construction — what a building script can put into a rule

A script reaches a rule only through `Application.make`, `Definition.make` and `Pattern.push`, and
each of them is a guard.  What passes it is stated once for each (`Application.make_eq_ok_iff`,
`Definition.make_eq_ok_iff`, `Pattern.push_eq_ok_iff`).

`Building c` is a script step by step: it ends, fails, or adds a definition to one of the patterns
and goes on as that turned out, a refused definition included.  The values it defines are put
together against the catalog `c` (`Expr.Made`).  Its patterns keep `Pattern.Sound` whatever it
does (`Building.sound_of_run`).
-/

namespace Isaforge

/-! ### Applications -/

namespace InstructionGroup

variable {g : InstructionGroup} {id : InstId} {i : Instruction} {s : Signature}

theorem catalog_signature?_eq_some_iff :
    g.catalog.signature? id = some s ↔ ∃ i, g.get? id = some i ∧ i.signature = s :=
  Option.map_eq_some_iff

theorem catalog_signature?_eq_some (hi : g.get? id = some i) :
    g.catalog.signature? id = some i.signature :=
  catalog_signature?_eq_some_iff.mpr ⟨i, hi, rfl⟩

end InstructionGroup

namespace Application

/-- The application respects the catalog: its instruction is known, under the name it carries, it
has as many arguments as the instruction has inputs, and its type arguments may be bound. -/
def Fits (c : Catalog) (a : Application) : Prop :=
  ∃ s, c.signature? a.head.inst = some s ∧ a.head.name = s.name ∧ a.args.length = s.arity ∧
    c.checkBinding a.head.inst a.head.types = .ok ()

theorem make_eq_ok_iff {c : Catalog} {ref : InstRef} {types : List ValueType} {args : List Expr}
    {a : Application} :
    make c ref types args = .ok a ↔
      ∃ s bound, c.signature? ref.id = some s ∧ typeArguments s.name ref types = .ok bound ∧
        c.checkBinding ref.id bound = .ok () ∧ args.length = s.arity ∧
        a = ⟨⟨ref.id, s.name, bound⟩, args⟩ := by
  rw [make]
  split
  · rename_i hnone
    refine ⟨fun h => (nomatch h), ?_⟩
    rintro ⟨s, bound, hs, -⟩
    rw [hnone] at hs
    cases hs
  · rename_i s hs
    simp only [bind_eq_ok_iff, ne_eq]
    constructor
    · rintro ⟨bound, hbound, ⟨⟩, hcheck, h⟩
      by_cases hlen : args.length = s.arity
      · rw [if_neg (not_not_intro hlen)] at h
        cases h
        exact ⟨s, bound, hs, hbound, hcheck, hlen, rfl⟩
      · rw [if_pos hlen] at h
        cases h
    · rintro ⟨s', bound, hs', hbound, hcheck, hlen, rfl⟩
      obtain rfl : s = s' := Option.some.inj (hs.symm.trans hs')
      refine ⟨bound, hbound, (), hcheck, ?_⟩
      rw [if_neg (not_not_intro hlen)]
      rfl

theorem fits_of_make {c : Catalog} {ref : InstRef} {types : List ValueType} {args : List Expr}
    {a : Application} (h : make c ref types args = .ok a) : a.Fits c := by
  obtain ⟨s, bound, hs, -, hcheck, hlen, rfl⟩ := make_eq_ok_iff.mp h
  exact ⟨s, hs, rfl, hlen, hcheck⟩

/-- Without type arguments, a known instruction takes as many arguments as it has inputs. -/
theorem make_unbound {insts : InstructionGroup} {id : InstId} {i : Instruction} {args : List Expr}
    (hi : insts.get? id = some i) (harity : args.length = i.arity) :
    make insts.catalog (.unbound id) [] args = .ok ⟨⟨id, i.name, []⟩, args⟩ := by
  have hsignature := InstructionGroup.catalog_signature?_eq_some hi
  have hbinding : insts.checkBinding id [] = .ok () := by
    simp [InstructionGroup.checkBinding, hi]
  exact make_eq_ok_iff.mpr ⟨i.signature, [], hsignature, rfl, hbinding, harity, rfl⟩

end Application

/-- The expression is put together against the catalog: `Application.make` made every application
in it. -/
inductive Expr.Made (c : Catalog) : Expr → Prop where
  | var (v : Var) : Made c (.var v)
  | app {ref : InstRef} {types : List ValueType} {args : List Expr} {a : Application} :
      (∀ e ∈ args, Made c e) → Application.make c ref types args = .ok a → Made c a.expr

theorem Expr.Made.unbound {insts : InstructionGroup} {id : InstId} {i : Instruction}
    {name : String} {args : List Expr} (hi : insts.get? id = some i) (hname : i.name = name)
    (harity : args.length = i.arity) (hargs : ∀ e ∈ args, e.Made insts.catalog) :
    (Expr.app ⟨id, name, []⟩ args).Made insts.catalog := by
  have hmade := Expr.Made.app hargs (Application.make_unbound hi harity)
  exact hname ▸ hmade

/-- Every application of an expression put together against the catalog respects it. -/
theorem Expr.Made.fits {c : Catalog} {e : Expr} (h : e.Made c) {a : Application}
    (ha : a.Within e) : a.Fits c := by
  induction h with
  | var v => exact absurd ha Application.not_within_var
  | @app ref types args a' _ hmake ih =>
      obtain ⟨s, bound, -, -, -, -, rfl⟩ := Application.make_eq_ok_iff.mp hmake
      rcases Application.within_app.mp ha with rfl | ⟨e, he, hin⟩
      · exact Application.fits_of_make hmake
      · exact ih e he hin

/-! ### Definitions and patterns -/

theorem Definition.make_eq_ok_iff {outputs : List Var} {value : Expr} {d : Definition} :
    make outputs value = .ok d ↔ outputs ≠ [] ∧ d.outputs = outputs ∧ d.value.expr = value := by
  cases value with
  | var v => exact ⟨fun h => (nomatch h), fun h => (nomatch h.2.2)⟩
  | app head args =>
      obtain ⟨outputs', head', args'⟩ := d
      cases outputs with
      | nil => exact ⟨fun h => (nomatch h), fun h => absurd rfl h.1⟩
      | cons v vs => simp [make, Application.expr, eq_comm]

theorem Pattern.push_eq_ok_iff {p p' : Pattern} {d : Definition} :
    p.push d = .ok p' ↔
      d.outputs.Nodup ∧ (∀ v ∈ d.outputs, v ∉ p.outputs) ∧
        p' = { p with defs := p.defs ++ [d] } := by
  rw [← and_assoc, ← firstRepeat?_eq_none_iff, push]
  split
  · rename_i v hv
    simp [hv]
  · rename_i hnone
    simp [hnone, eq_comm]

/-- What pushing keeps of a pattern: no variable is defined twice, no definition is without
outputs, and the values are put together against the catalog. -/
structure Pattern.Sound (c : Catalog) (p : Pattern) : Prop where
  outputs_nodup : p.outputs.Nodup
  outputs_ne_nil : ∀ d ∈ p.defs, d.outputs ≠ []
  made : ∀ d ∈ p.defs, d.value.expr.Made c

theorem Pattern.sound_empty (c : Catalog) (side : Side) : Sound c ⟨side, []⟩ :=
  ⟨List.nodup_nil, by simp, by simp⟩

/-- Adding a definition keeps a pattern sound. -/
theorem Pattern.Sound.define {c : Catalog} {p p' : Pattern} {outputs : List Var} {value : Expr}
    (hp : p.Sound c) (hvalue : value.Made c) (h : p.define outputs value = .ok p') :
    p'.Sound c := by
  obtain ⟨d, hd, hpush⟩ := bind_eq_ok_iff.mp h
  obtain ⟨hne, rfl, rfl⟩ := Definition.make_eq_ok_iff.mp hd
  obtain ⟨hnd, hnew, rfl⟩ := Pattern.push_eq_ok_iff.mp hpush
  have hmem : ∀ d' ∈ p.defs ++ [d], d' ∈ p.defs ∨ d' = d := by simp
  refine ⟨?_, ?_, ?_⟩
  · have happend : Definition.outputsOf (p.defs ++ [d]) = p.outputs ++ d.outputs := by
      simp [Definition.outputsOf, Pattern.outputs]
    rw [Pattern.outputs, happend]
    exact hp.outputs_nodup.append hnd fun v hv hv' => hnew v hv' hv
  · intro d' hd'
    rcases hmem d' hd' with h | rfl
    · exact hp.outputs_ne_nil d' h
    · exact hne
  · intro d' hd'
    rcases hmem d' hd' with h | rfl
    · exact hp.made d' h
    · exact hvalue

/-- A definition whose outputs are new is added. -/
theorem Pattern.define_eq_ok {side : Side} {ds : List Definition} {d : Definition}
    (hne : d.outputs ≠ []) (hnd : (Definition.outputsOf (ds ++ [d])).Nodup) :
    Pattern.define ⟨side, ds⟩ d.outputs d.value.expr = .ok ⟨side, ds ++ [d]⟩ := by
  rw [Definition.outputsOf_append, Definition.outputsOf_singleton, List.nodup_append'] at hnd
  obtain ⟨-, hnd, hdisjoint⟩ := hnd
  rw [define, Definition.make_eq_ok_iff.mpr ⟨hne, rfl, rfl⟩]
  exact Pattern.push_eq_ok_iff.mpr ⟨hnd, fun v hv hmem => hdisjoint hmem hv, rfl⟩

/-- The pattern with the definitions added, one after the other. -/
def Pattern.defineAll (p : Pattern) (ds : List Definition) : Except Error Pattern :=
  ds.foldlM (fun (q : Pattern) d => q.define d.outputs d.value.expr) p

/-- A sound pattern is what defining its definitions one after the other makes. -/
theorem Pattern.Sound.defineAll {c : Catalog} {p : Pattern} (h : p.Sound c) :
    Pattern.defineAll ⟨p.side, []⟩ p.defs = .ok p := by
  have hfrom : ∀ ds done : List Definition, (Definition.outputsOf (done ++ ds)).Nodup →
      (∀ d ∈ ds, d.outputs ≠ []) →
      Pattern.defineAll ⟨p.side, done⟩ ds = .ok ⟨p.side, done ++ ds⟩ := by
    intro ds
    induction ds with
    | nil =>
        intro done _ _
        rw [List.append_nil]
        rfl
    | cons d ds ih =>
        intro done hnd hne
        rw [List.append_cons] at hnd ⊢
        have hfirst : (Definition.outputsOf (done ++ [d])).Nodup := by
          rw [Definition.outputsOf_append] at hnd
          exact hnd.of_append_left
        rw [Pattern.defineAll, List.foldlM_cons,
          Pattern.define_eq_ok (hne d List.mem_cons_self) hfirst]
        exact ih (done ++ [d]) hnd fun d' hd' => hne d' (List.mem_cons_of_mem _ hd')
  exact hfrom p.defs [] h.outputs_nodup h.outputs_ne_nil

/-! ### Scripts -/

/-- Both patterns of the draft are sound. -/
structure Rule.Draft.Sound (c : Catalog) (draft : Rule.Draft) : Prop where
  src : draft.src.Sound c
  dst : draft.dst.Sound c

theorem Rule.Draft.sound_empty (c : Catalog) : Rule.Draft.Sound c {} :=
  ⟨Pattern.sound_empty c _, Pattern.sound_empty c _⟩

/-- Add the definition of `outputs` as `value` to one side. -/
def Rule.add (side : Side) (outputs : List Var) (value : Expr) : Rule.Script :=
  match side with
  | .source => Rule.source outputs value
  | .destination => Rule.destination outputs value

theorem Rule.source_run (outputs : List Var) (value : Expr) (draft : Rule.Draft) :
    (Rule.source outputs value).run draft =
      draft.src.define outputs value >>= fun p => pure ((), { draft with src := p }) := by
  simp [Rule.source]

theorem Rule.destination_run (outputs : List Var) (value : Expr) (draft : Rule.Draft) :
    (Rule.destination outputs value).run draft =
      draft.dst.define outputs value >>= fun p => pure ((), { draft with dst := p }) := by
  simp [Rule.destination]

/-- Adding a definition keeps the draft sound. -/
theorem Rule.Draft.Sound.add {c : Catalog} {draft draft' : Rule.Draft} {side : Side}
    {outputs : List Var} {value : Expr} (hdraft : draft.Sound c) (hvalue : value.Made c)
    (h : (Rule.add side outputs value).run draft = .ok ((), draft')) : draft'.Sound c := by
  cases side with
  | source =>
      rw [Rule.add, Rule.source_run, bind_eq_ok_iff] at h
      obtain ⟨p, hp, h⟩ := h
      cases h
      exact ⟨hdraft.src.define hvalue hp, hdraft.dst⟩
  | destination =>
      rw [Rule.add, Rule.destination_run, bind_eq_ok_iff] at h
      obtain ⟨p, hp, h⟩ := h
      cases h
      exact ⟨hdraft.src, hdraft.dst.define hvalue hp⟩

/-- A script against the catalog `c`, step by step: it ends, fails, or adds a definition and goes
on as that turned out. -/
inductive Building (c : Catalog) where
  | finish
  | fail (cause : Error)
  | add (side : Side) (outputs : List Var) (value : Expr) (made : value.Made c)
      (next : Except Error Unit → Building c)

namespace Building

variable {c : Catalog}

/-- The script that takes the steps. -/
def script : Building c → Rule.Script
  | .finish => pure ()
  | .fail cause => throw cause
  | .add side outputs value _ next => fun draft =>
      match (Rule.add side outputs value).run draft with
      | .ok (_, draft) => (next (.ok ())).script.run draft
      | .error cause => (next (.error cause)).script.run draft

/-- A run of the script keeps the draft sound. -/
theorem sound_of_run {b : Building c} {draft draft' : Rule.Draft} (hdraft : draft.Sound c)
    (h : b.script.run draft = .ok ((), draft')) : draft'.Sound c := by
  induction b generalizing draft with
  | finish => cases h; exact hdraft
  | fail cause => cases h
  | add side outputs value made next ih =>
      rw [script, StateT.run] at h
      split at h
      · rename_i draft₁ hadd
        exact ih (.ok ()) (hdraft.add made hadd) h
      · rename_i cause hadd
        exact ih (.error cause) hdraft h

end Building

end Isaforge
