import Isaforge.Proofs.Construction
import Isaforge.Shared.Instructions

/-!
# Binding — type arguments bound ahead of the application

Type arguments come to an instruction in two ways.  They are bound to a reference, at once or a few
at a time (`InstructionGroup.bind`), or they are given where the instruction is applied
(`Application.make`).  Either way `InstructionGroup.checkBinding` goes over all that have come
together so far, with four checks in a fixed order.

Which types it accepts is said place by place (`Instruction.Admits`): where a type stands, the
instruction has a type variable, and the type is in its type set.  Said in this way, the types
accepted are closed under prefixes, so that what is accepted in the end is accepted on the way.

* `InstructionGroup.checkBinding_eq_ok_iff`: the check accepts what the instruction admits.
* `InstructionGroup.binds_compose`: **binds compose**: chunk after chunk or all at once, the same
  types are accepted and the same reference is made.
* `Application.bound_ahead`: **binding ahead of time is binding at the application**, and of
  several faults the first is reported (`Application.Fault`).
-/

namespace Isaforge

/-! ### Types that are admitted -/

/-- The types may be bound to the instruction: where a type stands, there is a type variable, and
the type is in its type set. -/
def Instruction.Admits (i : Instruction) (types : List ValueType) : Prop :=
  ∀ (n : Nat) (type : ValueType), types[n]? = some type →
    ∃ var, i.typeVars[n]? = some var ∧ var.types.contains type = true

namespace Instruction

variable {i : Instruction} {types more : List ValueType}

theorem admits_nil (i : Instruction) : i.Admits [] :=
  fun _ _ h => nomatch h

/-- A prefix of admitted types is admitted. -/
theorem Admits.of_append (h : i.Admits (types ++ more)) : i.Admits types := by
  intro n type hn
  refine h n type ?_
  rw [List.getElem?_append_left (List.getElem?_eq_some_iff.mp hn).1]
  exact hn

/-- No more types are admitted than there are type variables. -/
theorem Admits.length_le (h : i.Admits types) : types.length ≤ i.typeVars.length := by
  by_contra hlong
  -- past the last type variable there is a type
  have hlt : i.typeVars.length < types.length := Nat.lt_of_not_le hlong
  obtain ⟨var, hvar, -⟩ := h _ _ (List.getElem?_eq_getElem hlt)
  rw [List.getElem?_eq_none (Nat.le_refl _)] at hvar
  cases hvar

end Instruction

namespace InstructionGroup

variable {g : InstructionGroup} {id : InstId} {i : Instruction} {ref r : InstRef}
  {types more chunk : List ValueType} {chunks : List (List ValueType)} {e : Error}

/-- Where there are not more types than type variables, no type misfits exactly when all are
admitted. -/
theorem misfit?_eq_none_iff (h : types.length ≤ i.typeVars.length) :
    misfit? i types = none ↔ i.Admits types := by
  rw [misfit?, List.find?_eq_none]
  constructor
  · intro hfits n type hn
    have hlt : n < i.typeVars.length :=
      Nat.lt_of_lt_of_le (List.getElem?_eq_some_iff.mp hn).1 h
    refine ⟨i.typeVars[n], List.getElem?_eq_getElem hlt, ?_⟩
    have hmem : (i.typeVars[n], type) ∈ i.typeVars.zip types :=
      List.mem_of_getElem? (List.getElem?_zip_eq_some.mpr ⟨List.getElem?_eq_getElem hlt, hn⟩)
    simpa using hfits _ hmem
  · rintro hadmits ⟨var, type⟩ hmem
    obtain ⟨n, hn⟩ := List.getElem?_of_mem hmem
    obtain ⟨hvar, htype⟩ := List.getElem?_zip_eq_some.mp hn
    obtain ⟨var', hvar', hcontains⟩ := hadmits n type htype
    obtain rfl := Option.some.inj (hvar.symm.trans hvar')
    simpa using hcontains

/-- Types are accepted for a known instruction that admits them, and for no other. -/
theorem checkBinding_eq_ok_iff :
    g.checkBinding id types = .ok () ↔ ∃ i, g.get? id = some i ∧ i.Admits types := by
  rw [checkBinding]
  cases g.get? id with
  | none => simp
  | some i =>
      simp only [Option.some.injEq, exists_eq_left']
      cases types with
      | nil => simp [i.admits_nil]
      | cons t ts =>
          rw [if_neg (by simp)]
          by_cases hlong : i.typeVars.length < (t :: ts).length
          · rw [if_pos hlong]
            have hnot : ¬ i.Admits (t :: ts) := fun h => Nat.not_lt.mpr h.length_le hlong
            split <;> simp [hnot]
          · have hle := Nat.not_lt.mp hlong
            have hpoly : i.isPolymorphic = true := by
              have hpos : 0 < i.typeVars.length := Nat.lt_of_lt_of_le (Nat.succ_pos _) hle
              simpa [Instruction.isPolymorphic] using List.ne_nil_of_length_pos hpos
            rw [if_neg (by simp [hpoly]), if_neg hlong, ← misfit?_eq_none_iff hle]
            cases misfit? i (t :: ts) <;> simp

/-- The type lists that the check accepts are closed under prefixes. -/
theorem checkBinding_of_append (h : g.checkBinding id (types ++ more) = .ok ()) :
    g.checkBinding id types = .ok () := by
  obtain ⟨i, hi, hadmits⟩ := checkBinding_eq_ok_iff.mp h
  exact checkBinding_eq_ok_iff.mpr ⟨i, hi, hadmits.of_append⟩

/-! ### Binds -/

/-- Binding appends to the types that are bound, if all of them together are accepted. -/
theorem bind_eq_ok_iff :
    g.bind ref types = .ok r ↔
      g.checkBinding ref.id (ref.types ++ types) = .ok () ∧
        r = .bound ref.id (ref.types ++ types) := by
  rw [bind, Isaforge.bind_eq_ok_iff]
  constructor
  · rintro ⟨⟨⟩, hcheck, h⟩
    cases h
    exact ⟨hcheck, rfl⟩
  · rintro ⟨hcheck, rfl⟩
    exact ⟨(), hcheck, rfl⟩

theorem bind_eq_error_iff :
    g.bind ref types = .error e ↔ g.checkBinding ref.id (ref.types ++ types) = .error e := by
  rw [bind]
  cases g.checkBinding ref.id (ref.types ++ types) with
  | error cause => exact ⟨fun h => by cases h; rfl, fun h => by cases h; rfl⟩
  | ok _ => exact ⟨fun h => (nomatch h), fun h => (nomatch h)⟩

/-- Bind the chunks to the reference, one after the other. -/
def bindEach (g : InstructionGroup) (ref : InstRef) (chunks : List (List ValueType)) :
    Except Error InstRef :=
  chunks.foldlM g.bind ref

/-- Binding chunk by chunk comes to binding all at once. -/
theorem bindEach_eq_ok_iff :
    g.bindEach ref (chunk :: chunks) = .ok r ↔
      g.checkBinding ref.id (ref.types ++ (chunk :: chunks).flatten) = .ok () ∧
        r = .bound ref.id (ref.types ++ (chunk :: chunks).flatten) := by
  induction chunks generalizing ref chunk with
  | nil =>
      rw [bindEach, List.foldlM_cons, List.flatten_singleton, ← bind_eq_ok_iff]
      exact Iff.of_eq (congrArg (· = _) (bind_pure _))
  | cons next chunks ih =>
      rw [bindEach, List.foldlM_cons, Isaforge.bind_eq_ok_iff, List.flatten_cons,
        ← List.append_assoc]
      constructor
      · rintro ⟨s, hs, hrest⟩
        obtain ⟨-, rfl⟩ := bind_eq_ok_iff.mp hs
        exact ih.mp hrest
      · intro h
        -- what is accepted in the end is accepted on the way
        exact ⟨.bound ref.id (ref.types ++ chunk),
          bind_eq_ok_iff.mpr ⟨checkBinding_of_append h.1, rfl⟩, ih.mpr h⟩

/-- **Binds compose.**  Binding the chunks of a list one after the other succeeds exactly when
binding the whole list does, with the same reference, which carries its own type arguments and then
the list; and the type lists that may be bound to an instruction are closed under prefixes. -/
theorem binds_compose (g : InstructionGroup) (ref : InstRef) (chunk : List ValueType)
    (chunks : List (List ValueType)) :
    (∀ r, g.bindEach ref (chunk :: chunks) = .ok r ↔
        g.bind ref (chunk :: chunks).flatten = .ok r) ∧
      (∀ r, g.bind ref (chunk :: chunks).flatten = .ok r →
        r = .bound ref.id (ref.types ++ (chunk :: chunks).flatten)) ∧
      ∀ id types more, g.checkBinding id (types ++ more) = .ok () →
        g.checkBinding id types = .ok () :=
  ⟨fun _ => bindEach_eq_ok_iff.trans bind_eq_ok_iff.symm, fun _ h => (bind_eq_ok_iff.mp h).2,
    fun _ _ _ => checkBinding_of_append⟩

/-- Where both ways are refused, the reasons may differ: on the way to two types for the only type
variable of `iadd`, the first one misfits. -/
example :
    let f32 : ValueType := .scalar ⟨.float, 32⟩
    let i32 : ValueType := .scalar ⟨.int, 32⟩
    Shared.group.bindEach (.unbound ⟨3⟩) [[f32], [i32]] =
        .error (.typeNotAllowed "iadd" "Int" "f32") ∧
      Shared.group.bind (.unbound ⟨3⟩) [f32, i32] = .error (.tooManyTypeArguments "iadd" 1 2) := by
  exact ⟨rfl, rfl⟩

end InstructionGroup

/-! ### Applications -/

/-- The reference is bound, be it to no types. -/
def InstRef.isBound : InstRef → Bool
  | .unbound _ => false
  | .bound _ _ => true

namespace Application

variable {c : Catalog} {g : InstructionGroup} {id : InstId} {i : Instruction} {s : Signature}
  {ref : InstRef} {types : List ValueType} {args : List Expr} {e e' : Error} {m n : Nat}

/-- A reference that is bound takes no further types. -/
theorem typeArguments_eq (name : String) (ref : InstRef) (types : List ValueType) :
    typeArguments name ref types =
      if ref.isBound = true ∧ types ≠ [] then .error (.alreadyBound name)
      else .ok (ref.types ++ types) := by
  cases ref with
  | unbound id => simp [typeArguments, InstRef.isBound, InstRef.types]
  | bound id own => cases types <;> simp [typeArguments, InstRef.isBound, InstRef.types]

theorem make_of_unknown (h : c.signature? ref.id = none) :
    make c ref types args = .error (.unknownInstruction ref.id.index) := by
  rw [make, h]

theorem make_of_rebound (hs : c.signature? ref.id = some s) (hbound : ref.isBound = true)
    (htypes : types ≠ []) : make c ref types args = .error (.alreadyBound s.name) := by
  rw [make, hs]
  simp only [typeArguments_eq, if_pos (And.intro hbound htypes)]
  rfl

/-- When the reference is not bound a second time, its own type arguments and those given are
checked together, and then the arguments are counted. -/
theorem make_of_known (hs : c.signature? ref.id = some s)
    (honce : ¬ (ref.isBound = true ∧ types ≠ [])) :
    make c ref types args =
      (c.checkBinding ref.id (ref.types ++ types) >>= fun _ =>
        if args.length = s.arity then .ok ⟨⟨ref.id, s.name, ref.types ++ types⟩, args⟩
        else .error (.arityMismatch s.name s.arity args.length)) := by
  rw [make, hs]
  simp only [typeArguments_eq, if_neg honce]
  by_cases hlength : args.length = s.arity
  · simp only [if_pos hlength, if_neg (not_not_intro hlength)]
    rfl
  · simp only [if_neg hlength, if_pos hlength]
    rfl

/-- The faults of an application, each found without regard to the others.  They are numbered in
the order in which they are reported. -/
inductive Fault (c : Catalog) (ref : InstRef) (types : List ValueType) (args : List Expr) :
    Nat → Error → Prop where
  | unknown : c.signature? ref.id = none →
      Fault c ref types args 0 (.unknownInstruction ref.id.index)
  | rebound {s : Signature} : c.signature? ref.id = some s → ref.isBound = true → types ≠ [] →
      Fault c ref types args 1 (.alreadyBound s.name)
  | binding {e : Error} : c.checkBinding ref.id (ref.types ++ types) = .error e →
      Fault c ref types args 2 e
  | arity {s : Signature} : c.signature? ref.id = some s → args.length ≠ s.arity →
      Fault c ref types args 3 (.arityMismatch s.name s.arity args.length)

/-- The fault that no other one precedes. -/
def FirstFault (c : Catalog) (ref : InstRef) (types : List ValueType) (args : List Expr)
    (e : Error) : Prop :=
  ∃ n, Fault c ref types args n e ∧ ∀ m e', Fault c ref types args m e' → n ≤ m

/-- Each check has at most one reason to fail. -/
theorem Fault.eq (h : Fault c ref types args n e) (h' : Fault c ref types args n e') : e = e' := by
  cases h with
  | unknown _ => cases h' with | unknown _ => rfl
  | rebound hs _ _ =>
      cases h' with
      | rebound hs' _ _ => rw [Option.some.inj (hs.symm.trans hs')]
  | binding hcheck =>
      cases h' with
      | binding hcheck' => exact Except.error.inj (hcheck.symm.trans hcheck')
  | arity hs _ =>
      cases h' with
      | arity hs' _ => rw [Option.some.inj (hs.symm.trans hs')]

/-- The first fault is the only one that is reported. -/
theorem FirstFault.eq (h : FirstFault c ref types args e) (h' : FirstFault c ref types args e') :
    e = e' := by
  obtain ⟨n, hn, hfirst⟩ := h
  obtain ⟨n', hn', hfirst'⟩ := h'
  obtain rfl : n = n' := Nat.le_antisymm (hfirst n' e' hn') (hfirst' n e hn)
  exact hn.eq hn'

theorem Fault.one_le (hs : c.signature? ref.id = some s) (h : Fault c ref types args n e) :
    1 ≤ n := by
  cases h with
  | unknown hnone =>
      rw [hnone] at hs
      cases hs
  | rebound | binding | arity => decide

theorem Fault.two_le (hs : c.signature? ref.id = some s)
    (honce : ¬ (ref.isBound = true ∧ types ≠ [])) (h : Fault c ref types args n e) : 2 ≤ n := by
  have hle := h.one_le hs
  cases h with
  | unknown => exact absurd hle (by decide)
  | rebound _ hbound htypes => exact absurd ⟨hbound, htypes⟩ honce
  | binding | arity => decide

/-- An application whose types are accepted has no fault but a wrong number of arguments. -/
theorem Fault.length_ne (hs : c.signature? ref.id = some s)
    (honce : ¬ (ref.isBound = true ∧ types ≠ []))
    (hcheck : c.checkBinding ref.id (ref.types ++ types) = .ok ())
    (h : Fault c ref types args n e) : n = 3 ∧ args.length ≠ s.arity := by
  have hle := h.two_le hs honce
  cases h with
  | unknown | rebound => exact absurd hle (by decide)
  | binding herror =>
      rw [hcheck] at herror
      cases herror
  | arity hs' hlength => exact ⟨rfl, Option.some.inj (hs'.symm.trans hs) ▸ hlength⟩

/-- An application is made when it has no fault, and refused for its first one when it has. -/
theorem made_or_refused (c : Catalog) (ref : InstRef) (types : List ValueType) (args : List Expr) :
    (∃ a, make c ref types args = .ok a ∧ ∀ n e, ¬ Fault c ref types args n e) ∨
      ∃ e, make c ref types args = .error e ∧ FirstFault c ref types args e := by
  cases hs : c.signature? ref.id with
  | none => exact .inr ⟨_, make_of_unknown hs, 0, .unknown hs, fun m _ _ => Nat.zero_le m⟩
  | some s =>
      by_cases htwice : ref.isBound = true ∧ types ≠ []
      · exact .inr ⟨_, make_of_rebound hs htwice.1 htwice.2, 1,
          .rebound hs htwice.1 htwice.2, fun _ _ h => h.one_le hs⟩
      · rw [make_of_known hs htwice]
        cases hcheck : c.checkBinding ref.id (ref.types ++ types) with
        | error cause =>
            exact .inr ⟨cause, rfl, 2, .binding hcheck, fun _ _ h => h.two_le hs htwice⟩
        | ok _ =>
            by_cases hlength : args.length = s.arity
            · exact .inl ⟨_, if_pos hlength, fun _ _ h =>
                (h.length_ne hs htwice hcheck).2 hlength⟩
            · exact .inr ⟨_, if_neg hlength, 3, .arity hs hlength, fun _ _ h =>
                (h.length_ne hs htwice hcheck).1.ge⟩

/-- An application is refused for its first fault, in the order of the checks. -/
theorem make_eq_error_iff :
    make c ref types args = .error e ↔ FirstFault c ref types args e := by
  rcases made_or_refused c ref types args with ⟨a, hmade, hnone⟩ | ⟨cause, hrefused, hfirst⟩
  · rw [hmade]
    exact ⟨fun h => (nomatch h), fun ⟨n, hn, _⟩ => absurd hn (hnone n e)⟩
  · rw [hrefused, Except.error.injEq]
    exact ⟨fun h => h ▸ hfirst, fun h => hfirst.eq h⟩

/-! ### Binding ahead -/

/-- Types may be bound ahead, or given with the application. -/
theorem make_of_bound (c : Catalog) (id : InstId) (types : List ValueType) (args : List Expr) :
    make c (.bound id types) [] args = make c (.unbound id) types args :=
  rfl

/-- Types that may not be bound are refused at the application for the same reason. -/
theorem make_of_checkBinding_eq_error (h : g.checkBinding id types = .error e) :
    make g.catalog (.unbound id) types args = .error e := by
  cases hi : g.get? id with
  | none =>
      have hsignature : g.catalog.signature? id = none := congrArg (Option.map _) hi
      rw [InstructionGroup.checkBinding, hi] at h
      cases h
      exact make_of_unknown hsignature
  | some i =>
      have honce : ¬ ((InstRef.unbound id).isBound = true ∧ types ≠ []) := by
        rintro ⟨hbound, -⟩
        cases hbound
      have hcheck : g.catalog.checkBinding id ([] ++ types) = .error e := h
      have hsignature := InstructionGroup.catalog_signature?_eq_some hi
      rw [make_of_known hsignature honce, InstRef.id, InstRef.types, hcheck]
      rfl

/-- An unbound reference is applied when the instruction is known, the types may be bound to it,
and there are as many arguments as inputs. -/
theorem exists_make_unbound_iff :
    (∃ a, make g.catalog (.unbound id) types args = .ok a) ↔
      ∃ i, g.get? id = some i ∧ g.checkBinding id types = .ok () ∧ args.length = i.arity := by
  constructor
  · rintro ⟨a, ha⟩
    obtain ⟨s, bound, hs, hbound, hcheck, hlength, -⟩ := make_eq_ok_iff.mp ha
    obtain ⟨i, hi, rfl⟩ := InstructionGroup.catalog_signature?_eq_some_iff.mp hs
    obtain rfl : types = bound := Except.ok.inj hbound
    exact ⟨i, hi, hcheck, hlength⟩
  · rintro ⟨i, hi, hcheck, hlength⟩
    have hsignature := InstructionGroup.catalog_signature?_eq_some hi
    exact ⟨_, make_eq_ok_iff.mpr ⟨i.signature, types, hsignature, rfl, hcheck, hlength, rfl⟩⟩

/-- How the application of instruction `id` to `types` and `args` relates to binding the types
ahead, and how its faults are ordered. -/
structure BoundAhead (g : InstructionGroup) (id : InstId) (types : List ValueType)
    (args : List Expr) : Prop where
  /-- Where the types are bound ahead, nothing is changed at the application. -/
  applied : ∀ ref, g.bind (.unbound id) types = .ok ref →
    make g.catalog ref [] args = make g.catalog (.unbound id) types args
  /-- Where the types may not be bound, the application is refused for the same reason. -/
  refused : ∀ e, g.bind (.unbound id) types = .error e →
    make g.catalog (.unbound id) types args = .error e
  made_iff : (∃ a, make g.catalog (.unbound id) types args = .ok a) ↔
    ∃ i, g.get? id = some i ∧ g.checkBinding id types = .ok () ∧ args.length = i.arity
  rebound : ∀ own i, g.get? id = some i → types ≠ [] →
    make g.catalog (.bound id own) types args = .error (.alreadyBound i.name)
  first_fault : ∀ ref e, make g.catalog ref types args = .error e ↔
    FirstFault g.catalog ref types args e

/-- **Binding ahead of time is binding at the application.**  This is so for every group, every
instruction, known or not, and all types and arguments; and of several faults of an application,
the first is reported. -/
theorem bound_ahead (g : InstructionGroup) (id : InstId) (types : List ValueType)
    (args : List Expr) : BoundAhead g id types args where
  applied := by
    intro ref h
    obtain ⟨-, rfl⟩ := InstructionGroup.bind_eq_ok_iff.mp h
    exact make_of_bound g.catalog id types args
  refused := fun _ h =>
    make_of_checkBinding_eq_error (InstructionGroup.bind_eq_error_iff.mp h)
  made_iff := exists_make_unbound_iff
  rebound := fun _ _ hi htypes =>
    make_of_rebound (InstructionGroup.catalog_signature?_eq_some hi) rfl htypes
  first_fault := fun _ _ => make_eq_error_iff

/-- A reference that is bound to no types is bound all the same, and the types given to it are not
looked at: `jump` is not polymorphic. -/
example :
    make Shared.group.catalog (.bound ⟨0⟩ []) [.scalar ⟨.int, 32⟩] [] =
      .error (.alreadyBound "jump") := by
  rfl

end Application

end Isaforge
