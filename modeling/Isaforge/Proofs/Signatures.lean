import Isaforge.Proofs.Binding

/-!
# Signatures — what is lost where only signatures are known

A catalog of signatures alone counts the types that are bound to an instruction.  A group counts
them too, on its own instructions, and looks into the type sets after that
(`InstructionGroup.checkTypes`).  So the check of a group is that of its signatures with one more
behind it (`InstructionGroup.checkBinding_eq_bind`), and all that this one adds is an error at the
first place where a type is outside the type set of its variable (`Instruction.FirstMisfit`).

`InstructionGroup.refines_signatures`: **a group refines its signatures**: where they give an error
it gives the same one, and what is put together against it can be put together against them.
-/

namespace Isaforge

/-- Place `n` is the first with a type that the type set of the variable there does not contain. -/
structure Instruction.FirstMisfit (i : Instruction) (types : List ValueType) (n : Nat)
    (var : TypeVar) (type : ValueType) : Prop where
  var_at : i.typeVars[n]? = some var
  type_at : types[n]? = some type
  outside : var.types.contains type = false
  inside : ∀ (m : Nat) (w : TypeVar) (t : ValueType), m < n → i.typeVars[m]? = some w →
    types[m]? = some t → w.types.contains t = true

namespace InstructionGroup

variable {g : InstructionGroup} {id : InstId} {i : Instruction} {types : List ValueType}
  {var : TypeVar} {type : ValueType} {e : Error}

/-! ### Misfits -/

theorem misfit?_eq_some_iff :
    misfit? i types = some (var, type) ↔ ∃ n, i.FirstMisfit types n var type := by
  have hpair : ∀ (n : Nat) (w : TypeVar) (t : ValueType),
      (i.typeVars.zip types)[n]? = some (w, t) ↔ i.typeVars[n]? = some w ∧ types[n]? = some t :=
    fun _ _ _ => List.getElem?_zip_eq_some
  rw [misfit?, List.find?_eq_some_iff_getElem]
  constructor
  · rintro ⟨hout, n, hn, hat, hbefore⟩
    obtain ⟨hvar, htype⟩ := (hpair n var type).mp (List.getElem?_eq_some_iff.mpr ⟨hn, hat⟩)
    refine ⟨n, hvar, htype, by simpa using hout, fun m w t hm hw ht => ?_⟩
    obtain ⟨hlt, hfits⟩ := List.getElem?_eq_some_iff.mp ((hpair m w t).mpr ⟨hw, ht⟩)
    have hbefore := hbefore m hm
    rw [hfits] at hbefore
    simpa using hbefore
  · rintro ⟨n, h⟩
    obtain ⟨hn, hat⟩ :=
      List.getElem?_eq_some_iff.mp ((hpair n var type).mpr ⟨h.var_at, h.type_at⟩)
    refine ⟨by simpa using h.outside, n, hn, hat, fun m hm => ?_⟩
    obtain ⟨hw, ht⟩ := (hpair m _ _).mp (List.getElem?_eq_getElem (Nat.lt_trans hm hn))
    simpa using h.inside m _ _ hm hw ht

/-! ### The check of a group -/

/-- Each type is in the type set of its type variable, if the instruction is known. -/
def checkTypes (g : InstructionGroup) (id : InstId) (types : List ValueType) : Except Error Unit :=
  match g.get? id with
  | none => .ok ()
  | some i =>
    match misfit? i types with
    | some (var, type) => .error (.typeNotAllowed i.name var.name type.text)
    | none => .ok ()

/-- The check of a group counts as its signatures do, and looks into the type sets after that. -/
theorem checkBinding_eq_bind (g : InstructionGroup) (id : InstId) (types : List ValueType) :
    g.checkBinding id types =
      g.signatures.checkBinding id types >>= fun _ => g.checkTypes id types := by
  have hcount : g.signatures.checkBinding id types = Catalog.checkCount g.signature? id types := rfl
  rw [hcount, Catalog.checkCount, checkBinding, checkTypes, signature?]
  cases g.get? id with
  | none => rfl
  | some i =>
      simp only [Option.map_some, Instruction.signature]
      cases types with
      | nil =>
          have hnone : misfit? i [] = none := by rw [misfit?, List.zip_nil_right, List.find?_nil]
          rw [hnone]
          rfl
      | cons t ts =>
          cases i.isPolymorphic with
          | false => rfl
          | true =>
              by_cases hlong : i.typeVars.length < (t :: ts).length
              · simp only [if_pos hlong]
                rfl
              · simp only [if_neg hlong]
                rfl

/-- Where the signatures give an error, so does the group. -/
theorem checkBinding_eq_error_of_signatures (h : g.signatures.checkBinding id types = .error e) :
    g.checkBinding id types = .error e := by
  rw [checkBinding_eq_bind, h]
  rfl

/-- What the group accepts, its signatures accept. -/
theorem signatures_checkBinding_of_eq_ok (h : g.checkBinding id types = .ok ()) :
    g.signatures.checkBinding id types = .ok () := by
  rw [checkBinding_eq_bind, Isaforge.bind_eq_ok_iff] at h
  obtain ⟨⟨⟩, hcount, -⟩ := h
  exact hcount

/-- The signatures accept types for known instructions only. -/
theorem exists_of_signatures_checkBinding (h : g.signatures.checkBinding id types = .ok ()) :
    ∃ i, g.get? id = some i := by
  cases hi : g.get? id with
  | some i => exact ⟨i, rfl⟩
  | none =>
      have hunknown : g.signature? id = none := congrArg (Option.map _) hi
      have hcount : Catalog.checkCount g.signature? id types = .ok () := h
      rw [Catalog.checkCount, hunknown] at hcount
      cases hcount

/-- Of types that the signatures accept, the group accepts all that have no misfit, and reports the
first of those that have one. -/
theorem checkBinding_of_signatures (hcount : g.signatures.checkBinding id types = .ok ())
    (hi : g.get? id = some i) :
    (g.checkBinding id types = .ok () ∧ ∀ n var type, ¬ i.FirstMisfit types n var type) ∨
      ∃ n var type, i.FirstMisfit types n var type ∧
        g.checkBinding id types = .error (.typeNotAllowed i.name var.name type.text) := by
  have hcheck : g.checkBinding id types = g.checkTypes id types := by
    rw [checkBinding_eq_bind, hcount]
    rfl
  simp only [hcheck, checkTypes, hi]
  cases hmisfit : misfit? i types with
  | none =>
      refine .inl ⟨rfl, fun n var type h => ?_⟩
      rw [misfit?_eq_some_iff.mpr ⟨n, h⟩] at hmisfit
      cases hmisfit
  | some pair =>
      obtain ⟨var, type⟩ := pair
      obtain ⟨n, h⟩ := misfit?_eq_some_iff.mp hmisfit
      exact .inr ⟨n, var, type, h, rfl⟩

end InstructionGroup

/-! ### What is put together against a group -/

/-- An application made against a group is made against its signatures, and is the same. -/
theorem Application.make_signatures {g : InstructionGroup} {ref : InstRef} {types : List ValueType}
    {args : List Expr} {a : Application} (h : make g.catalog ref types args = .ok a) :
    make g.signatures ref types args = .ok a := by
  obtain ⟨s, bound, hs, hbound, hcheck, hlength, ha⟩ := make_eq_ok_iff.mp h
  exact make_eq_ok_iff.mpr ⟨s, bound, hs, hbound,
    InstructionGroup.signatures_checkBinding_of_eq_ok hcheck, hlength, ha⟩

/-- So is an expression, whose applications are made from the inside out. -/
theorem Expr.Made.signatures {g : InstructionGroup} {e : Expr} (h : e.Made g.catalog) :
    e.Made g.signatures := by
  induction h with
  | var v => exact .var v
  | app _ hmake ih => exact .app ih (Application.make_signatures hmake)

namespace InstructionGroup

/-- What a group adds to its signatures. -/
structure RefinesSignatures (g : InstructionGroup) : Prop where
  refused : ∀ id types e, g.signatures.checkBinding id types = .error e →
    g.checkBinding id types = .error e
  /-- Of the types that the signatures accept, the group refuses those of which one is outside the
  type set of its variable, and it names the first of these. -/
  accepted : ∀ id types, g.signatures.checkBinding id types = .ok () →
    ∃ i, g.get? id = some i ∧
      ((g.checkBinding id types = .ok () ∧ ∀ n var type, ¬ i.FirstMisfit types n var type) ∨
        ∃ n var type, i.FirstMisfit types n var type ∧
          g.checkBinding id types = .error (.typeNotAllowed i.name var.name type.text))
  applied : ∀ ref types args a, Application.make g.catalog ref types args = .ok a →
    Application.make g.signatures ref types args = .ok a
  made : ∀ e : Expr, e.Made g.catalog → e.Made g.signatures

/-- **A group refines its signatures.**  This is so for every group: its own check gives every error
that counting alone gives, and no other but that of the first type outside its type set. -/
theorem refines_signatures (g : InstructionGroup) : RefinesSignatures g where
  refused := fun _ _ _ => checkBinding_eq_error_of_signatures
  accepted := by
    intro id types hcount
    obtain ⟨i, hi⟩ := exists_of_signatures_checkBinding hcount
    exact ⟨i, hi, checkBinding_of_signatures hcount hi⟩
  applied := fun _ _ _ _ => Application.make_signatures
  made := fun _ => Expr.Made.signatures

/-- The one error that is added: a float for the type variable of `iadd`. -/
example :
    let f32 : ValueType := .scalar ⟨.float, 32⟩
    Shared.group.signatures.checkBinding ⟨3⟩ [f32] = .ok () ∧
      Shared.group.checkBinding ⟨3⟩ [f32] = .error (.typeNotAllowed "iadd" "Int" "f32") := by
  exact ⟨rfl, rfl⟩

end InstructionGroup

end Isaforge
