import Isaforge.Legalizer.Statement
import Isaforge.Proofs.FreshNames
import Isaforge.Proofs.Reading

/-!
# Characters — what generated names and calls are written with

Around the names that it is given, the generator writes letters and digits, and few other characters
(`punctuation`).  So a character that is none of these is in a list of names, in a constant or in a
call only if it is in one of the names: the texts are `Free` of it when the names are.
-/

namespace Isaforge

variable {cs : List Char} {s t : String} {c : Char}

/-- The text has none of the characters. -/
def Free (cs : List Char) (s : String) : Prop :=
  ∀ c ∈ s.toList, c ∉ cs

-- The general instance for `∀ c : Char` would go through all characters.
instance (cs : List Char) (s : String) : Decidable (Free cs s) :=
  List.decidableBAll _ s.toList

theorem Free.append (hs : Free cs s) (ht : Free cs t) : Free cs (s ++ t) := by
  rw [Free, String.toList_append]
  exact List.forall_mem_append.mpr ⟨hs, ht⟩

theorem Free.intercalate {ts : List String} (hs : Free cs s) (hts : ∀ t ∈ ts, Free cs t) :
    Free cs (s.intercalate ts) := by
  induction ts with
  | nil => exact List.forall_mem_nil _
  | cons t ts ih =>
      rw [List.forall_mem_cons] at hts
      cases ts with
      | nil =>
          rw [String.intercalate_singleton]
          exact hts.1
      | cons u ts =>
          rw [String.intercalate_cons_cons]
          exact (hts.1.append hs).append (ih hts.2)

/-! ### Common characters -/

/-- The characters that the generator writes around names, besides letters and digits. -/
def punctuation : List Char :=
  ['_', ':', '(', ')', ',', ' ']

/-- The text has only letters, digits and punctuation. -/
def Common (s : String) : Prop :=
  ∀ c ∈ s.toList, c.isAlphanum ∨ c ∈ punctuation

instance (s : String) : Decidable (Common s) :=
  List.decidableBAll _ s.toList

/-- None of the characters is a letter, a digit or punctuation. -/
def Uncommon (cs : List Char) : Prop :=
  ∀ c ∈ cs, ¬ (c.isAlphanum ∨ c ∈ punctuation)

instance (cs : List Char) : Decidable (Uncommon cs) :=
  List.decidableBAll _ cs

/-- A text of common characters has no uncommon ones. -/
theorem Common.free (h : Common s) (hcs : Uncommon cs) : Free cs s :=
  fun c hc hmem => hcs c hmem (h c hc)

theorem Common.append (hs : Common s) (ht : Common t) : Common (s ++ t) := by
  rw [Common, String.toList_append]
  exact List.forall_mem_append.mpr ⟨hs, ht⟩

/-- Numbers are written in common characters. -/
theorem Common.of_digits (n : Nat) : Common (toString n) := by
  intro c hc
  rw [Char.isAlphanum, ValueType.isDigit_of_mem_toList_repr hc, Bool.or_true]
  exact .inl rfl

/-- The capital of a letter is a letter. -/
theorem isAlphanum_toUpper (h : c.isAlphanum = true) : c.toUpper.isAlphanum = true := by
  have hascii : ∀ n < 123, (Char.ofNat n).isAlphanum = true →
      (Char.ofNat n).toUpper.isAlphanum = true := by
    decide
  by_cases hlt : c.toNat < 123
  · have hletter := hascii c.toNat hlt
    rw [Char.ofNat_toNat] at hletter
    exact hletter h
  · have hself : c.toUpper = c := dif_neg fun hle => hlt (Nat.lt_succ_of_le hle.2)
    rw [hself]
    exact h

namespace ValueType

/-- The constant of a type is written in common characters. -/
theorem common_constant (t : ValueType) : Common t.constant := by
  have htype : Common t.text.toUpper := by
    intro C hC
    rw [String.toUpper, String.toList_map] at hC
    obtain ⟨c, hc, rfl⟩ := List.mem_map.mp hC
    exact .inl (isAlphanum_toUpper (isAlphanum_of_mem_text hc))
  exact .append (by decide) htype

end ValueType

/-- A fresh name is a number behind text of the generator. -/
theorem Fresh.common_of_mem_take {taken : List String} {n k : Nat} {name : String}
    (h : name ∈ (supply taken).take n k) : Common name := by
  rw [take_eq_map, List.mem_map] at h
  obtain ⟨m, -, rfl⟩ := h
  exact .append (by decide) (.of_digits m)

/-! ### Names and calls -/

/-- The name of a method is that of its instruction, with an underscore at most. -/
theorem Instruction.free_methodName (hcs : Uncommon cs) {i : Instruction} (h : Free cs i.name) :
    Free cs i.methodName := by
  have hunderscore : Common "_" := by decide
  rw [methodName]
  split
  · exact h.append (hunderscore.free hcs)
  · exact h

theorem Definition.free_bindingText (hcs : Uncommon cs) {names : List String}
    (h : ∀ n ∈ names, Free cs n) : Free cs (bindingText names) := by
  have hcommon : Common ", " ∧ Common "(" ∧ Common ")" := by decide
  have hlist : Free cs (", ".intercalate names) := .intercalate (hcommon.1.free hcs) h
  unfold bindingText
  split
  · exact List.forall_mem_singleton.mp h
  · exact ((hcommon.2.1.free hcs).append hlist).append (hcommon.2.2.free hcs)

/-- A call brings in no uncommon character: those in it are in its method or its arguments. -/
theorem Legalizer.BuilderCall.free_text (hcs : Uncommon cs) {c : BuilderCall}
    (hmethod : Free cs c.method) (hargs : ∀ a ∈ c.args, Free cs a) : Free cs c.text := by
  have hcommon : Common ", " ∧ Common "(" ∧ Common ")" ∧ Common matchedTypeName := by decide
  have htype : ∀ a ∈ (c.type?.map (·.text)).toList, Free cs a := by
    cases c.type? with
    | none => exact List.forall_mem_nil _
    | some type =>
        refine List.forall_mem_singleton.mpr ?_
        cases type with
        | constant type => exact type.common_constant.free hcs
        | matched => exact hcommon.2.2.2.free hcs
  have hall : Free cs (", ".intercalate ((c.type?.map (·.text)).toList ++ c.args)) :=
    .intercalate (hcommon.1.free hcs) (List.forall_mem_append.mpr ⟨htype, hargs⟩)
  exact ((hmethod.append (hcommon.2.1.free hcs)).append hall).append (hcommon.2.2.1.free hcs)

end Isaforge
