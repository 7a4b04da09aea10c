import Mathlib.Data.List.Nodup
import Isaforge.Text.CamelCase

/-!
# Camel case — names that it keeps apart

`camelCase` drops underscores, so that `a_b` and `a__b` become one name, and so do `load_32` and
`load32`, for a digit is its own capital.  Names in snake case (`IsSnakeCase`) it keeps apart: each
word begins with a small letter, so that the capitals of the result are where words begin
(`eq_of_camelCase_eq`).

A character that is in no capital but its own is in camel case only when it was there before
(`NoCapital.mem_of_mem_camelChars`).  So no text in camel case begins with the letter `p`
(`head?_camelChars`).
-/

namespace Isaforge.Text

variable {c : Char} {cs ds : List Char} {s t : String} {start : Bool}

/-! ### Snake case -/

/-- The characters are words parted by single underscores, each of which begins with a small letter
of ASCII and has no capital of ASCII; `start` says that the next character begins a word. -/
def snakeChars (start : Bool) : List Char → Bool
  | [] => !start
  | c :: cs =>
    if start then c.isLower && snakeChars false cs
    else if c = '_' then snakeChars true cs
    else !c.isUpper && snakeChars false cs

/-- The text is in snake case. -/
def IsSnakeCase (s : String) : Prop :=
  snakeChars true s.toList = true

instance (s : String) : Decidable (IsSnakeCase s) :=
  inferInstanceAs (Decidable (_ = true))

/-- A word begins with a small letter. -/
theorem snakeChars_start (h : snakeChars true cs = true) :
    ∃ c cs', cs = c :: cs' ∧ c.isLower ∧ snakeChars false cs' = true := by
  cases cs with
  | nil => cases h
  | cons c cs =>
      rw [snakeChars, if_pos rfl, Bool.and_eq_true] at h
      exact ⟨c, cs, rfl, h⟩

/-- A word ends, or goes on with an underscore before another word, or with no capital. -/
theorem snakeChars_inside (h : snakeChars false cs = true) :
    cs = [] ∨ (∃ cs', cs = '_' :: cs' ∧ snakeChars true cs' = true) ∨
      ∃ c cs', cs = c :: cs' ∧ c ≠ '_' ∧ ¬ c.isUpper ∧ snakeChars false cs' = true := by
  cases cs with
  | nil => exact .inl rfl
  | cons c cs =>
      rw [snakeChars, if_neg Bool.false_ne_true] at h
      split at h
      · rename_i hc
        exact .inr (.inl ⟨cs, by rw [hc], h⟩)
      · rename_i hc
        rw [Bool.and_eq_true, Bool.not_eq_true'] at h
        exact .inr (.inr ⟨c, cs, rfl, hc, by simp [h.1], h.2⟩)

/-- A text in snake case does not end in an underscore. -/
theorem snakeChars_concat_underscore (start : Bool) (cs : List Char) :
    snakeChars start (cs ++ ['_']) = false := by
  induction cs generalizing start with
  | nil => cases start <;> rfl
  | cons c cs ih => simp [snakeChars, ih]

/-! ### Capitals -/

theorem capital_ofNat : ∀ n < 123, 97 ≤ n →
    capital (Char.ofNat n) = [Char.ofNat (n - 32)] ∧ (Char.ofNat (n - 32)).isUpper ∧
      (Char.ofNat (n - 32)).toNat + 32 = n := by
  decide

/-- A small letter of ASCII has one capital, 32 places before it. -/
theorem capital_of_isLower (h : c.isLower) :
    ∃ C, capital c = [C] ∧ C.isUpper ∧ C.toNat + 32 = c.toNat := by
  obtain ⟨hfirst, hlast⟩ := Bool.and_eq_true_iff.mp h
  have hlow : 97 ≤ c.toNat := of_decide_eq_true hfirst
  have hhigh : c.toNat ≤ 122 := of_decide_eq_true hlast
  have hcapital := capital_ofNat c.toNat (Nat.lt_succ_of_le hhigh) hlow
  rw [Char.ofNat_toNat] at hcapital
  exact ⟨_, hcapital⟩

theorem ne_underscore_of_isLower (h : c.isLower) : c ≠ '_' := by
  rintro rfl
  cases h

/-- A word begins with a capital. -/
theorem camelChars_start (cs : List Char) (h : c.isLower) :
    ∃ C, camelChars true (c :: cs) = C :: camelChars false cs ∧ C.isUpper ∧
      C.toNat + 32 = c.toNat := by
  obtain ⟨C, hcapital, hC⟩ := capital_of_isLower h
  refine ⟨C, ?_, hC⟩
  rw [camelChars, if_neg (ne_underscore_of_isLower h), if_pos rfl, hcapital]
  rfl

theorem camelChars_inside (h : c ≠ '_') :
    camelChars false (c :: cs) = c :: camelChars false cs := by
  rw [camelChars, if_neg h]
  rfl

theorem camelChars_underscore : camelChars start ('_' :: cs) = camelChars true cs := by
  rw [camelChars, if_pos rfl]

/-! ### Reading back -/

/-- The characters of snake case whose camel case is `cs`: a capital begins a word. -/
def snakeOf (start : Bool) : List Char → List Char
  | [] => []
  | C :: Cs =>
    if C.isUpper then (if start then [] else ['_']) ++ Char.ofNat (C.toNat + 32) :: snakeOf false Cs
    else C :: snakeOf false Cs

/-- Characters in snake case are read back from their camel case. -/
theorem snakeOf_camelChars (h : snakeChars start cs = true) :
    snakeOf start (camelChars start cs) = cs := by
  induction cs generalizing start with
  | nil => rfl
  | cons c cs ih =>
      cases start with
      | true =>
          obtain ⟨c', cs', heq, hc, hcs⟩ := snakeChars_start h
          cases heq
          obtain ⟨C, hcamel, hC, hcode⟩ := camelChars_start cs hc
          rw [hcamel, snakeOf, if_pos hC, if_pos rfl, ih hcs, hcode, Char.ofNat_toNat]
          rfl
      | false =>
          rcases snakeChars_inside h with hnil | ⟨cs', heq, hnext⟩ | ⟨c', cs', heq, hc, hupper, hcs⟩
          · cases hnil
          · cases heq
            -- the first character of the next word tells that there was an underscore
            obtain ⟨c', cs', rfl, hc', -⟩ := snakeChars_start hnext
            obtain ⟨C, hcamel, hC, -⟩ := camelChars_start cs' hc'
            have hword := ih hnext
            rw [hcamel, snakeOf, if_pos hC, if_pos rfl, List.nil_append] at hword
            rw [camelChars_underscore, hcamel, snakeOf, if_pos hC, if_neg Bool.false_ne_true, hword]
            rfl
          · cases heq
            rw [camelChars_inside hc, snakeOf, if_neg hupper, ih hcs]

/-- **Names in snake case are kept apart** by camel case. -/
theorem eq_of_camelCase_eq (hs : IsSnakeCase s) (ht : IsSnakeCase t)
    (h : camelCase s = camelCase t) : s = t := by
  rw [camelCase, camelCase, String.ofList_inj] at h
  have hread := congrArg (snakeOf true) h
  rw [snakeOf_camelChars hs, snakeOf_camelChars ht] at hread
  exact String.toList_inj.mp hread

theorem nodup_map_camelCase {names : List String} (h : names.Nodup)
    (hsnake : ∀ n ∈ names, IsSnakeCase n) : (names.map camelCase).Nodup :=
  h.map_on fun n hn n' hn' heq => eq_of_camelCase_eq (hsnake n hn) (hsnake n' hn') heq

/-! ### Characters that are no capitals -/

/-- No character has `b` in its capital, unless it is `b`. -/
structure NoCapital (b : Char) : Prop where
  code_ne_zero : b.toNat ≠ 0
  texts : ∀ e ∈ capitalTexts, b.toNat ∉ e.2
  runs : ∀ r ∈ capitalRuns, ¬ r.contains (b.toNat - r.shift).toNat

theorem eq_code_of_ofNat_eq {b : Char} {n : Nat} (hb : b.toNat ≠ 0) (h : Char.ofNat n = b) :
    n = b.toNat := by
  by_cases hvalid : n.isValidChar
  · have hcode : (Char.ofNat n).toNat = n := by
      rw [Char.ofNat, dif_pos hvalid]
      rfl
    rw [← hcode, h]
  · rw [Char.ofNat, dif_neg hvalid] at h
    exact absurd (h ▸ rfl) hb

theorem NoCapital.eq_of_mem_capital {b : Char} (hb : NoCapital b) (h : b ∈ capital c) : c = b := by
  simp only [capital] at h
  split at h
  · rename_i codes hlookup
    obtain ⟨n, hn, hcode⟩ := List.mem_map.mp h
    obtain rfl := eq_code_of_ofNat_eq hb.code_ne_zero hcode
    obtain ⟨before, after, hmem, -⟩ := List.lookup_eq_some_iff.mp hlookup
    exact absurd hn (hb.texts (c.toNat, codes) (by simp [hmem]))
  · split at h
    · rename_i r hfind
      have hcontains : r.contains c.toNat = true := by
        simpa using List.find?_some hfind
      have hcode := eq_code_of_ofNat_eq hb.code_ne_zero (List.mem_singleton.mp h).symm
      have hn : c.toNat = (b.toNat - r.shift).toNat := by
        have := hb.code_ne_zero
        omega
      exact absurd (hn ▸ hcontains) (hb.runs r (List.mem_of_find?_eq_some hfind))
    · exact (List.mem_singleton.mp h).symm

/-- A character that is no capital is only in camel case when it was there before. -/
theorem NoCapital.mem_of_mem_camelChars {b : Char} (hb : NoCapital b)
    (h : b ∈ camelChars start cs) : b ∈ cs := by
  induction cs generalizing start with
  | nil => cases h
  | cons c cs ih =>
      rw [camelChars] at h
      split at h
      · exact List.mem_cons_of_mem _ (ih h)
      · rcases List.mem_append.mp h with hc | hcs
        · have hmem : b = c := by
            cases start with
            | true => exact (hb.eq_of_mem_capital hc).symm
            | false => exact List.mem_singleton.mp hc
          exact hmem ▸ List.mem_cons_self
        · exact List.mem_cons_of_mem _ (ih hcs)

/-! ### The first letter -/

theorem noCapital_p : NoCapital 'p' :=
  ⟨by decide, by decide +kernel, by decide +kernel⟩

theorem capital_ne_nil (c : Char) : capital c ≠ [] := by
  have htexts : ∀ e ∈ capitalTexts, e.2 ≠ [] := by
    decide
  simp only [capital]
  split
  · rename_i codes hlookup
    obtain ⟨before, after, hmem, -⟩ := List.lookup_eq_some_iff.mp hlookup
    exact List.map_eq_nil_iff.not.mpr (htexts (c.toNat, codes) (by simp [hmem]))
  · split <;> exact List.cons_ne_nil _ _

/-- Every character has a capital, and no capital begins with the letter `p`. -/
theorem head?_capital (c : Char) : ∃ C, (capital c).head? = some C ∧ C ≠ 'p' := by
  obtain ⟨C, Cs, hcapital⟩ := List.exists_cons_of_ne_nil (capital_ne_nil c)
  refine ⟨C, by rw [hcapital]; rfl, ?_⟩
  rintro rfl
  obtain rfl := noCapital_p.eq_of_mem_capital (hcapital ▸ List.mem_cons_self)
  have hown : capital 'p' = ['P'] := by decide
  rw [hown] at hcapital
  cases hcapital

theorem head?_camelChars (cs : List Char) : (camelChars true cs).head? ≠ some 'p' := by
  induction cs with
  | nil => simp [camelChars]
  | cons c cs ih =>
      rw [camelChars]
      split
      · exact ih
      · obtain ⟨C, hC, hne⟩ := head?_capital c
        rw [if_pos rfl, List.head?_append, hC, Option.some_or]
        exact fun h => hne (Option.some.inj h)

end Isaforge.Text
