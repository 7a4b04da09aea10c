import Isaforge.Storage.Path

/-!
# Path — a file in a directory

A path with the name of a file below it is followed like the path, and then by that name
(`Path.names_join`).  The name must not be empty, and have no slash, for a slash begins another
name.
-/

namespace Isaforge.Storage.Path

variable {p : Path} {name : String}

/-! ### Parts -/

/-- A slash ends the part before it. -/
theorem partsFrom_append_slash (part cs cs' : List Char) :
    partsFrom part (cs ++ '/' :: cs') = partsFrom part cs ++ partsFrom [] cs' := by
  induction cs generalizing part with
  | nil => simp [partsFrom]
  | cons c cs ih =>
      rw [List.cons_append, partsFrom, partsFrom]
      split
      · rw [ih, List.append_assoc]
      · exact ih (c :: part)

/-- Characters without a slash are one part. -/
theorem partsFrom_of_notMem {part cs : List Char} (hslash : '/' ∉ cs) (hne : part ≠ [] ∨ cs ≠ []) :
    partsFrom part cs = [part.reverse ++ cs] := by
  induction cs generalizing part with
  | nil =>
      have hpart : part ≠ [] := hne.resolve_right fun h => h rfl
      simp [partsFrom, hpart]
  | cons c cs ih =>
      obtain ⟨hc, hcs⟩ := not_or.mp (mt List.mem_cons.mpr hslash)
      rw [partsFrom, if_neg (Ne.symm hc), ih hcs (.inl (List.cons_ne_nil c part))]
      simp

/-! ### The name of a file -/

/-- The text is a name that leads to what is in a directory. -/
structure IsFileName (name : String) : Prop where
  ne_empty : name ≠ ""
  no_slash : '/' ∉ name.toList
  ne_dot : name ≠ "."
  ne_dots : name ≠ ".."

theorem IsFileName.toList_ne_nil (h : IsFileName name) : name.toList ≠ [] :=
  fun hnil => h.ne_empty (String.toList_eq_nil_iff.mp hnil)

theorem IsFileName.not_isAbsolute (h : IsFileName name) : (Path.mk name).isAbsolute = false := by
  refine decide_eq_false fun hhead => h.no_slash ?_
  exact List.mem_of_mem_head? hhead

/-- The text of a path ends in a slash, is empty, or takes a slash. -/
theorem toList_join (h : IsFileName name) :
    (p.text = "" ∧ (p.join ⟨name⟩).text.toList = name.toList) ∨
      (∃ cs, p.text.toList = cs ++ ['/'] ∧
        (p.join ⟨name⟩).text.toList = cs ++ '/' :: name.toList) ∨
      (p.text.toList ≠ [] ∧
        (p.join ⟨name⟩).text.toList = p.text.toList ++ '/' :: name.toList) := by
  rw [join, h.not_isAbsolute]
  by_cases hempty : p.text = ""
  · exact .inl ⟨hempty, by simp [isEmpty, hempty]⟩
  · have hnil : p.text.toList ≠ [] := fun hnil => hempty (String.toList_eq_nil_iff.mp hnil)
    by_cases hslash : p.text.toList.getLast? = some '/'
    · obtain ⟨cs, hcs⟩ := List.getLast?_eq_some_iff.mp hslash
      exact .inr (.inl ⟨cs, hcs, by simp [isEmpty, hempty, ofDirectory, hcs]⟩)
    · exact .inr (.inr ⟨hnil, by simp [isEmpty, hempty, ofDirectory, hslash]⟩)

/-- The names of a file in a directory are those of the directory, and its own. -/
theorem names_join (h : IsFileName name) : (p.join ⟨name⟩).names = p.names ++ [name] := by
  have hname : partsFrom [] name.toList = [name.toList] :=
    partsFrom_of_notMem h.no_slash (.inr h.toList_ne_nil)
  rw [names, names]
  rcases toList_join (p := p) h with ⟨hempty, hjoin⟩ | ⟨cs, hcs, hjoin⟩ | ⟨-, hjoin⟩
  · rw [hjoin, hname, hempty]
    simp [partsFrom]
  · rw [hjoin, hcs, partsFrom_append_slash, partsFrom_append_slash, hname]
    simp [partsFrom]
  · rw [hjoin, partsFrom_append_slash, hname]
    simp

theorem isAbsolute_join (h : IsFileName name) : (p.join ⟨name⟩).isAbsolute = p.isAbsolute := by
  have hname := h.not_isAbsolute
  rw [isAbsolute] at hname
  rw [isAbsolute, isAbsolute]
  rcases toList_join (p := p) h with ⟨hempty, hjoin⟩ | ⟨cs, hcs, hjoin⟩ | ⟨hnil, hjoin⟩
  · rw [hjoin, hempty]
    exact hname
  · rw [hjoin, hcs]
    cases cs <;> rfl
  · obtain ⟨c, cs, hcs⟩ := List.exists_cons_of_ne_nil hnil
    rw [hjoin, hcs]
    rfl

/-- The file in a directory is not meant to be a directory. -/
theorem not_ofDirectory_join (h : IsFileName name) : (p.join ⟨name⟩).ofDirectory = false := by
  have hlast : ∀ cs, (cs ++ name.toList).getLast? ≠ some '/' := by
    intro cs hlast
    obtain ⟨c, hc⟩ := Option.ne_none_iff_exists'.mp
      (mt List.getLast?_eq_none_iff.mp h.toList_ne_nil)
    rw [List.getLast?_append, hc, Option.some_or, Option.some.injEq] at hlast
    exact h.no_slash (List.mem_of_getLast? (hlast ▸ hc))
  refine decide_eq_false fun hslash => ?_
  rcases toList_join (p := p) h with ⟨-, hjoin⟩ | ⟨cs, -, hjoin⟩ | ⟨-, hjoin⟩
  · exact hlast [] (hjoin ▸ hslash)
  · rw [hjoin, List.append_cons] at hslash
    exact hlast _ hslash
  · rw [hjoin, List.append_cons] at hslash
    exact hlast _ hslash

/-! ### The path itself -/

/-- A path that has a name is the first of its chain. -/
theorem chain_eq_nil_or (p : Path) : p.chain = [] ∨ ∃ ps, p.chain = p :: ps := by
  rw [chain]
  cases hlength : p.names.length with
  | zero => exact .inl rfl
  | succ n =>
      have hne : p.names.isEmpty = false := by
        cases hnames : p.names with
        | nil =>
            rw [hnames] at hlength
            cases hlength
        | cons _ _ => rfl
      refine .inr ⟨upwards n p.parent, ?_⟩
      rw [upwards, hne]
      rfl

end Isaforge.Storage.Path
