import Isaforge.Settings.Layout
import Mathlib.Data.List.Basic

/-!
# Layout — where the settings of a group are

The settings of a group are the declarations that take a byte, each in the byte of its number, and
then the booleans, each with its number as its predicate, eight to a byte from the boolean offset
on (`settings_eq`).  `Placed g i s` says what the setting at place `i` is (`placed_iff`).
-/

namespace Isaforge.SettingGroup

variable {g : SettingGroup} {i : Nat} {s : Setting}

/-- A setting of a byte of its own, at place `n`. -/
def wideSetting (d : Declaration) (n : Nat) : Setting :=
  ⟨d, n, none⟩

/-- The boolean of number `n`. -/
def narrowSetting (g : SettingGroup) (d : Declaration) (n : Nat) : Setting :=
  ⟨d, g.booleanOffset + n / 8, some n⟩

theorem settings_eq (g : SettingGroup) :
    g.settings = (g.wide.zipIdx.map fun d => wideSetting d.1 d.2) ++
      g.narrow.zipIdx.map fun d => g.narrowSetting d.1 d.2 :=
  rfl

/-- The settings are those declared: first those that take a byte. -/
theorem declarations_settings (g : SettingGroup) :
    g.settings.map (·.toDeclaration) = g.wide ++ g.narrow := by
  rw [settings_eq, List.map_append, List.map_map, List.map_map]
  exact congrArg₂ (· ++ ·) (List.zipIdx_map_fst 0 g.wide) (List.zipIdx_map_fst 0 g.narrow)

/-- No declaration is lost, and none is laid out twice. -/
theorem settings_perm (g : SettingGroup) :
    (g.settings.map (·.toDeclaration)).Perm g.declarations := by
  rw [declarations_settings]
  refine List.perm_append_comm.trans ?_
  exact List.filter_append_perm (·.isBool) g.declarations

/-- The setting at place `i`: a declaration that takes a byte, or a boolean. -/
inductive Placed (g : SettingGroup) (i : Nat) (s : Setting) : Prop where
  | wide {d : Declaration} : g.wide[i]? = some d → s = wideSetting d i → Placed g i s
  | narrow {d : Declaration} {n : Nat} :
      i = g.booleanOffset + n → g.narrow[n]? = some d → s = g.narrowSetting d n → Placed g i s

theorem placed_iff : g.settings[i]? = some s ↔ Placed g i s := by
  have hlength : (g.wide.zipIdx.map fun d => wideSetting d.1 d.2).length = g.booleanOffset := by
    simp [booleanOffset]
  rw [settings_eq]
  constructor
  · intro h
    by_cases hi : i < g.booleanOffset
    · rw [List.getElem?_append_left (hlength ▸ hi), List.getElem?_map, List.getElem?_zipIdx] at h
      obtain ⟨⟨d, n⟩, hd, rfl⟩ := Option.map_eq_some_iff.mp h
      obtain ⟨d', hd', heq⟩ := Option.map_eq_some_iff.mp hd
      cases heq
      exact .wide hd' (by rw [Nat.zero_add])
    · rw [List.getElem?_append_right (by omega), hlength, List.getElem?_map,
        List.getElem?_zipIdx] at h
      obtain ⟨⟨d, n⟩, hd, rfl⟩ := Option.map_eq_some_iff.mp h
      obtain ⟨d', hd', heq⟩ := Option.map_eq_some_iff.mp hd
      cases heq
      exact .narrow (n := i - g.booleanOffset) (by omega) hd' (by rw [Nat.zero_add])
  · rintro (⟨hd, rfl⟩ | ⟨rfl, hd, rfl⟩)
    · have hi : i < g.booleanOffset := (List.getElem?_eq_some_iff.mp hd).1
      rw [List.getElem?_append_left (hlength ▸ hi), List.getElem?_map, List.getElem?_zipIdx, hd]
      simp
    · rw [List.getElem?_append_right (by omega), hlength, List.getElem?_map, List.getElem?_zipIdx,
        Nat.add_sub_cancel_left, hd]
      simp

theorem isBool_of_wide {d : Declaration} {n : Nat} (h : g.wide[n]? = some d) :
    d.isBool = false := by
  simpa using (List.mem_filter.mp (List.mem_of_getElem? h)).2

theorem isBool_of_narrow {d : Declaration} {n : Nat} (h : g.narrow[n]? = some d) :
    d.isBool = true :=
  (List.mem_filter.mp (List.mem_of_getElem? h)).2

theorem kind_of_wide {d : Declaration} {n : Nat} (h : g.wide[n]? = some d) :
    (∃ default, d.kind = .num default) ∨ ∃ values, d.kind = .enum values := by
  have hbool := isBool_of_wide h
  cases hkind : d.kind <;> simp [Declaration.isBool, hkind] at hbool ⊢

theorem kind_of_narrow {d : Declaration} {n : Nat} (h : g.narrow[n]? = some d) :
    ∃ default, d.kind = .bool default := by
  have hbool := isBool_of_narrow h
  cases hkind : d.kind <;> simp [Declaration.isBool, hkind] at hbool ⊢

theorem lt_of_wide {d : Declaration} {n : Nat} (h : g.wide[n]? = some d) : n < g.booleanOffset :=
  (List.getElem?_eq_some_iff.mp h).1

theorem lt_of_narrow {d : Declaration} {n : Nat} (h : g.narrow[n]? = some d) :
    n < g.narrow.length :=
  (List.getElem?_eq_some_iff.mp h).1

/-- A setting is one of the declarations, with its storage. -/
theorem Placed.declaration_mem (h : Placed g i s) : s.toDeclaration ∈ g.declarations := by
  rcases h with ⟨hd, rfl⟩ | ⟨rfl, hd, rfl⟩
  · exact List.mem_of_mem_filter (List.mem_of_getElem? hd)
  · exact List.mem_of_mem_filter (List.mem_of_getElem? hd)

/-- A boolean is kept where its predicate says. -/
theorem Placed.exists_predicate (h : Placed g i s) (hbool : s.isBool = true) :
    ∃ p, s.byte = g.booleanOffset + p / 8 ∧ s.predicate? = some p := by
  rcases h with ⟨hd, rfl⟩ | ⟨rfl, hd, rfl⟩
  · exact absurd (isBool_of_wide hd) (by simpa [wideSetting] using hbool)
  · exact ⟨_, rfl, rfl⟩

/-- The settings of a byte are the declarations that take one. -/
theorem filter_not_isBool (g : SettingGroup) :
    g.settings.filter (!·.isBool) = g.wide.zipIdx.map fun d => wideSetting d.1 d.2 := by
  rw [settings_eq, List.filter_append]
  have hwide : (g.wide.zipIdx.map fun d => wideSetting d.1 d.2).filter (!·.isBool) =
      g.wide.zipIdx.map fun d => wideSetting d.1 d.2 := by
    refine List.filter_eq_self.mpr fun s hs => ?_
    obtain ⟨⟨d, n⟩, hd, rfl⟩ := List.mem_map.mp hs
    simpa [wideSetting] using isBool_of_wide (List.mk_mem_zipIdx_iff_getElem?.mp hd)
  have hnarrow :
      (g.narrow.zipIdx.map fun d => g.narrowSetting d.1 d.2).filter (!·.isBool) = [] := by
    refine List.filter_eq_nil_iff.mpr fun s hs => ?_
    obtain ⟨⟨d, n⟩, hd, rfl⟩ := List.mem_map.mp hs
    simpa [narrowSetting] using isBool_of_narrow (List.mk_mem_zipIdx_iff_getElem?.mp hd)
  rw [hwide, hnarrow, List.append_nil]

/-- The booleans among the settings are the declarations of booleans. -/
theorem filter_isBool (g : SettingGroup) :
    g.settings.filter (·.isBool) = g.narrow.zipIdx.map fun d => g.narrowSetting d.1 d.2 := by
  rw [settings_eq, List.filter_append]
  have hwide : (g.wide.zipIdx.map fun d => wideSetting d.1 d.2).filter (·.isBool) = [] := by
    refine List.filter_eq_nil_iff.mpr fun s hs => ?_
    obtain ⟨⟨d, n⟩, hd, rfl⟩ := List.mem_map.mp hs
    simpa [wideSetting] using isBool_of_wide (List.mk_mem_zipIdx_iff_getElem?.mp hd)
  have hnarrow : (g.narrow.zipIdx.map fun d => g.narrowSetting d.1 d.2).filter (·.isBool) =
      g.narrow.zipIdx.map fun d => g.narrowSetting d.1 d.2 := by
    refine List.filter_eq_self.mpr fun s hs => ?_
    obtain ⟨⟨d, n⟩, hd, rfl⟩ := List.mem_map.mp hs
    simpa [narrowSetting] using isBool_of_narrow (List.mk_mem_zipIdx_iff_getElem?.mp hd)
  rw [hwide, hnarrow, List.nil_append]

end Isaforge.SettingGroup
