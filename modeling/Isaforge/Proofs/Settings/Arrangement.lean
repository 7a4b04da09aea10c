import Mathlib.Algebra.Order.Floor.Div
import Isaforge.Proofs.Settings.Declarations
import Isaforge.Proofs.Settings.Layout

/-!
# Arrangement — a group is what its declarations say, or refused for the first that is no good

`Valid` is what declarations have to be to make a group, and `Arranged` is what the group is then:
its settings are the declarations sorted stably into those that take a byte and the booleans, both
numbered from zero, and they are found by the names they were declared with.

* `make_arranges`: declarations that are valid are arranged, and others are refused for the first
  that is not valid with those before it.
-/

namespace Isaforge.SettingGroup

variable {ds : List Declaration} {g : SettingGroup}

/-- The declarations make a group: their names are distinct, and so are the values of each
enumeration, of which there are from one to 256. -/
structure Valid (ds : List Declaration) : Prop where
  names : (ds.map (·.name)).Nodup
  values : ∀ d ∈ ds, ∀ values, d.kind = .enum values →
    1 ≤ values.length ∧ values.length ≤ 256 ∧ values.Nodup

theorem valid_iff : Valid ds ↔ (ds.map (·.name)).Nodup ∧ ∀ d ∈ ds, d.Sound := by
  have hsound : ∀ d : Declaration, d.Sound ↔ ∀ values, d.kind = .enum values →
      1 ≤ values.length ∧ values.length ≤ 256 ∧ values.Nodup := by
    intro d
    simp only [Declaration.Sound, Nat.one_le_iff_ne_zero, ne_eq, List.length_eq_zero_iff,
      Declaration.maxValues]
  simp only [hsound]
  exact ⟨fun h => ⟨h.names, h.values⟩, fun h => ⟨h.1, h.2⟩⟩

/-- The declaration is the first that is not valid with those before it, for this reason. -/
def FirstRefused (ds : List Declaration) (d : Declaration) (reason : String) : Prop :=
  ∃ before after, ds = before ++ d :: after ∧ Valid before ∧
    Declaration.Refused (before.map (·.name)) d reason

/-- The group arranges the declarations. -/
structure Arranged (ds : List Declaration) (g : SettingGroup) : Prop where
  /-- Those that take a byte come before the booleans, all in the order they are declared in. -/
  order : g.settings.map (·.toDeclaration) = ds.filter (!·.isBool) ++ ds.filter (·.isBool)
  /-- None is lost, and none is there twice. -/
  perm : (g.settings.map (·.toDeclaration)).Perm ds
  /-- The booleans are numbered, and nothing else is. -/
  numbered : (g.settings.filter (·.isBool)).map (·.predicate?) =
    (List.range (ds.countP (·.isBool))).map some
  unnumbered : ∀ s ∈ g.settings, s.isBool = false → s.predicate? = none
  /-- So are the bytes, those of booleans by eights. -/
  bytes : (g.settings.filter (!·.isBool)).map (·.byte) = List.range (ds.countP (!·.isBool))
  packed : ∀ s ∈ g.settings, ∀ p, s.predicate? = some p → s.byte = g.booleanOffset + p / 8
  booleanOffset_eq : g.booleanOffset = ds.countP (!·.isBool)
  size_eq : g.size = g.booleanOffset + ds.countP (·.isBool) ⌈/⌉ 8
  /-- A declaration is found by its name, and nothing is found by another. -/
  find_iff : ∀ n s, g.find? n = some s ↔ s ∈ g.settings ∧ s.name = n
  find_declared : ∀ d ∈ ds, ∃ s, g.find? d.name = some s ∧ s.toDeclaration = d
  find_none_iff : ∀ n, g.find? n = none ↔ n ∉ ds.map (·.name)

theorem names_settings_nodup (h : (g.declarations.map (·.name)).Nodup) :
    (g.settings.map (·.name)).Nodup := by
  have hnames : g.settings.map (·.name) = (g.settings.map (·.toDeclaration)).map (·.name) := by
    rw [List.map_map]
    rfl
  rw [hnames]
  exact (g.settings_perm.map _).nodup_iff.mpr h

/-- A group of declarations with distinct names arranges them. -/
theorem arranged (h : (g.declarations.map (·.name)).Nodup) : Arranged g.declarations g where
  order := g.declarations_settings
  perm := g.settings_perm
  numbered := by
    have hpredicates : (g.narrow.zipIdx.map fun d => g.narrowSetting d.1 d.2).map (·.predicate?) =
        (g.narrow.zipIdx.map (·.2)).map some := by
      rw [List.map_map, List.map_map]
      rfl
    rw [filter_isBool, hpredicates, List.zipIdx_map_snd, ← List.range_eq_range', narrow,
      List.countP_eq_length_filter]
  unnumbered := by
    intro s hs hbool
    obtain ⟨i, hi⟩ := List.mem_iff_getElem?.mp hs
    rcases placed_iff.mp hi with ⟨hd, rfl⟩ | ⟨rfl, hd, rfl⟩
    · rfl
    · exact absurd (isBool_of_narrow hd) (by simpa [narrowSetting] using hbool)
  bytes := by
    rw [filter_not_isBool, List.map_map, List.countP_eq_length_filter]
    exact (List.zipIdx_map_snd ..).trans List.range_eq_range'.symm
  packed := by
    intro s hs p hp
    obtain ⟨i, hi⟩ := List.mem_iff_getElem?.mp hs
    rcases placed_iff.mp hi with ⟨hd, rfl⟩ | ⟨rfl, hd, rfl⟩
    · cases hp
    · cases hp
      rfl
  booleanOffset_eq := by rw [booleanOffset, wide, List.countP_eq_length_filter]
  size_eq := by
    rw [size, narrow, List.countP_eq_length_filter, Nat.ceilDiv_eq_add_pred_div]
    rfl
  find_iff n s := find?_key_eq_some_iff (names_settings_nodup h)
  find_declared := by
    intro d hd
    obtain ⟨s, hs, rfl⟩ := List.mem_map.mp (g.settings_perm.mem_iff.mpr hd)
    exact ⟨s, (find?_key_eq_some_iff (names_settings_nodup h)).mpr ⟨hs, rfl⟩, rfl⟩
  find_none_iff n := by
    have hmem : n ∈ g.declarations.map (·.name) ↔ ∃ s ∈ g.settings, s.name = n := by
      rw [← (g.settings_perm.map _).mem_iff, List.map_map, List.mem_map]
      rfl
    rw [find?, List.find?_eq_none, hmem]
    simp

/-- **Valid declarations are arranged**, and those that are not are refused: the declaration
reported is the first that is not valid with those before it, and that it repeats a name comes
before what is wrong with its values. -/
theorem make_arranges (name doc : String) (parent? : Option String) (ds : List Declaration) :
    ((∃ g, make name doc parent? ds = .ok g) ↔ Valid ds) ∧
      (∀ e, make name doc parent? ds = .error e ↔
        ∃ d reason, FirstRefused ds d reason ∧ e = .invalidSetting name d.name reason) ∧
      ∀ g, make name doc parent? ds = .ok g → Arranged ds g := by
  refine ⟨?_, fun e => ?_, fun g hg => ?_⟩
  · simp only [make_eq_ok_iff, valid_iff]
    exact ⟨fun ⟨_, hnames, hsound, _⟩ => ⟨hnames, hsound⟩, fun h => ⟨_, h.1, h.2, rfl⟩⟩
  · simp only [make_eq_error_iff, FirstRefused, valid_iff]
    constructor
    · rintro ⟨before, d, after, reason, hsplit, hnames, hsound, hrefused, he⟩
      exact ⟨d, reason, ⟨before, after, hsplit, ⟨hnames, hsound⟩, hrefused⟩, he⟩
    · rintro ⟨d, reason, ⟨before, after, hsplit, ⟨hnames, hsound⟩, hrefused⟩, he⟩
      exact ⟨before, d, after, reason, hsplit, hnames, hsound, hrefused, he⟩
  · obtain ⟨hnames, -, heq⟩ := make_eq_ok_iff.mp hg
    have hdeclarations : g.declarations = ds := by rw [heq]
    rw [← hdeclarations] at hnames ⊢
    exact arranged hnames

/-- Nine booleans take two bytes, behind those of the two other settings. -/
theorem mixedGroup_arranged :
    Arranged mixedGroup.declarations mixedGroup ∧ mixedGroup.booleanOffset = 2 ∧
      mixedGroup.size = 4 ∧
      (mixedGroup.find? "last_flag").map (fun s => (s.byte, s.predicate?)) = some (3, some 8) :=
  ⟨(make_arranges mixedGroup.name mixedGroup.doc none mixedGroup.declarations).2.2 _ rfl, rfl, rfl,
    rfl⟩

end Isaforge.SettingGroup
