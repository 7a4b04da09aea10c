import Isaforge.Settings.Layout
import Isaforge.Proofs.Repetition

/-!
# Declarations — which settings make a group

A group is made of declarations of distinct names whose enumerations have from one to 256 distinct
values (`SettingGroup.make_eq_ok_iff`).  The checks go over the declarations one by one; what they
find is nothing when no name is repeated and no declaration is at fault by itself
(`Declaration.firstFault?_eq_none_iff`).  Otherwise it is the first declaration that the ones before
it do not admit, and why (`Declaration.firstFault?_eq_some_iff`).
-/

namespace Isaforge

namespace Declaration

/-- The declaration is not at fault by itself: an enumeration has values, distinct ones, and not
more than a byte can tell apart. -/
def Sound (d : Declaration) : Prop :=
  ∀ values, d.kind = .enum values → values ≠ [] ∧ values.length ≤ maxValues ∧ values.Nodup

theorem valuesFault?_eq_none_iff {values : List String} :
    valuesFault? values = none ↔ values ≠ [] ∧ values.length ≤ maxValues ∧ values.Nodup := by
  have hrepeat : (firstRepeat? [] values).isSome = false ↔ values.Nodup := by
    rw [Option.isSome_eq_false_iff, Option.isNone_iff_eq_none, firstRepeat?_eq_none_iff]
    simp
  rw [← hrepeat, valuesFault?]
  split
  · rename_i hempty
    simp [List.isEmpty_iff.mp hempty]
  · rename_i hempty
    have hne : values ≠ [] := fun h => hempty (List.isEmpty_iff.mpr h)
    split
    · rename_i hlong
      simp [Nat.not_le.mpr hlong]
    · rename_i hlong
      have hle : values.length ≤ maxValues := Nat.le_of_not_lt hlong
      split
      · rename_i hsome
        simp [hsome]
      · rename_i hnone
        simp [hne, hle, hnone]

theorem fault?_eq_none_iff {seen : List String} {d : Declaration} :
    d.fault? seen = none ↔ d.name ∉ seen ∧ d.Sound := by
  rw [fault?]
  split
  · rename_i hseen
    simp [hseen]
  · rename_i hseen
    have hvalues : d.Sound ↔ ∀ values, d.kind = .enum values → valuesFault? values = none :=
      forall_congr' fun values => imp_congr_right fun _ => valuesFault?_eq_none_iff.symm
    rw [hvalues]
    cases d.kind <;> simp [hseen]

theorem firstFault?_eq_none_iff {seen : List String} {ds : List Declaration} :
    firstFault? seen ds = none ↔
      (ds.map (·.name)).Nodup ∧ (∀ d ∈ ds, d.name ∉ seen) ∧ ∀ d ∈ ds, d.Sound := by
  induction ds generalizing seen with
  | nil => simp [firstFault?]
  | cons d ds ih =>
      rw [firstFault?, List.map_cons, List.nodup_cons, List.forall_mem_cons, List.forall_mem_cons]
      split
      · rename_i reason hfault
        have hnot : ¬ (d.name ∉ seen ∧ d.Sound) := by
          rw [← fault?_eq_none_iff, hfault]
          exact Option.some_ne_none reason
        refine ⟨fun h => (nomatch h), ?_⟩
        rintro ⟨-, ⟨hname, -⟩, hsound, -⟩
        exact absurd ⟨hname, hsound⟩ hnot
      · rename_i hfault
        obtain ⟨hname, hsound⟩ := fault?_eq_none_iff.mp hfault
        rw [ih]
        have hmem : d.name ∉ ds.map (·.name) ↔ ∀ e ∈ ds, e.name ≠ d.name := by
          simp
        constructor
        · rintro ⟨hnodup, hseen, hsounds⟩
          refine ⟨⟨hmem.mpr ?_, hnodup⟩, ⟨hname, ?_⟩, hsound, hsounds⟩
          · intro e he heq
            exact hseen e he (heq ▸ List.mem_cons_self)
          · intro e he h
            exact hseen e he (List.mem_cons_of_mem _ h)
        · rintro ⟨⟨hnot, hnodup⟩, ⟨-, hseen⟩, -, hsounds⟩
          refine ⟨hnodup, ?_, hsounds⟩
          intro e he h
          rcases List.mem_cons.mp h with heq | h
          · exact hmem.mp hnot e he heq
          · exact hseen e he h

/-- Why the values of an enumeration are no good. -/
inductive Unfit : List String → String → Prop where
  | empty : Unfit [] "enumeration has no values"
  | long {values : List String} : maxValues < values.length →
      Unfit values "enumeration does not fit in a byte"
  | repeated {values : List String} : values.length ≤ maxValues → ¬ values.Nodup →
      Unfit values "enumeration repeats a value"

/-- Why the declaration is refused after declarations of the names `seen`: that it repeats one of
them comes before what is wrong with its values. -/
inductive Refused (seen : List String) (d : Declaration) : String → Prop where
  | repeated : d.name ∈ seen → Refused seen d "defined more than once"
  | values {values : List String} {reason : String} : d.name ∉ seen → d.kind = .enum values →
      Unfit values reason → Refused seen d reason

theorem valuesFault?_eq_some_iff {values : List String} {reason : String} :
    valuesFault? values = some reason ↔ Unfit values reason := by
  have hrepeat : (firstRepeat? [] values).isSome ↔ ¬ values.Nodup := by
    rw [Option.isSome_iff_ne_none, ne_eq, firstRepeat?_eq_none_iff]
    simp
  rw [valuesFault?]
  constructor
  · intro h
    split at h
    · rename_i hempty
      obtain rfl := List.isEmpty_iff.mp hempty
      cases h
      exact .empty
    · split at h
      · rename_i hlong
        cases h
        exact .long hlong
      · rename_i hlong
        split at h
        · rename_i hsome
          cases h
          exact .repeated (Nat.le_of_not_lt hlong) (hrepeat.mp hsome)
        · cases h
  · intro h
    cases h with
    | empty => rfl
    | long hlong =>
        have hne : ¬ values.isEmpty := fun h => by
          simp [List.isEmpty_iff.mp h] at hlong
        rw [if_neg hne, if_pos hlong]
    | repeated hle hnodup =>
        have hne : ¬ values.isEmpty := fun h => hnodup (List.isEmpty_iff.mp h ▸ List.nodup_nil)
        rw [if_neg hne, if_neg (Nat.not_lt.mpr hle), if_pos (hrepeat.mpr hnodup)]

theorem fault?_eq_some_iff {seen : List String} {d : Declaration} {reason : String} :
    d.fault? seen = some reason ↔ Refused seen d reason := by
  rw [fault?]
  constructor
  · intro h
    split at h
    · rename_i hseen
      cases h
      exact .repeated hseen
    · rename_i hseen
      cases hkind : d.kind with
      | enum values =>
          rw [hkind] at h
          exact .values hseen hkind (valuesFault?_eq_some_iff.mp h)
      | bool _ | num _ => simp [hkind] at h
  · intro h
    cases h with
    | repeated hseen => rw [if_pos hseen]
    | values hseen hkind hunfit =>
        rw [if_neg hseen, hkind]
        exact valuesFault?_eq_some_iff.mpr hunfit

theorem refused_congr {seen seen' : List String} {d : Declaration} {reason : String}
    (h : ∀ n, n ∈ seen ↔ n ∈ seen') : Refused seen d reason ↔ Refused seen' d reason := by
  simp only [← fault?_eq_some_iff, fault?, h]

/-- What is found is the first declaration that is refused after those before it. -/
theorem firstFault?_eq_some_iff {seen : List String} {ds : List Declaration} {d : Declaration}
    {reason : String} :
    firstFault? seen ds = some (d, reason) ↔
      ∃ before after, ds = before ++ d :: after ∧ firstFault? seen before = none ∧
        Refused (seen ++ before.map (·.name)) d reason := by
  induction ds generalizing seen with
  | nil => simp [firstFault?]
  | cons e ds ih =>
      rw [firstFault?]
      cases hfault : e.fault? seen with
      | some reason' =>
          constructor
          · intro h
            cases h
            exact ⟨[], ds, rfl, rfl, by simpa using fault?_eq_some_iff.mp hfault⟩
          · rintro ⟨before, after, hsplit, hbefore, hrefused⟩
            -- nothing stands before a declaration that is refused
            cases before with
            | nil =>
                obtain ⟨rfl, rfl⟩ := List.cons.inj hsplit
                rw [List.map_nil, List.append_nil, ← fault?_eq_some_iff, hfault] at hrefused
                cases hrefused
                rfl
            | cons e' before =>
                obtain ⟨rfl, -⟩ := List.cons.inj hsplit
                rw [firstFault?, hfault] at hbefore
                cases hbefore
      | none =>
          simp only [ih]
          have hseen : ∀ (before : List Declaration) (n : String),
              n ∈ e.name :: seen ++ before.map (·.name) ↔
                n ∈ seen ++ (e :: before).map (·.name) := by
            intro before n
            simp only [List.map_cons, List.mem_append, List.mem_cons]
            tauto
          constructor
          · rintro ⟨before, after, rfl, hbefore, hrefused⟩
            refine ⟨e :: before, after, rfl, ?_, (refused_congr (hseen before)).mp hrefused⟩
            rw [firstFault?, hfault]
            exact hbefore
          · rintro ⟨before, after, hsplit, hbefore, hrefused⟩
            cases before with
            | nil =>
                obtain ⟨rfl, -⟩ := List.cons.inj hsplit
                rw [List.map_nil, List.append_nil, ← fault?_eq_some_iff, hfault] at hrefused
                cases hrefused
            | cons e' before =>
                obtain ⟨rfl, rfl⟩ := List.cons.inj hsplit
                rw [firstFault?, hfault] at hbefore
                exact ⟨before, after, rfl, hbefore, (refused_congr (hseen before)).mpr hrefused⟩

end Declaration

namespace SettingGroup

variable {name doc : String} {parent? : Option String} {ds : List Declaration} {g : SettingGroup}

/-- What a group is made of. -/
theorem make_eq_ok_iff :
    make name doc parent? ds = .ok g ↔
      (ds.map (·.name)).Nodup ∧ (∀ d ∈ ds, d.Sound) ∧ g = ⟨name, doc, parent?, ds⟩ := by
  have hfault : Declaration.firstFault? [] ds = none ↔
      (ds.map (·.name)).Nodup ∧ ∀ d ∈ ds, d.Sound := by
    simp [Declaration.firstFault?_eq_none_iff]
  rw [← and_assoc, ← hfault, make]
  split
  · rename_i d reason h
    simp [h]
  · rename_i h
    simp [h, eq_comm]

/-- What no group is made of, and the declaration that is reported. -/
theorem make_eq_error_iff {e : Error} :
    make name doc parent? ds = .error e ↔
      ∃ before d after reason, ds = before ++ d :: after ∧ (before.map (·.name)).Nodup ∧
        (∀ d ∈ before, d.Sound) ∧ Declaration.Refused (before.map (·.name)) d reason ∧
        e = .invalidSetting name d.name reason := by
  have hmake : make name doc parent? ds = .error e ↔
      ∃ d reason, Declaration.firstFault? [] ds = some (d, reason) ∧
        e = .invalidSetting name d.name reason := by
    rw [make]
    split
    · rename_i d reason h
      simp [h, eq_comm]
    · rename_i h
      simp [h]
  simp only [hmake, Declaration.firstFault?_eq_some_iff, Declaration.firstFault?_eq_none_iff,
    List.nil_append]
  constructor
  · rintro ⟨d, reason, ⟨before, after, hsplit, ⟨hnames, -, hsound⟩, hrefused⟩, he⟩
    exact ⟨before, d, after, reason, hsplit, hnames, hsound, hrefused, he⟩
  · rintro ⟨before, d, after, reason, hsplit, hnames, hsound, hrefused, he⟩
    exact ⟨d, reason, ⟨before, after, hsplit, ⟨hnames, fun _ _ => List.not_mem_nil, hsound⟩,
      hrefused⟩, he⟩

/-- The declarations of a group that was made are not at fault. -/
theorem sound_of_make (h : make name doc parent? ds = .ok g) : ∀ d ∈ g.declarations, d.Sound := by
  obtain ⟨-, hsound, rfl⟩ := make_eq_ok_iff.mp h
  exact hsound

/-- A group with settings of every kind, more booleans than a byte has bits. -/
def mixedGroup : SettingGroup :=
  ⟨"mixed", "Settings of every kind.", none,
    ⟨"first_flag", "", .bool true⟩ :: ⟨"level", "", .enum ["low", "high"]⟩ ::
      ⟨"count", "", .num 7⟩ ::
      ["b", "c", "d", "e", "f", "g", "h", "last_flag"].map fun name => ⟨name, "", .bool true⟩⟩

end SettingGroup

end Isaforge
