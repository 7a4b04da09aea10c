import Isaforge.Proofs.Settings.Source

/-!
# Defaults — the generated flags agree with the layout

The default image is made by putting the default bytes of all settings together.  A default byte
has bits of its own setting only (`Setting.owns_of_bit_defaultByte`), and no two settings share
one, so each setting finds its default there (`Flags.read_defaults`).

`Flags.generated` gathers what the generated type does: its source declares the arrays and getters
that are evaluated (`Flags.Written`), and each getter agrees with the setting that it is for
(`Getter.Agrees`).
-/

namespace Isaforge

open Source SettingGroup

/-! ### The default image -/

namespace Setting

/-- What the getter of a setting returns by default. -/
def defaultValue (s : Setting) : FlagValue :=
  match s.kind with
  | .bool default => .flag default
  | .num default => .number default
  | .enum values => .variant (Text.camelCase s.name) (Text.camelCase (values.headD ""))

variable {g : SettingGroup} {s : Setting} {i k : Nat}

/-- A default byte has bits of its own setting only. -/
theorem owns_of_bit_defaultByte (h : Placed g i s) (hk : k < 8)
    (hbit : Byte.bit s.defaultByte k = true) : s.Owns s.byte k := by
  rcases h with ⟨hd, rfl⟩ | ⟨rfl, hd, rfl⟩
  · exact owns_wide.mpr ⟨rfl, hk⟩
  · rename_i d p
    refine owns_narrow.mpr ⟨rfl, ?_⟩
    obtain ⟨default, hkind⟩ := kind_of_narrow hd
    cases default <;> simp [defaultByte, narrowSetting, hkind, mask?, Byte.bit_mask] at hbit
    exact hbit

/-- The default byte says the default. -/
theorem decode_defaultByte (h : Placed g i s) (hsound : s.Sound) :
    s.decode s.defaultByte = s.defaultValue := by
  rcases h with ⟨hd, rfl⟩ | ⟨rfl, hd, rfl⟩
  · rename_i d
    obtain ⟨default, hkind⟩ | ⟨values, hkind⟩ := kind_of_wide hd
    · simp [decode, defaultByte, defaultValue, wideSetting, hkind]
    · obtain ⟨first, rest, rfl⟩ := List.exists_cons_of_ne_nil (hsound values hkind).1
      simp [decode, defaultByte, defaultValue, wideSetting, hkind]
  · obtain ⟨default, hkind⟩ := kind_of_narrow hd
    rw [decode_narrow hd]
    cases default <;> simp [defaultByte, defaultValue, narrowSetting, hkind, mask?, Byte.bit_mask]

end Setting

namespace SettingGroup

variable {g : SettingGroup} {s : Setting} {i k : Nat}

theorem bit_foldl_or (ss : List Setting) (b : UInt8) (k : Nat) :
    Byte.bit (ss.foldl (fun byte s => byte ||| s.defaultByte) b) k =
      (Byte.bit b k || ss.any fun s => Byte.bit s.defaultByte k) := by
  induction ss generalizing b with
  | nil => simp
  | cons s ss ih => rw [List.foldl_cons, ih, Byte.bit_or, List.any_cons, Bool.or_assoc]

/-- The default image has the default of a setting in the bits of the setting. -/
theorem bit_defaultByte (h : Placed g i s) (howns : s.Owns s.byte k) :
    Byte.bit (defaultByte g.settings s.byte) k = Byte.bit s.defaultByte k := by
  rw [defaultByte, bit_foldl_or, Byte.bit_zero, Bool.false_or, Bool.eq_iff_iff, List.any_eq_true]
  constructor
  · rintro ⟨t, ht, hbit⟩
    obtain ⟨hmem, hbyte⟩ := List.mem_filter.mp ht
    obtain ⟨j, hj⟩ := List.mem_iff_getElem?.mp hmem
    have hplaced := placed_iff.mp hj
    have htowns := Setting.owns_of_bit_defaultByte hplaced howns.2.1 hbit
    rw [of_decide_eq_true hbyte] at htowns
    -- Both settings own the bit, so they are the same.
    have hplace : j = i := eq_of_owns hplaced h htowns howns
    subst hplace
    rw [placed_iff.mpr h] at hj
    exact Option.some.inj hj ▸ hbit
  · intro hbit
    have hmem := List.mem_of_getElem? (placed_iff.mpr h)
    exact ⟨s, List.mem_filter.mpr ⟨hmem, decide_eq_true rfl⟩, hbit⟩

theorem length_defaultBytes (g : SettingGroup) : g.defaultBytes.length = g.size := by
  simp [defaultBytes]

theorem defaultBytes_getElem? (h : Placed g i s) :
    g.defaultBytes[s.byte]? = some (defaultByte g.settings s.byte) := by
  simp [defaultBytes, List.getElem?_range (byte_lt_size h)]

end SettingGroup

/-! ### The getters of the flags -/

namespace Flags

variable {g : SettingGroup} {s : Setting} {i : Nat}

/-- Every setting has its default in the default image. -/
theorem read_defaults (h : Placed g i s) (hsound : s.Sound) :
    (ofGroup g).read (ofGroup g).defaults (Getter.ofSetting s) = some s.defaultValue := by
  have hdecode : s.decode (defaultByte g.settings s.byte) = s.decode s.defaultByte :=
    Setting.decode_congr h fun k howns => bit_defaultByte h howns
  have hbyte : (ofGroup g).defaults[s.byte]? = some (defaultByte g.settings s.byte) :=
    defaultBytes_getElem? h
  rw [read_eq_decode h hsound, hbyte, Option.map_some, hdecode,
    Setting.decode_defaultByte h hsound]

end Flags

/-- The getter is for the setting: what it returns by default is the declared default, and over any
array of the size of the flags it reads the setting where the layout has it. -/
structure Getter.Agrees (f : Flags) (s : Setting) (γ : Getter) : Prop where
  name : γ.name = s.name
  /-- A boolean is a predicate, which tests its mask in its byte. -/
  flag : ∀ default, s.kind = .bool default →
    f.read f.defaults γ = some (.flag default) ∧
    ∃ p m, γ.reading = .predicate p ∧ s.mask? = some m ∧
      ∀ bytes : List UInt8, bytes.length = f.size → ∃ b, bytes[s.byte]? = some b ∧
        numberedPredicate f.booleanOffset bytes p = some (b &&& m != 0) ∧
        f.read bytes γ = some (.flag (b &&& m != 0))
  /-- A number is its byte. -/
  number : ∀ default, s.kind = .num default →
    f.read f.defaults γ = some (.number default) ∧
    ∀ bytes : List UInt8, bytes.length = f.size → ∃ b, bytes[s.byte]? = some b ∧
      f.read bytes γ = some (.number b)
  /-- The byte of an enumeration is the index of a variant of its type, or else stands for the
  first one. -/
  variant : ∀ values, s.kind = .enum values →
    ∃ e first, EnumType.ofSetting? s = some e ∧ e ∈ f.enums ∧
      e.variants.map (·.text) = values ∧ e.variants[0]? = some first ∧
      f.read f.defaults γ = some (.variant e.name first.variant) ∧
      ∀ bytes : List UInt8, bytes.length = f.size → ∃ b, bytes[s.byte]? = some b ∧
        f.read bytes γ = some (.variant e.name (e.variants[b.toNat]?.getD first).variant)

namespace Flags

variable {g : SettingGroup} {s : Setting} {i : Nat}

/-- A getter reads the byte of its setting, which is within the array. -/
theorem exists_read (h : Placed g i s) (hsound : s.Sound) {bytes : List UInt8}
    (hlength : bytes.length = (ofGroup g).size) :
    ∃ b, bytes[s.byte]? = some b ∧
      (ofGroup g).read bytes (Getter.ofSetting s) = some (s.decode b) := by
  have hlt : s.byte < bytes.length := hlength ▸ byte_lt_size h
  refine ⟨bytes[s.byte], List.getElem?_eq_getElem hlt, ?_⟩
  rw [read_eq_decode h hsound, List.getElem?_eq_getElem hlt, Option.map_some]

theorem agrees (h : Placed g i s) (hsound : s.Sound) :
    (Getter.ofSetting s).Agrees (ofGroup g) s where
  name := rfl
  flag default hkind := by
    have hdefault := read_defaults h hsound
    rw [Setting.defaultValue, hkind] at hdefault
    have hbool : s.isBool = true := by simp [Declaration.isBool, hkind]
    obtain ⟨p, hbyte, hp⟩ := h.exists_predicate hbool
    refine ⟨hdefault, p, UInt8.ofNat (1 <<< (p % 8)), ?_, ?_, fun bytes hlength => ?_⟩
    · simp [Getter.ofSetting, hkind, hp]
    · simp [Setting.mask?, hp]
    · obtain ⟨b, hb, hread⟩ := exists_read h hsound hlength
      refine ⟨b, hb, ?_, ?_⟩
      · rw [numberedPredicate]
        rw [hbyte] at hb
        exact congrArg (Option.map _) hb
      · rw [hread]
        simp [Setting.decode, hkind, Setting.mask?, hp]
  number default hkind := by
    have hdefault := read_defaults h hsound
    rw [Setting.defaultValue, hkind] at hdefault
    refine ⟨hdefault, fun bytes hlength => ?_⟩
    obtain ⟨b, hb, hread⟩ := exists_read h hsound hlength
    refine ⟨b, hb, ?_⟩
    rw [hread, Setting.decode, hkind]
  variant values hkind := by
    obtain ⟨first, rest, rfl⟩ := List.exists_cons_of_ne_nil (hsound values hkind).1
    have htype : EnumType.ofSetting? s = some ⟨s.name, Text.camelCase s.name,
        (first :: rest).map fun v => ⟨Text.camelCase v, v⟩⟩ := by
      simp [EnumType.ofSetting?, hkind]
    have hdefault := read_defaults h hsound
    rw [Setting.defaultValue, hkind] at hdefault
    refine ⟨_, ⟨Text.camelCase first, first⟩, htype, ?_, ?_, rfl, hdefault, fun bytes hlength => ?_⟩
    · exact List.mem_filterMap.mpr ⟨s, List.mem_of_getElem? (placed_iff.mpr h), htype⟩
    · simp [Function.comp_def]
    · obtain ⟨b, hb, hread⟩ := exists_read h hsound hlength
      refine ⟨b, hb, ?_⟩
      rw [hread, List.getElem?_map]
      simp only [Setting.decode, hkind]
      cases (first :: rest)[b.toNat]? <;> rfl

/-- The source generated for a group that was made declares flags of the size of the group, whose
getters agree with the settings, each with its own. -/
theorem generated {name doc : String} {parent? : Option String} {ds : List Declaration}
    {g : SettingGroup} (h : make name doc parent? ds = .ok g) :
    (ofGroup g).Written ∧ (ofGroup g).size = g.size ∧
      (ofGroup g).defaults.length = (ofGroup g).size ∧
      g.settings.Forall₂ (fun s γ => γ.Agrees (ofGroup g) s) (ofGroup g).getters := by
  refine ⟨written _, rfl, length_defaultBytes g, ?_⟩
  refine List.forall₂_map_right_iff.mpr (List.forall₂_same.mpr fun s hs => ?_)
  obtain ⟨i, hi⟩ := List.mem_iff_getElem?.mp hs
  have hplaced := placed_iff.mp hi
  exact agrees hplaced (sound_of_make h _ hplaced.declaration_mem)

/-- Nine booleans that are set, in the last two bytes of the array. -/
theorem mixedGroup_generated :
    make mixedGroup.name mixedGroup.doc none mixedGroup.declarations = .ok mixedGroup ∧
      (ofGroup mixedGroup).defaults = [0, 7, 255, 1] ∧ (ofGroup mixedGroup).Written ∧
      mixedGroup.settings.Forall₂ (fun s γ => γ.Agrees (ofGroup mixedGroup) s)
        (ofGroup mixedGroup).getters := by
  have hmake : make mixedGroup.name mixedGroup.doc none mixedGroup.declarations =
      .ok mixedGroup := rfl
  obtain ⟨hwritten, -, -, hagrees⟩ := generated hmake
  exact ⟨hmake, by decide, hwritten, hagrees⟩

end Flags

end Isaforge
