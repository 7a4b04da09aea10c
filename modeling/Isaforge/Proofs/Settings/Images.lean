import Isaforge.Proofs.Settings.Source

/-!
# Images — what overwriting a setting does to the getters

An image is an array of the bytes of a group.  `Image.write` overwrites the storage of one setting:
the bit of a boolean, the byte of any other.  The getter of the setting then reads what was written,
and those of the other settings read what they did (`SettingGroup.overwritten`): a getter depends
on the bits of its setting alone, and no other setting has any of them.  The getters are those of
the generated source (`Flags.Written`).
-/

namespace Isaforge

/-- What a setting may be overwritten with: a bit, a byte, or the index of a value. -/
inductive Content where
  | flag (value : Bool)
  | number (value : UInt8)
  | choice (index : Nat)
deriving DecidableEq, Repr

/-- An array of the bytes of a group. -/
structure Image (g : SettingGroup) where
  bytes : List UInt8
  length_bytes : bytes.length = g.size

open SettingGroup

namespace Setting

/-- What a getter makes of the content, if it is of the kind of the setting. -/
def value? (s : Setting) : Content → Option FlagValue
  | .flag value =>
    match s.kind with
    | .bool _ => some (.flag value)
    | .num _ | .enum _ => none
  | .number value =>
    match s.kind with
    | .num _ => some (.number value)
    | .bool _ | .enum _ => none
  | .choice index =>
    match s.kind with
    | .enum values =>
      values[index]?.map fun v => .variant (Text.camelCase s.name) (Text.camelCase v)
    | .bool _ | .num _ => none

/-- The byte of the setting with the content stored in it. -/
def store (s : Setting) (c : Content) (b : UInt8) : UInt8 :=
  match c with
  | .flag true => b ||| s.mask?.getD 0
  | .flag false => b &&& ~~~s.mask?.getD 0
  | .number value => value
  | .choice index => UInt8.ofNat index

variable {g : SettingGroup} {s : Setting} {d : Declaration} {c : Content} {v : FlagValue}
  {b : UInt8} {i p k : Nat}

/-- A boolean is only overwritten by a bit. -/
theorem value?_narrow (hd : g.narrow[p]? = some d)
    (hv : (g.narrowSetting d p).value? c = some v) :
    ∃ value, c = .flag value ∧ v = .flag value := by
  obtain ⟨default, hkind⟩ := kind_of_narrow hd
  cases c <;> simp_all [value?, narrowSetting]

/-- Storing a bit changes the bit of the boolean and no other. -/
theorem bit_store_narrow {value : Bool} (hk : k < 8) :
    Byte.bit ((g.narrowSetting d p).store (.flag value) b) k =
      if k = p % 8 then value else Byte.bit b k := by
  have hmask : (g.narrowSetting d p).mask?.getD 0 = UInt8.ofNat (1 <<< (p % 8)) := rfl
  cases value with
  | false =>
      rw [store, hmask, Byte.bit_and, Byte.bit_not _ hk, Byte.bit_mask]
      split <;> simp [*]
  | true =>
      rw [store, hmask, Byte.bit_or, Byte.bit_mask]
      split <;> simp [*]

/-- What was stored is what the byte says. -/
theorem decode_store (h : Placed g i s) (hsound : s.Sound) (hv : s.value? c = some v) :
    s.decode (s.store c b) = v := by
  rcases h with ⟨hd, rfl⟩ | ⟨rfl, hd, rfl⟩
  · rename_i d
    obtain ⟨default, hkind⟩ | ⟨values, hkind⟩ := kind_of_wide hd
    · cases c <;> simp_all [value?, wideSetting, decode, store]
    · cases c with
      | flag value => simp [value?, wideSetting, hkind] at hv
      | number value => simp [value?, wideSetting, hkind] at hv
      | choice index =>
          simp only [value?, wideSetting, hkind] at hv
          obtain ⟨w, hw, rfl⟩ := Option.map_eq_some_iff.mp hv
          have hindex : index < values.length := (List.getElem?_eq_some_iff.mp hw).1
          have hbound : values.length ≤ 256 := (hsound values hkind).2.1
          -- There are no more values than a byte can tell apart.
          have htoNat : (UInt8.ofNat index).toNat = index := by
            rw [UInt8.toNat_ofNat', Nat.mod_eq_of_lt (by omega)]
          simp [decode, store, wideSetting, hkind, htoNat, hw]
  · obtain ⟨value, rfl, rfl⟩ := value?_narrow hd hv
    rw [decode_narrow hd, bit_store_narrow (Nat.mod_lt _ (by decide)), if_pos rfl]

/-- Storing a content leaves the bits that the setting does not own. -/
theorem bit_store (h : Placed g i s) (hv : s.value? c = some v) (hk : k < 8)
    (hnot : ¬ s.Owns s.byte k) : Byte.bit (s.store c b) k = Byte.bit b k := by
  rcases h with ⟨hd, rfl⟩ | ⟨rfl, hd, rfl⟩
  · exact absurd (owns_wide.mpr ⟨rfl, hk⟩) hnot
  · obtain ⟨value, rfl, -⟩ := value?_narrow hd hv
    rw [bit_store_narrow hk, if_neg fun heq => hnot (owns_narrow.mpr ⟨rfl, heq⟩)]

end Setting

namespace Image

variable {g : SettingGroup} {s t : Setting} {c : Content} {v : FlagValue} {i j n k : Nat}

/-- The image with the content stored in the setting. -/
def write (x : Image g) (s : Setting) (c : Content) : Image g where
  bytes := x.bytes.modify s.byte (s.store c)
  length_bytes := (List.length_modify ..).trans x.length_bytes

/-- Bit `k` of byte `n`, none outside the image. -/
def bit? (x : Image g) (n k : Nat) : Option Bool :=
  x.bytes[n]?.map (Byte.bit · k)

theorem getElem?_write (x : Image g) (s : Setting) (c : Content) (n : Nat) :
    (x.write s c).bytes[n]? =
      if s.byte = n then x.bytes[n]?.map (s.store c) else x.bytes[n]? := by
  rw [write, List.getElem?_modify]
  split <;> simp

/-- The byte of a setting is a byte of the image. -/
theorem exists_byte (x : Image g) (h : Placed g i s) : ∃ b, x.bytes[s.byte]? = some b :=
  ⟨_, List.getElem?_eq_getElem (x.length_bytes ▸ byte_lt_size h)⟩

/-- Only the bits of the setting are overwritten. -/
theorem bit?_write (x : Image g) (h : Placed g i s) (hv : s.value? c = some v) (hk : k < 8)
    (hnot : ¬ s.Owns n k) : (x.write s c).bit? n k = x.bit? n k := by
  rw [bit?, getElem?_write, bit?]
  split
  · rename_i hn
    subst hn
    rw [Option.map_map]
    exact Option.map_congr fun b _ => Setting.bit_store h hv hk hnot
  · rfl

/-- Images with the same bits for a setting are read alike. -/
theorem read_congr (x y : Image g) (h : Placed g i s) (hsound : s.Sound)
    (hbits : ∀ n k, s.Owns n k → x.bit? n k = y.bit? n k) :
    (Flags.ofGroup g).read x.bytes (Getter.ofSetting s) =
      (Flags.ofGroup g).read y.bytes (Getter.ofSetting s) := by
  obtain ⟨b, hb⟩ := x.exists_byte h
  obtain ⟨b', hb'⟩ := y.exists_byte h
  rw [Flags.read_eq_decode h hsound, Flags.read_eq_decode h hsound, hb, hb']
  refine congrArg some (Setting.decode_congr h fun k howns => ?_)
  simpa [bit?, hb, hb'] using hbits _ k howns

/-- Storing a content in the setting at place `i` of the group overwrites that setting alone: its
bits, and what its getter reads. -/
structure Overwrites (x : Image g) (i : Nat) (s : Setting) (c : Content) (v : FlagValue) :
    Prop where
  /-- The bits of the image that are not the setting's are as before. -/
  frame : ∀ n k, k < 8 → ¬ s.Owns n k → (x.write s c).bit? n k = x.bit? n k
  /-- The getter of the setting reads the content. -/
  own : ∃ γ, (Flags.ofGroup g).getters[i]? = some γ ∧
    (Flags.ofGroup g).read (x.write s c).bytes γ = some v
  /-- Every other getter reads what it did. -/
  others : ∀ j γ, j ≠ i → (Flags.ofGroup g).getters[j]? = some γ →
    (Flags.ofGroup g).read (x.write s c).bytes γ = (Flags.ofGroup g).read x.bytes γ

theorem overwrites (x : Image g) (hsound : ∀ d ∈ g.declarations, d.Sound) (h : Placed g i s)
    (hv : s.value? c = some v) : x.Overwrites i s c v where
  frame _ _ hk hnot := x.bit?_write h hv hk hnot
  own := by
    obtain ⟨b, hb⟩ := x.exists_byte h
    refine ⟨Getter.ofSetting s, ?_, ?_⟩
    · rw [Flags.getters_getElem?, placed_iff.mpr h, Option.map_some]
    · rw [Flags.read_eq_decode h (hsound _ h.declaration_mem), getElem?_write, if_pos rfl, hb,
        Option.map_some, Option.map_some, Setting.decode_store h (hsound _ h.declaration_mem) hv]
  others j γ hne hγ := by
    rw [Flags.getters_getElem?] at hγ
    obtain ⟨t, ht, rfl⟩ := Option.map_eq_some_iff.mp hγ
    have htj := placed_iff.mp ht
    refine read_congr _ _ htj (hsound _ htj.declaration_mem) fun n k howns => ?_
    -- A bit of the setting that is overwritten is none of `t`.
    refine x.bit?_write h hv howns.2.1 fun hs => hne ?_
    exact eq_of_owns htj h howns hs

end Image

namespace SettingGroup

/-- The settings of a group that was made partition its image, and overwriting one of them is seen
by its own getter in the generated source and by no other. -/
theorem overwritten {name doc : String} {parent? : Option String} {ds : List Declaration}
    {g : SettingGroup} (h : make name doc parent? ds = .ok g) :
    g.Partitioned ∧ (Flags.ofGroup g).Written ∧
      ∀ (x : Image g) (i : Nat) (s : Setting), g.settings[i]? = some s →
        ∀ (c : Content) (v : FlagValue), s.value? c = some v → x.Overwrites i s c v :=
  ⟨partitioned g, Flags.written _,
    fun x _ _ hs _ _ hv => x.overwrites (sound_of_make h) (placed_iff.mp hs) hv⟩

/-- The ninth boolean of the group is in a byte of its own, behind the other eight. -/
theorem mixedGroup_overwritten :
    make mixedGroup.name mixedGroup.doc none mixedGroup.declarations = .ok mixedGroup ∧
      mixedGroup.Partitioned ∧ (Flags.ofGroup mixedGroup).Written ∧
      Image.Overwrites (g := mixedGroup) ⟨[1, 9, 255, 255], rfl⟩ 10
        ⟨⟨"last_flag", "", .bool true⟩, 3, some 8⟩ (.flag false) (.flag false) := by
  have hmake : make mixedGroup.name mixedGroup.doc none mixedGroup.declarations =
      .ok mixedGroup := rfl
  obtain ⟨hpartitioned, hwritten, hoverwrites⟩ := overwritten hmake
  exact ⟨hmake, hpartitioned, hwritten,
    hoverwrites ⟨[1, 9, 255, 255], rfl⟩ 10 _ rfl _ _ rfl⟩

end SettingGroup

end Isaforge
