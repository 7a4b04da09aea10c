import Isaforge.Settings.Flags
import Isaforge.Proofs.Settings.Declarations
import Isaforge.Proofs.Settings.Storage

/-!
# Getters — what the generated getters read

The body of a getter is one of three expressions over the bytes of the flags.  `GetterBody` is
their syntax: `GetterBody.code` writes it, which is what is generated (`Getter.body_eq_code`), and
`GetterBody.run` is the value that it has over an array of bytes, none when it indexes outside
the array.

The getter of a setting reads the byte that the setting is kept in and decodes it
(`Flags.read_eq_decode`): a boolean by its bit, a number as it is, an enumeration by the index of
the value.
-/

namespace Isaforge

open Source SettingGroup

/-- What a getter returns. -/
inductive FlagValue where
  | flag (value : Bool)
  | number (value : UInt8)
  | variant (type name : String)
deriving DecidableEq, Repr

/-! ### Arms of a match on a byte -/

/-- An arm of a match on a byte: its index, or the wildcard, and the variant it gives. -/
structure ByteArm where
  index? : Option Nat
  variant : String
deriving DecidableEq, Repr

namespace ByteArm

/-- The arm as generated source. -/
def text (type : String) (a : ByteArm) : String :=
  (match a.index? with
    | some index => toString index
    | none => "_") ++ " => " ++ type ++ "::" ++ a.variant ++ ","

/-- The pattern of the arm matches the byte. -/
def admits (b : UInt8) (a : ByteArm) : Bool :=
  a.index?.all (· = b.toNat)

/-- The arms by index, from `index` on. -/
def indexed (index : Nat) : List String → List ByteArm
  | [] => []
  | v :: vs => ⟨some index, v⟩ :: indexed (index + 1) vs

/-- The arms that look a variant up: each by its index, and the first for any other byte. -/
def ofVariants : List String → List ByteArm
  | [] => []
  | first :: rest => indexed 1 rest ++ [⟨none, first⟩]

/-- The variant of the first arm that matches. -/
def select (b : UInt8) (arms : List ByteArm) : Option String :=
  (arms.find? (admits b)).map (·.variant)

theorem select_indexed (b : UInt8) (index : Nat) (vs : List String) :
    select b (indexed index vs) = if index ≤ b.toNat then vs[b.toNat - index]? else none := by
  induction vs generalizing index with
  | nil => simp [select, indexed]
  | cons v vs ih =>
      rw [select, indexed, List.find?_cons]
      by_cases heq : index = b.toNat
      · simp [admits, heq]
      · have hadmits : admits b ⟨some index, v⟩ = false := by simp [admits, heq]
        rw [hadmits]
        refine (ih (index + 1)).trans ?_
        by_cases hle : index + 1 ≤ b.toNat
        · have hsub : b.toNat - index = b.toNat - (index + 1) + 1 := by omega
          rw [if_pos hle, if_pos (by omega), hsub, List.getElem?_cons_succ]
        · rw [if_neg hle, if_neg (by omega)]

/-- A byte is the index of its variant, and the wildcard stands for the first. -/
theorem select_ofVariants (b : UInt8) (first : String) (rest : List String) :
    select b (ofVariants (first :: rest)) = some ((first :: rest)[b.toNat]?.getD first) := by
  -- The wildcard is reached when no index matches.
  have hsplit : select b (ofVariants (first :: rest)) =
      (select b (indexed 1 rest)).or (some first) := by
    rw [select, ofVariants, List.find?_append, Option.map_or]
    rfl
  rw [hsplit, select_indexed]
  by_cases hzero : b.toNat = 0
  · rw [hzero]
    rfl
  · have hsub : b.toNat = b.toNat - 1 + 1 := by omega
    rw [if_pos (by omega), hsub, List.getElem?_cons_succ, Nat.add_sub_cancel, Option.or_some]

end ByteArm

/-! ### Bodies -/

/-- The expressions that getters are made of. -/
inductive GetterBody where
  /-- `self.numbered_predicate(index)` -/
  | predicate (index : Nat)
  /-- `self.bytes[offset]` -/
  | byte (offset : Nat)
  /-- `match self.bytes[offset] { arms }` -/
  | choice (offset : Nat) (type : String) (arms : List ByteArm)
deriving DecidableEq, Repr

/-- The accessor of numbered predicates: `self.bytes[start + p / 8] & (1 << (p % 8)) != 0`. -/
def numberedPredicate (start : Nat) (bytes : List UInt8) (p : Nat) : Option Bool :=
  bytes[start + p / 8]?.map fun b => b &&& UInt8.ofNat (1 <<< (p % 8)) != 0

namespace GetterBody

/-- The expression as generated source. -/
def code : GetterBody → Code
  | predicate index => Code.line ("self.numbered_predicate(" ++ toString index ++ ")")
  | byte offset => Code.line ("self.bytes[" ++ toString offset ++ "]")
  | choice offset type arms =>
    Code.block ("match self.bytes[" ++ toString offset ++ "] \x7b")
      (arms.flatMap fun a => Code.line (a.text type)) "\x7d"

/-- What the expression evaluates to over `bytes`, where `start` is the first byte of the
booleans: nothing when an index is out of the array or no arm matches. -/
def run (start : Nat) (bytes : List UInt8) : GetterBody → Option FlagValue
  | predicate index => (numberedPredicate start bytes index).map .flag
  | byte offset => bytes[offset]?.map .number
  | choice offset type arms =>
    bytes[offset]?.bind fun b => (ByteArm.select b arms).map (.variant type)

/-- The body of a getter. -/
def ofReading : Reading → GetterBody
  | .predicate index => predicate index
  | .byte offset => byte offset
  | .choice offset type variants => choice offset type (ByteArm.ofVariants variants)

end GetterBody

namespace Getter

theorem indexArms_eq (type : String) (index : Nat) (vs : List String) :
    indexArms type index vs =
      (ByteArm.indexed index vs).flatMap fun a => Code.line (a.text type) := by
  induction vs generalizing index with
  | nil => rfl
  | cons v vs ih =>
      rw [indexArms, ih, ByteArm.indexed, List.flatMap_cons]
      rfl

theorem arms_eq (type : String) (vs : List String) :
    arms type vs = (ByteArm.ofVariants vs).flatMap fun a => Code.line (a.text type) := by
  cases vs with
  | nil => rfl
  | cons first rest =>
      rw [arms, indexArms_eq, ByteArm.ofVariants, List.flatMap_append]
      rfl

/-- The expression that is generated. -/
theorem body_eq_code (r : Reading) : body r = (GetterBody.ofReading r).code := by
  cases r with
  | predicate index => rfl
  | byte offset => rfl
  | choice offset type variants =>
      rw [body, arms_eq]
      rfl

end Getter

/-! ### Reading a setting -/

namespace Setting

/-- What the byte of a setting says. -/
def decode (s : Setting) (b : UInt8) : FlagValue :=
  match s.kind with
  | .bool _ => .flag (b &&& s.mask?.getD 0 != 0)
  | .num _ => .number b
  | .enum values =>
    .variant (Text.camelCase s.name) (Text.camelCase (values[b.toNat]?.getD (values.headD "")))

/-- A boolean is its bit. -/
theorem decode_narrow {g : SettingGroup} {d : Declaration} {p : Nat} (hd : g.narrow[p]? = some d)
    (b : UInt8) : (g.narrowSetting d p).decode b = .flag (Byte.bit b (p % 8)) := by
  obtain ⟨default, hkind⟩ := kind_of_narrow hd
  have hmask : (g.narrowSetting d p).mask?.getD 0 = UInt8.ofNat (1 <<< (p % 8)) := rfl
  simp only [decode, hmask, Byte.and_mask_ne_zero]
  simp [narrowSetting, hkind]

variable {g : SettingGroup} {s : Setting} {i : Nat}

/-- The bits that a setting owns decide what its byte says. -/
theorem decode_congr (h : Placed g i s) {b b' : UInt8}
    (hbits : ∀ k, s.Owns s.byte k → Byte.bit b k = Byte.bit b' k) : s.decode b = s.decode b' := by
  rcases h with ⟨hd, rfl⟩ | ⟨rfl, hd, rfl⟩
  · have hbyte : b = b' := Byte.ext fun k hk => hbits k (owns_wide.mpr ⟨rfl, hk⟩)
    rw [hbyte]
  · rw [decode_narrow hd, decode_narrow hd, hbits _ (owns_narrow.mpr ⟨rfl, rfl⟩)]

end Setting

namespace Flags

/-- What a getter of the flags returns over `bytes`. -/
def read (f : Flags) (bytes : List UInt8) (γ : Getter) : Option FlagValue :=
  (GetterBody.ofReading γ.reading).run f.booleanOffset bytes

variable {g : SettingGroup} {s : Setting} {i : Nat}

theorem read_wide {d : Declaration} (hd : g.wide[i]? = some d) (hsound : d.Sound)
    (bytes : List UInt8) :
    (ofGroup g).read bytes (Getter.ofSetting (wideSetting d i)) =
      bytes[i]?.map (wideSetting d i).decode := by
  obtain ⟨default, hkind⟩ | ⟨values, hkind⟩ := kind_of_wide hd
  · have hdecode : (wideSetting d i).decode = .number :=
      funext fun b => by simp [Setting.decode, wideSetting, hkind]
    rw [hdecode]
    simp [read, Getter.ofSetting, wideSetting, hkind, GetterBody.ofReading, GetterBody.run]
  · obtain ⟨first, rest, rfl⟩ := List.exists_cons_of_ne_nil (hsound values hkind).1
    simp only [read, Getter.ofSetting, wideSetting, hkind, GetterBody.ofReading, GetterBody.run]
    cases bytes[i]? with
    | none => rfl
    | some b =>
        rw [Option.bind_some, List.map_cons, ByteArm.select_ofVariants, ← List.map_cons,
          List.getElem?_map, Option.getD_map]
        simp [Setting.decode, hkind]

theorem read_narrow {d : Declaration} {p : Nat} (hd : g.narrow[p]? = some d)
    (bytes : List UInt8) :
    (ofGroup g).read bytes (Getter.ofSetting (g.narrowSetting d p)) =
      bytes[g.booleanOffset + p / 8]?.map (g.narrowSetting d p).decode := by
  have hreading : (Getter.ofSetting (g.narrowSetting d p)).reading = .predicate p := by
    obtain ⟨default, hkind⟩ := kind_of_narrow hd
    simp [Getter.ofSetting, narrowSetting, hkind]
  have hdecode : (g.narrowSetting d p).decode = fun b => .flag (Byte.bit b (p % 8)) :=
    funext (Setting.decode_narrow hd)
  rw [read, hreading, hdecode, GetterBody.ofReading, GetterBody.run, numberedPredicate,
    Option.map_map]
  simp only [Byte.and_mask_ne_zero]
  rfl

/-- The getter of a setting decodes the byte that the setting is kept in. -/
theorem read_eq_decode (h : Placed g i s) (hsound : s.Sound) (bytes : List UInt8) :
    (ofGroup g).read bytes (Getter.ofSetting s) = bytes[s.byte]?.map s.decode := by
  rcases h with ⟨hd, rfl⟩ | ⟨rfl, hd, rfl⟩
  · exact read_wide hd hsound bytes
  · exact read_narrow hd bytes

/-- The getters are those of the settings. -/
theorem getters_getElem? (g : SettingGroup) (i : Nat) :
    (ofGroup g).getters[i]? = g.settings[i]?.map Getter.ofSetting :=
  List.getElem?_map ..

end Flags

end Isaforge
