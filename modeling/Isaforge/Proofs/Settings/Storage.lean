import Mathlib.Data.Nat.Bitwise
import Mathlib.Data.Set.Card
import Mathlib.Order.Interval.Finset.Nat
import Isaforge.Proofs.Settings.Layout

/-!
# Storage — which bits of the image a setting owns

A setting owns the whole of its byte, and a boolean the bits of its mask there.  The settings of a
group partition the bits of its image but for fewer than eight at the end
(`SettingGroup.partitioned`): the bit of address `8 * n + k` is bit `k` of byte `n`, and the
addresses of a setting follow from its place (`Setting.owns_wide`, `Setting.owns_narrow`).
-/

namespace Isaforge

/-! ### The bits of a byte -/

namespace Byte

/-- Bit `k` of a byte. -/
def bit (b : UInt8) (k : Nat) : Bool :=
  b.toNat.testBit k

@[simp] theorem bit_or (a b : UInt8) (k : Nat) : bit (a ||| b) k = (bit a k || bit b k) := by
  simp [bit]

@[simp] theorem bit_and (a b : UInt8) (k : Nat) : bit (a &&& b) k = (bit a k && bit b k) := by
  simp [bit]

@[simp] theorem bit_zero (k : Nat) : bit 0 k = false := by
  simp [bit]

theorem bit_not (a : UInt8) {k : Nat} (hk : k < 8) : bit (~~~a) k = !bit a k := by
  have h : (~~~a).toBitVec.getLsbD k = !a.toBitVec.getLsbD k := by simp [hk]
  exact h

/-- The mask of a bit has that bit and no other. -/
theorem bit_mask (p k : Nat) : bit (UInt8.ofNat (1 <<< (p % 8))) k = decide (k = p % 8) := by
  have hlt : 2 ^ (p % 8) < 2 ^ 8 := Nat.pow_lt_pow_right (by decide) (Nat.mod_lt p (by decide))
  rw [bit, Nat.one_shiftLeft, UInt8.toNat_ofNat', Nat.mod_eq_of_lt hlt, Nat.testBit_two_pow,
    decide_eq_decide, eq_comm]

/-- A byte is its eight bits. -/
theorem ext {a b : UInt8} (h : ∀ k < 8, bit a k = bit b k) : a = b := by
  refine UInt8.toNat_inj.mp (Nat.eq_of_testBit_eq fun k => ?_)
  by_cases hk : k < 8
  · exact h k hk
  · have hbound : ∀ c : UInt8, c.toNat.testBit k = false := fun c =>
      Nat.testBit_lt_two_pow
        (Nat.lt_of_lt_of_le c.toNat_lt (Nat.pow_le_pow_right (by decide) (by omega)))
    rw [hbound, hbound]

/-- Testing a byte with the mask of a bit. -/
theorem and_mask_ne_zero (b : UInt8) (p : Nat) :
    (b &&& UInt8.ofNat (1 <<< (p % 8)) != 0) = bit b (p % 8) := by
  cases hbit : bit b (p % 8) with
  | false =>
      rw [bne_eq_false_iff_eq]
      refine ext fun k _ => ?_
      rw [bit_and, bit_mask, bit_zero]
      by_cases hk : k = p % 8
      · rw [hk, hbit, Bool.false_and]
      · simp [hk]
  | true =>
      rw [bne_iff_ne]
      intro hzero
      have h := congrArg (bit · (p % 8)) hzero
      simp [bit_mask, hbit] at h

end Byte

/-! ### The bits of a setting -/

namespace Setting

open SettingGroup

/-- Bit `k` of byte `n` belongs to the setting. -/
def Owns (s : Setting) (n k : Nat) : Prop :=
  n = s.byte ∧ k < 8 ∧ ∀ m ∈ s.mask?, Byte.bit m k = true

variable {g : SettingGroup} {d : Declaration} {i p n k : Nat}

theorem owns_wide : (wideSetting d i).Owns n k ↔ n = i ∧ k < 8 := by
  simp [Owns, wideSetting, mask?]

theorem owns_narrow :
    (g.narrowSetting d p).Owns n k ↔ n = g.booleanOffset + p / 8 ∧ k = p % 8 := by
  have hlt : k = p % 8 → k < 8 := fun h => h ▸ Nat.mod_lt p (by decide)
  simp only [Owns, narrowSetting, mask?, Option.map_some, Option.mem_some_iff, forall_eq',
    Byte.bit_mask, decide_eq_true_eq]
  exact and_congr_right fun _ => ⟨fun h => h.2, fun h => ⟨hlt h, h⟩⟩

end Setting

/-! ### The bits of a group -/

namespace SettingGroup

variable {g : SettingGroup} {i j n k : Nat} {s t : Setting}

/-- The storage of a group: its settings own distinct bits of its image, whole bytes first and
then bit after bit, and hardly any bit is left over. -/
structure Partitioned (g : SettingGroup) : Prop where
  /-- A setting that is not a boolean owns a whole byte. -/
  byte_iff : ∀ s ∈ g.settings, s.isBool = false → ∀ n k, s.Owns n k ↔ n = s.byte ∧ k < 8
  /-- A boolean owns one bit: that of its mask, in its byte. -/
  bit_iff : ∀ s ∈ g.settings, s.isBool = true → ∃ m b, s.mask? = some m ∧ b < 8 ∧
    m = UInt8.ofNat (1 <<< b) ∧ ∀ n k, s.Owns n k ↔ n = s.byte ∧ k = b
  /-- The bits are bits of the image. -/
  inRange : ∀ s ∈ g.settings, ∀ n k, s.Owns n k → n < g.size
  /-- Two settings have no bit in common. -/
  disjoint : ∀ (i j : Nat) (s t : Setting), g.settings[i]? = some s →
    g.settings[j]? = some t → i ≠ j → ∀ n k, ¬ (s.Owns n k ∧ t.Owns n k)
  /-- The bytes below the boolean offset are those of the settings that take one, in order. -/
  bytes : (g.settings.filter (!·.isBool)).map (·.byte) = List.range g.booleanOffset
  /-- The booleans take one bit after another from the boolean offset on. -/
  consecutive : ∀ (p : Nat) (s : Setting), (g.settings.filter (·.isBool))[p]? = some s →
    ∀ n k, s.Owns n k ↔ 8 * n + k = 8 * g.booleanOffset + p ∧ k < 8
  /-- Fewer than eight bits of the image belong to no setting. -/
  tight : {a | a < 8 * g.size ∧ ∀ s ∈ g.settings, ¬ s.Owns (a / 8) (a % 8)}.ncard < 8

theorem byte_lt_size (h : Placed g i s) : s.byte < g.size := by
  rcases h with ⟨hd, rfl⟩ | ⟨rfl, hd, rfl⟩
  · exact Nat.lt_of_lt_of_le (lt_of_wide hd) (Nat.le_add_right _ _)
  · have := lt_of_narrow hd
    simp only [narrowSetting, size]
    omega

/-- The settings at two places have no bit in common. -/
theorem eq_of_owns (hs : Placed g i s) (ht : Placed g j t) (h : s.Owns n k) (h' : t.Owns n k) :
    i = j := by
  rcases hs with ⟨hd, rfl⟩ | ⟨rfl, hd, rfl⟩ <;> rcases ht with ⟨hd', rfl⟩ | ⟨rfl, hd', rfl⟩ <;>
    simp only [Setting.owns_wide, Setting.owns_narrow] at h h'
  -- A whole byte is below the boolean offset, where no boolean is.
  · omega
  · have := lt_of_wide hd
    omega
  · have := lt_of_wide hd'
    omega
  · omega

/-- A bit of the image that no setting owns is behind the last boolean. -/
theorem le_of_unowned {a : Nat} (h : ∀ s ∈ g.settings, ¬ s.Owns (a / 8) (a % 8)) :
    8 * g.booleanOffset + g.narrow.length ≤ a := by
  by_contra hlt
  by_cases ha : a / 8 < g.booleanOffset
  · have hplaced : Placed g (a / 8) (wideSetting g.wide[a / 8] (a / 8)) :=
      .wide (List.getElem?_eq_getElem ha) rfl
    exact h _ (List.mem_of_getElem? (placed_iff.mpr hplaced))
      (Setting.owns_wide.mpr ⟨rfl, Nat.mod_lt a (by decide)⟩)
  · have hp : a - 8 * g.booleanOffset < g.narrow.length := by omega
    have hplaced : Placed g _ (g.narrowSetting g.narrow[a - 8 * g.booleanOffset] _) :=
      .narrow rfl (List.getElem?_eq_getElem hp) rfl
    exact h _ (List.mem_of_getElem? (placed_iff.mpr hplaced))
      (Setting.owns_narrow.mpr (by omega))

theorem partitioned (g : SettingGroup) : Partitioned g where
  byte_iff s hs hbool n k := by
    obtain ⟨i, hi⟩ := List.mem_iff_getElem?.mp hs
    rcases placed_iff.mp hi with ⟨hd, rfl⟩ | ⟨rfl, hd, rfl⟩
    · exact Setting.owns_wide
    · exact absurd (isBool_of_narrow hd) (by simpa [narrowSetting] using hbool)
  bit_iff s hs hbool := by
    obtain ⟨i, hi⟩ := List.mem_iff_getElem?.mp hs
    rcases placed_iff.mp hi with ⟨hd, rfl⟩ | ⟨rfl, hd, rfl⟩
    · exact absurd (isBool_of_wide hd) (by simpa [wideSetting] using hbool)
    · exact ⟨_, _, rfl, Nat.mod_lt _ (by decide), rfl, fun n k => Setting.owns_narrow⟩
  inRange s hs n k howns := by
    obtain ⟨i, hi⟩ := List.mem_iff_getElem?.mp hs
    rw [howns.1]
    exact byte_lt_size (placed_iff.mp hi)
  disjoint i j s t hs ht hne n k h :=
    hne (eq_of_owns (placed_iff.mp hs) (placed_iff.mp ht) h.1 h.2)
  bytes := by
    rw [filter_not_isBool, List.map_map]
    exact (List.zipIdx_map_snd ..).trans List.range_eq_range'.symm
  consecutive p s hs n k := by
    rw [filter_isBool, List.getElem?_map, List.getElem?_zipIdx] at hs
    obtain ⟨⟨d, m⟩, hd, rfl⟩ := Option.map_eq_some_iff.mp hs
    obtain ⟨d', hd', heq⟩ := Option.map_eq_some_iff.mp hd
    cases heq
    rw [Setting.owns_narrow]
    omega
  tight := by
    -- The bits left over are between the last boolean and the end of the image.
    have hsubset : {a | a < 8 * g.size ∧ ∀ s ∈ g.settings, ¬ s.Owns (a / 8) (a % 8)} ⊆
        (Finset.Ico (8 * g.booleanOffset + g.narrow.length) (8 * g.size) : Set Nat) :=
      fun a ha => by simpa using ⟨le_of_unowned ha.2, ha.1⟩
    have hcard := Set.ncard_le_ncard hsubset (Finset.finite_toSet _)
    rw [Set.ncard_coe_finset, Nat.card_Ico] at hcard
    have hsize : g.size = g.booleanOffset + (g.narrow.length + 7) / 8 := rfl
    omega

end SettingGroup

end Isaforge
