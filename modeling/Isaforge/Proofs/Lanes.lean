import Mathlib.Data.Nat.Prime.Basic
import Isaforge.Proofs.Outcome
import Isaforge.Proofs.Spelling

/-!
# Lanes — the types that are made of a type that was read

A type is made of another by multiplying its lanes, as often as one likes; a factor that is refused
leaves it as it was (`ValueType.widenedBy`).  Multiplying by two factors one after the other is
multiplying by their product (`ValueType.times_times_eq_ok_iff`).

Numbers of lanes and factors are kept in words of 16 bits, and their products in words of 32
(`ValueType.wordLanes?`).

`ValueType.widened_sound`: **whatever the factors**, a type that was read stays valid, so that its
text is read as it, and on words its lanes come out as on numbers.
-/

namespace Isaforge

namespace ValueType

variable {s : String} {t u : ValueType} {a b n : Nat}

/-! ### Multiplying lanes -/

theorem times_eq_ok_iff : t.times n = .ok u ↔
    (∃ k, n = 2 ^ k) ∧ t.lanes * n ≤ maxLanes ∧ u = { t with lanes := t.lanes * n } := by
  have hallowed : (isPowerOfTwo n && decide (t.lanes * n ≤ maxLanes)) = true ↔
      (∃ k, n = 2 ^ k) ∧ t.lanes * n ≤ maxLanes := by
    rw [Bool.and_eq_true, isPowerOfTwo_iff, decide_eq_true_iff]
  rw [times, ← and_assoc, ← hallowed]
  split
  · rename_i h
    rw [Except.ok.injEq, and_iff_right h, eq_comm]
  · rename_i h
    constructor
    · intro hok
      cases hok
    · intro hok
      exact absurd hok.1 h

theorem Valid.times (ht : t.Valid) (h : t.times n = .ok u) : u.Valid := by
  obtain ⟨⟨k, rfl⟩, hle, rfl⟩ := times_eq_ok_iff.mp h
  obtain ⟨hlane, hpower, -⟩ := ht
  obtain ⟨j, hj⟩ := isPowerOfTwo_iff.mp hpower
  exact ⟨hlane, isPowerOfTwo_iff.mpr ⟨j + k, by rw [hj, Nat.pow_add]⟩, hle⟩

/-- A product is a power of two when both factors are. -/
theorem exists_pow_mul_iff : (∃ k, a * b = 2 ^ k) ↔ (∃ i, a = 2 ^ i) ∧ ∃ j, b = 2 ^ j := by
  constructor
  · rintro ⟨k, hk⟩
    have hdivides : ∀ d, d ∣ 2 ^ k → ∃ i, d = 2 ^ i := fun d hd => by
      obtain ⟨i, -, hi⟩ := (Nat.dvd_prime_pow Nat.prime_two).mp hd
      exact ⟨i, hi⟩
    exact ⟨hdivides a (hk ▸ Nat.dvd_mul_right a b), hdivides b (hk ▸ Nat.dvd_mul_left b a)⟩
  · rintro ⟨⟨i, rfl⟩, j, rfl⟩
    exact ⟨i + j, (Nat.pow_add 2 i j).symm⟩

theorem times_times_eq_ok_iff_lanes : (t.times a >>= (·.times b)) = .ok u ↔
    ((∃ i, a = 2 ^ i) ∧ (∃ j, b = 2 ^ j) ∧ t.lanes * a * b ≤ maxLanes) ∧
      u = { t with lanes := t.lanes * a * b } := by
  simp only [bind_eq_ok_iff, times_eq_ok_iff]
  constructor
  · rintro ⟨v, ⟨ha, -, rfl⟩, hb, hle, rfl⟩
    exact ⟨⟨ha, hb, hle⟩, rfl⟩
  · rintro ⟨⟨ha, hb, hle⟩, rfl⟩
    -- The second factor is at least one, so the first is not too large on its own.
    have hpos : 0 < b := by
      obtain ⟨j, rfl⟩ := hb
      exact Nat.two_pow_pos j
    exact ⟨_, ⟨ha, (Nat.le_mul_of_pos_right _ hpos).trans hle, rfl⟩, hb, hle, rfl⟩

/-- One factor after another is their product. -/
theorem times_times_eq_ok_iff :
    (t.times a >>= (·.times b)) = .ok u ↔ t.times (a * b) = .ok u := by
  rw [times_times_eq_ok_iff_lanes, times_eq_ok_iff, exists_pow_mul_iff, Nat.mul_assoc]
  tauto

/-! ### Words -/

/-- The lanes that a step makes, computed on words: a product of 32 bits that is cut to 16 when it
is not too large. -/
def wordLanes? (lanes n : UInt16) : Option UInt16 :=
  let total := lanes.toUInt32 * n.toUInt32
  if isPowerOfTwo n.toNat && total ≤ UInt32.ofNat maxLanes then some total.toUInt16 else none

/-- Words of 16 bits have a product of 32 bits. -/
theorem product_lt (lanes n : UInt16) : lanes.toNat * n.toNat < 2 ^ 32 :=
  calc lanes.toNat * n.toNat
    _ < 2 ^ 16 * 2 ^ 16 := Nat.mul_lt_mul'' lanes.toNat_lt n.toNat_lt
    _ = 2 ^ 32 := by rfl

theorem toNat_product (lanes n : UInt16) :
    (lanes.toUInt32 * n.toUInt32).toNat = lanes.toNat * n.toNat := by
  rw [UInt32.toNat_mul, UInt16.toNat_toUInt32, UInt16.toNat_toUInt32,
    Nat.mod_eq_of_lt (product_lt lanes n)]

/-- On words, a step goes as on numbers. -/
theorem map_lanes_times {lanes : UInt16} (h : lanes.toNat = t.lanes) (n : UInt16) :
    (t.times n.toNat).toOption.map (·.lanes) = (wordLanes? lanes n).map (·.toNat) := by
  have htotal : (lanes.toUInt32 * n.toUInt32).toNat = t.lanes * n.toNat :=
    h ▸ toNat_product lanes n
  have hle : lanes.toUInt32 * n.toUInt32 ≤ UInt32.ofNat maxLanes ↔
      t.lanes * n.toNat ≤ maxLanes := by
    rw [UInt32.le_iff_toNat_le, htotal]
    rfl
  simp only [times, wordLanes?, hle]
  split
  · rename_i hallowed
    have hfits : t.lanes * n.toNat < 2 ^ 16 :=
      (of_decide_eq_true (Bool.and_eq_true_iff.mp hallowed).2).trans_lt (by decide)
    have hcut : (lanes.toUInt32 * n.toUInt32).toUInt16.toNat = t.lanes * n.toNat := by
      rw [UInt32.toNat_toUInt16, htotal, Nat.mod_eq_of_lt hfits]
    exact congrArg some hcut.symm
  · rfl

/-! ### Steps -/

/-- The type with so many times its lanes; the type itself when that is refused. -/
def widened (t : ValueType) (n : UInt16) : ValueType :=
  match t.times n.toNat with
  | .ok u => u
  | .error _ => t

/-- The type after steps that multiply its lanes by the factors. -/
def widenedBy (t : ValueType) (ns : List UInt16) : ValueType :=
  ns.foldl widened t

theorem Valid.widened (h : t.Valid) (n : UInt16) : (t.widened n).Valid := by
  rw [ValueType.widened]
  split
  · rename_i u hu
    exact h.times hu
  · exact h

theorem Valid.widenedBy (h : t.Valid) (ns : List UInt16) : (t.widenedBy ns).Valid := by
  induction ns generalizing t with
  | nil => exact h
  | cons n ns ih => exact ih (h.widened n)

/-- What holds of a type that was read, or made of one that was. -/
structure Sound (t : ValueType) : Prop where
  lane : t.lane.Valid
  lanes : ∃ k ≤ 8, t.lanes = 2 ^ k
  /-- Its text is read as it. -/
  text : parse t.text = .ok t
  /-- Its lanes fit in a word. -/
  word : (UInt16.ofNat t.lanes).toNat = t.lanes
  /-- The lanes that a step makes come out on words as on numbers: no product is cut, nor a number
  of lanes. -/
  step : ∀ n : UInt16, t.lanes * n.toNat < 2 ^ 32 ∧
    (t.times n.toNat).toOption.map (·.lanes) =
      (wordLanes? (UInt16.ofNat t.lanes) n).map (·.toNat)
  /-- Two steps are taken when both factors are powers of two and their product is not too large,
  and then they are one. -/
  twice : ∀ a b, (∃ u, (t.times a >>= (·.times b)) = .ok u) ↔
    (∃ i, a = 2 ^ i) ∧ (∃ j, b = 2 ^ j) ∧ t.lanes * a * b ≤ maxLanes
  once : ∀ a b u, (t.times a >>= (·.times b)) = .ok u ↔ t.times (a * b) = .ok u

theorem Valid.sound (h : t.Valid) : t.Sound := by
  obtain ⟨hlane, hlanes⟩ := valid_iff_lanes.mp h
  have hword : (UInt16.ofNat t.lanes).toNat = t.lanes :=
    UInt16.toNat_ofNat_of_lt' (h.2.2.trans_lt (by decide))
  refine ⟨hlane, hlanes, parse_text h, hword, fun n => ⟨?_, map_lanes_times hword n⟩, ?_, ?_⟩
  · exact hword ▸ product_lt _ n
  · intro a b
    simp only [times_times_eq_ok_iff_lanes, exists_and_left, exists_eq, and_true]
  · intro a b u
    exact times_times_eq_ok_iff

/-- **Whatever the factors**, a type that is made of one that was read is a valid one, of which the
text is read as it, and whose lanes are multiplied on words as on numbers. -/
theorem widened_sound (h : parse s = .ok t) (ns : List UInt16) : (t.widenedBy ns).Sound :=
  ((parse_eq_ok_iff.mp h).1.widenedBy ns).sound

/-- Three of the factors are refused here: none, one that is no power of two, and one too large. -/
theorem widened_padded : parse "f64x+02" = .ok ⟨⟨.float, 64⟩, 2⟩ ∧
    (⟨⟨.float, 64⟩, 2⟩ : ValueType).widenedBy [4, 0, 3, 16, 32768] = ⟨⟨.float, 64⟩, 128⟩ ∧
    (⟨⟨.float, 64⟩, 128⟩ : ValueType).Sound := by
  have hread : parse "f64x+02" = .ok ⟨⟨.float, 64⟩, 2⟩ := rfl
  exact ⟨hread, rfl, widened_sound hread [4, 0, 3, 16, 32768]⟩

end ValueType

end Isaforge
