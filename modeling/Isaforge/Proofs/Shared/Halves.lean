import Mathlib.Algebra.Ring.Nat

/-!
# Halves — arithmetic on the two halves of an integer

An integer of `2 * w` bits is its low and its high half (`ext_halves`), and `join` puts two halves
together.  Each operation on the whole is an operation on the halves, with a carry or a borrow
from the low to the high one:

* `low_add`, `high_add`: addition, where the high half takes the carry of the low halves;
* `low_sub`, `high_sub`: subtraction, where it gives up the borrow;
* the bitwise operations work on each half alone.

Subtraction is not worked out again: `x - y` is what added to `y` gives `x`, and the carry of that
addition is the borrow (`carry_sub`).
-/

namespace Isaforge.Shared

variable {w : Nat}

/-- The low half. -/
def low (x : BitVec (2 * w)) : BitVec w :=
  x.setWidth w

/-- The high half. -/
def high (x : BitVec (2 * w)) : BitVec w :=
  (x >>> w).setWidth w

/-- The integer of two halves. -/
def join (lo hi : BitVec w) : BitVec (2 * w) :=
  .ofNat (2 * w) (lo.toNat + hi.toNat * 2 ^ w)

/-- The sum of the two integers does not fit. -/
def carry (x y : BitVec w) : Bool :=
  2 ^ w ≤ x.toNat + y.toNat

/-- The difference of the two integers is negative. -/
def borrow (x y : BitVec w) : Bool :=
  x.toNat < y.toNat

/-- A flag as an integer. -/
def ofFlag (c : Bool) : BitVec w :=
  .ofNat w c.toNat

/-! ### An integer and its halves -/

theorem two_pow_double (w : Nat) : 2 ^ (2 * w) = 2 ^ w * 2 ^ w := by
  rw [Nat.two_mul, Nat.pow_add]

theorem toNat_low (x : BitVec (2 * w)) : (low x).toNat = x.toNat % 2 ^ w :=
  BitVec.toNat_setWidth w x

theorem toNat_high (x : BitVec (2 * w)) : (high x).toNat = x.toNat / 2 ^ w := by
  rw [high, BitVec.toNat_setWidth, BitVec.toNat_ushiftRight, Nat.shiftRight_eq_div_pow]
  refine Nat.mod_eq_of_lt (Nat.div_lt_of_lt_mul ?_)
  rw [← two_pow_double]
  exact x.isLt

/-- Nothing is lost when two halves are joined: the high one counts `2 ^ w` times. -/
theorem toNat_join (lo hi : BitVec w) : (join lo hi).toNat = lo.toNat + hi.toNat * 2 ^ w := by
  rw [join, BitVec.toNat_ofNat]
  refine Nat.mod_eq_of_lt ?_
  calc lo.toNat + hi.toNat * 2 ^ w
      < 2 ^ w + hi.toNat * 2 ^ w := Nat.add_lt_add_right lo.isLt _
    _ = (hi.toNat + 1) * 2 ^ w := by rw [Nat.succ_mul, Nat.add_comm]
    _ ≤ 2 ^ w * 2 ^ w := Nat.mul_le_mul_right _ hi.isLt
    _ = 2 ^ (2 * w) := (two_pow_double w).symm

/-- Integers of equal halves are equal. -/
theorem ext_halves {x y : BitVec (2 * w)} (hlow : low x = low y) (hhigh : high x = high y) :
    x = y := by
  have hl := congrArg BitVec.toNat hlow
  have hh := congrArg BitVec.toNat hhigh
  rw [toNat_low, toNat_low] at hl
  rw [toNat_high, toNat_high] at hh
  refine BitVec.eq_of_toNat_eq ?_
  rw [← Nat.div_add_mod x.toNat (2 ^ w), ← Nat.div_add_mod y.toNat (2 ^ w), hl, hh]

@[simp] theorem low_join (lo hi : BitVec w) : low (join lo hi) = lo := by
  refine BitVec.eq_of_toNat_eq ?_
  rw [toNat_low, toNat_join, Nat.add_mul_mod_self_right, Nat.mod_eq_of_lt lo.isLt]

@[simp] theorem high_join (lo hi : BitVec w) : high (join lo hi) = hi := by
  refine BitVec.eq_of_toNat_eq ?_
  rw [toNat_high, toNat_join, Nat.add_mul_div_right _ _ (Nat.two_pow_pos w),
    Nat.div_eq_of_lt lo.isLt, Nat.zero_add]

/-- An integer is what its halves are joined to. -/
theorem join_eq {x : BitVec (2 * w)} {lo hi : BitVec w} (hlow : low x = lo) (hhigh : high x = hi) :
    join lo hi = x :=
  ext_halves (by rw [low_join, hlow]) (by rw [high_join, hhigh])

/-! ### Addition and subtraction -/

/-- As a number, the carry is one when the sum does not fit; in no bits at all it is zero. -/
theorem toNat_ofFlag_carry (x y : BitVec w) :
    (ofFlag (carry x y) : BitVec w).toNat =
      (if 2 ^ w ≤ x.toNat + y.toNat then 1 else 0) % 2 ^ w := by
  rw [ofFlag, BitVec.toNat_ofNat, carry]
  by_cases h : 2 ^ w ≤ x.toNat + y.toNat
  · simp [h]
  · simp [h]

/-- The low half of a sum is the sum of the low halves. -/
theorem low_add (x y : BitVec (2 * w)) : low (x + y) = low x + low y := by
  refine BitVec.eq_of_toNat_eq ?_
  rw [toNat_low, BitVec.toNat_add, BitVec.toNat_add, toNat_low, toNat_low, two_pow_double,
    Nat.mod_mul_right_mod, ← Nat.add_mod]

/-- The high half takes the carry of the low halves. -/
theorem high_add (x y : BitVec (2 * w)) :
    high (x + y) = high x + high y + ofFlag (carry (low x) (low y)) := by
  refine BitVec.eq_of_toNat_eq ?_
  rw [toNat_high, BitVec.toNat_add, two_pow_double, Nat.mod_mul_right_div_self,
    Nat.add_div (Nat.two_pow_pos w), BitVec.toNat_add, BitVec.toNat_add, toNat_ofFlag_carry,
    toNat_high, toNat_high, toNat_low, toNat_low, Nat.mod_add_mod, Nat.add_mod_mod]

/-- Adding back what was subtracted carries exactly when the subtraction borrowed. -/
theorem carry_sub (x y : BitVec w) : carry (x - y) y = borrow x y := by
  have hx := x.isLt
  have hy := y.isLt
  rw [carry, borrow, BitVec.toNat_sub, decide_eq_decide]
  by_cases h : x.toNat < y.toNat
  · rw [Nat.mod_eq_of_lt (by omega)]
    omega
  · have hwrap : 2 ^ w - y.toNat + x.toNat = x.toNat - y.toNat + 2 ^ w := by omega
    rw [hwrap, Nat.add_mod_right, Nat.mod_eq_of_lt (by omega)]
    omega

/-- The low half of a difference is the difference of the low halves. -/
theorem low_sub (x y : BitVec (2 * w)) : low (x - y) = low x - low y := by
  have h : low (x - y) + low y = low x := by rw [← low_add, BitVec.sub_add_cancel]
  rw [← h, BitVec.add_sub_cancel]

/-- The high half gives up the borrow of the low halves. -/
theorem high_sub (x y : BitVec (2 * w)) :
    high (x - y) = high x - high y - ofFlag (borrow (low x) (low y)) := by
  have h : high (x - y) + high y + ofFlag (borrow (low x) (low y)) = high x := by
    rw [← carry_sub, ← low_sub, ← high_add, BitVec.sub_add_cancel]
  rw [← h, BitVec.add_assoc, BitVec.add_comm (high y), ← BitVec.add_assoc, BitVec.add_sub_cancel,
    BitVec.add_sub_cancel]

/-! ### Bitwise operations -/

theorem low_and (x y : BitVec (2 * w)) : low (x &&& y) = low x &&& low y := by
  simp [low]

theorem high_and (x y : BitVec (2 * w)) : high (x &&& y) = high x &&& high y := by
  simp [high, BitVec.ushiftRight_and_distrib]

theorem low_or (x y : BitVec (2 * w)) : low (x ||| y) = low x ||| low y := by
  simp [low]

theorem high_or (x y : BitVec (2 * w)) : high (x ||| y) = high x ||| high y := by
  simp [high, BitVec.ushiftRight_or_distrib]

theorem low_xor (x y : BitVec (2 * w)) : low (x ^^^ y) = low x ^^^ low y := by
  simp [low]

theorem high_xor (x y : BitVec (2 * w)) : high (x ^^^ y) = high x ^^^ high y := by
  simp [high, BitVec.ushiftRight_xor_distrib]

end Isaforge.Shared
