/-
# Moxie.Proofs.Word.Bits — words as bits and as numbers.

Instruction words and page entries are both made of high bits that name something and low bits that
qualify it.  Keeping the high bits is rounding down to a multiple of a power of two, so what a
masked word is can be said, and computed with, as a number.  The other way around, a word made of an
integer is its remainder, so displacements to either side are added like words.
-/
import Mathlib.Algebra.Ring.Int.Defs
import Mathlib.Algebra.Ring.Nat

namespace Moxie

/-- Of a number below `2 ^ w`, keeping the bits from `k` on is rounding down to a multiple of
`2 ^ k`. -/
theorem and_high_bits {w k n : Nat} (hn : n < 2 ^ w) :
    n &&& (2 ^ k * (2 ^ (w - k) - 1)) = 2 ^ k * (n / 2 ^ k) := by
  apply Nat.eq_of_testBit_eq
  intro i
  rw [Nat.testBit_and, Nat.testBit_two_pow_mul, Nat.testBit_two_pow_mul,
    Nat.testBit_two_pow_sub_one, Nat.testBit_div_two_pow]
  -- from bit `k` up the mask is all ones, and from bit `w` up the word is all zeros
  by_cases hk : k ≤ i
  · simp only [hk, decide_true, Bool.true_and, Nat.sub_add_cancel hk]
    by_cases hi : i < w
    · simp [show i - k < w - k by omega]
    · have hbit : n.testBit i = false := Nat.testBit_lt_two_pow
        (Nat.lt_of_lt_of_le hn (Nat.pow_le_pow_right (by decide) (by omega)))
      rw [hbit, Bool.false_and]
  · simp [hk]

/-- A mask is laid over both parts of a word. -/
theorem or_and_distrib (a b mask : UInt32) : (a ||| b) &&& mask = a &&& mask ||| b &&& mask := by
  apply UInt32.toNat_inj.mp
  rw [UInt32.toNat_and, UInt32.toNat_or, UInt32.toNat_or, UInt32.toNat_and, UInt32.toNat_and,
    Nat.and_or_distrib_right]

/-- An even word is twice its half. -/
theorem half_doubled {a : UInt32} (h : a % 2 = 0) : a / 2 * 2 = a := by
  have heven : a.toNat % 2 = 0 := UInt32.toNat_inj.mpr h
  have hlt := a.toNat_lt
  apply UInt32.toNat_inj.mp
  rw [UInt32.toNat_mul, UInt32.toNat_div]
  simp only [UInt32.reduceToNat, Nat.reducePow] at hlt ⊢
  omega

/-- A word made of an integer is its remainder. -/
theorem toNat_ofInt (x : Int) : (UInt32.ofInt x).toNat = (x % 2 ^ 32).toNat :=
  UInt32.toNat_ofNat_of_lt' ((Int.toNat_lt' (by decide)).mpr (Int.emod_lt_of_pos x (by decide)))

/-- So is a row of bits made of one. -/
theorem ofBitVec_ofInt (x : Int) : UInt32.ofBitVec (BitVec.ofInt 32 x) = UInt32.ofInt x :=
  UInt32.toNat_inj.mp ((BitVec.toNat_ofInt x).trans (toNat_ofInt x).symm)

end Moxie
