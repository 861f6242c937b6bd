/-
# Moxie.Proofs.Word.Signed — words read as signed numbers.

The 32 bits of a word are read as a natural number or as an integer, and where the top bit is set
the two readings are `2 ^ 32` apart.  Both are remainders of each other modulo `2 ^ 32`, so a word
is the word made of its signed reading (`ofInt_toInt32`), and what is computed modulo `2 ^ 32` may
be computed on either (`ofInt_bmod`).  An integer that fits is read back from its word
(`toInt32_ofInt`).
-/
import Moxie.Proofs.Word.Bits

namespace Moxie

/-- The two readings of a word. -/
theorem toInt_toInt32 (a : UInt32) :
    a.toInt32.toInt = if a.toNat < 2 ^ 31 then (a.toNat : Int) else a.toNat - 2 ^ 32 := by
  have h : a.toInt32.toInt =
      if 2 * a.toNat < 2 ^ 32 then (a.toNat : Int) else a.toNat - ((2 ^ 32 : Nat) : Int) :=
    BitVec.toInt_eq_toNat_cond a.toBitVec
  rw [h]
  split <;> split <;> omega

/-- Below zero the readings are `2 ^ 32` apart, from zero on they are the same. -/
theorem toInt_toInt32_cases (a : UInt32) :
    (a.toInt32.toInt < 0 ∧ a.toInt32.toInt = a.toNat - 2 ^ 32) ∨
      (0 ≤ a.toInt32.toInt ∧ a.toInt32.toInt = a.toNat) := by
  have hlt := a.toNat_lt
  rw [toInt_toInt32]
  split <;> omega

/-- A word is made of its signed reading. -/
theorem ofInt_toInt32 (a : UInt32) : UInt32.ofInt a.toInt32.toInt = a := by
  have hlt := a.toNat_lt
  apply UInt32.toNat_inj.mp
  rw [toNat_ofInt, toInt_toInt32]
  split <;> omega

/-- Only zero is read as zero. -/
theorem toInt_toInt32_eq_zero_iff {a : UInt32} : a.toInt32.toInt = 0 ↔ a = 0 := by
  constructor
  · intro h
    rw [← ofInt_toInt32 a, h]
    rfl
  · rintro rfl
    rfl

/-- Wrapping around does not change the word that an integer makes. -/
theorem ofInt_bmod (x : Int) : UInt32.ofInt (x.bmod (2 ^ 32)) = UInt32.ofInt x := by
  apply UInt32.toNat_inj.mp
  rw [toNat_ofInt, toNat_ofInt]
  exact congrArg Int.toNat Int.bmod_emod

/-- An integer that fits is the signed reading of its word. -/
theorem toInt32_ofInt {x : Int} (hlow : -2 ^ 31 ≤ x) (hhigh : x < 2 ^ 31) :
    (UInt32.ofInt x).toInt32.toInt = x := by
  rw [toInt_toInt32, toNat_ofInt]
  split <;> omega

end Moxie
