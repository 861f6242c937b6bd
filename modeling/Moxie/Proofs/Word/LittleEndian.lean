/-
# Moxie.Proofs.Word.LittleEndian — reading back the bytes of a word.

A word of at most four bytes is smaller than the power of 256 that its bytes span, so `decode` never
overflows on them and undoes `encode` up to the bits that `encode` drops.  Both are what the digits
of numbers say they are: `decode` gives the number whose digits to base 256 the bytes are, and
`encode` the digits of a number.
-/
import Mathlib.Data.Nat.Digits.Defs
import Moxie.Word.LittleEndian

namespace Moxie.LittleEndian

/-- Up to four bytes there is no overflow: the word read is the weighted sum of its bytes. -/
theorem toNat_decode_lt {bs : List UInt8} (h : bs.length ≤ 4) :
    (decode bs).toNat < 256 ^ bs.length := by
  induction bs with
  | nil => decide
  | cons b bs ih =>
    have hb := b.toNat_lt
    have hp : 256 ^ bs.length ≤ 256 ^ 3 :=
      Nat.pow_le_pow_right (by decide) (by simp only [List.length_cons] at h; omega)
    have := ih (by simp only [List.length_cons] at h; omega)
    simp only [decode, UInt32.toNat_add, UInt32.toNat_mul, List.length_cons, Nat.pow_succ,
      UInt8.toNat_toUInt32, UInt32.reduceToNat]
    omega

/-- **Reading back what was written** gives the low bytes of the word, the rest cleared. -/
theorem toNat_decode_encode {n : Nat} (h : n ≤ 4) (v : UInt32) :
    (decode (encode n v)).toNat = v.toNat % 256 ^ n := by
  induction n generalizing v with
  | zero => simp [encode, decode, Nat.mod_one]
  | succ n ih =>
    have hlt : (decode (encode n (v / 256))).toNat < 256 ^ (encode n (v / 256)).length :=
      toNat_decode_lt (by simp only [length_encode]; omega)
    have hp : 256 ^ n ≤ 256 ^ 3 := Nat.pow_le_pow_right (by decide) (by omega)
    have hv := ih (by omega) (v / 256)
    have hlow := Nat.mod_lt v.toNat (show 0 < 256 by decide)
    rw [length_encode, hv] at hlt
    simp only [encode, decode, UInt32.toNat_add, UInt32.toNat_mul, UInt8.toNat_toUInt32,
      UInt32.toNat_toUInt8, hv, Nat.pow_succ' (n := n), Nat.mod_mul]
    simp only [UInt32.toNat_div, UInt32.reduceToNat, Nat.reducePow] at hlt hp ⊢
    omega

/-- **The value of up to four bytes** is the number whose digits they are, the least significant
first. -/
theorem toNat_decode {bs : List UInt8} (h : bs.length ≤ 4) :
    (decode bs).toNat = Nat.ofDigits 256 (bs.map (·.toNat)) := by
  induction bs with
  | nil => rfl
  | cons b bs ih =>
    simp only [List.length_cons] at h
    have hb := b.toNat_lt
    have hp : 256 ^ bs.length ≤ 256 ^ 3 := Nat.pow_le_pow_right (by decide) (by omega)
    have hlt := toNat_decode_lt (show bs.length ≤ 4 by omega)
    rw [List.map_cons, Nat.ofDigits_cons, ← ih (by omega)]
    simp only [decode, UInt32.toNat_add, UInt32.toNat_mul, UInt8.toNat_toUInt32, UInt32.reduceToNat,
      Nat.reducePow] at hp ⊢
    omega

/-- The bytes of a word are its digits. -/
theorem encode_eq_map (n : Nat) (v : UInt32) :
    encode n v = (List.range n).map fun k => UInt8.ofNat (v.toNat / 256 ^ k) := by
  induction n generalizing v with
  | zero => rfl
  | succ n ih =>
    rw [encode, ih, List.range_succ_eq_map, List.map_cons, List.map_map]
    refine congrArg₂ List.cons ?_ (List.map_congr_left fun k _ => ?_)
    · rw [Nat.pow_zero, Nat.div_one]
      rfl
    · rw [UInt32.toNat_div, Nat.div_div_eq_div_mul, Function.comp_apply, Nat.succ_eq_add_one,
        Nat.pow_succ']
      rfl

end Moxie.LittleEndian
