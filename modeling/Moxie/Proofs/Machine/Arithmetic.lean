/-
# Moxie.Proofs.Machine.Arithmetic — division, wide products and shifts are exact.

A computation on words stands for one on numbers, and is told by the numbers.  `mul`, `div`, `rem`
and `mulHigh` are each the word of an integer that is computed from the signed readings of their
operands (`mul_eq_ofInt`, `div_eq_some`, `rem_eq_some`, `mulHigh_eq_ofInt`).  The word of an integer
respects sums and products, so a law of integers is a law of words, also where a result does not
fit: the dividend is put together again from quotient and remainder even for the one quotient that
wraps around.  Where the integer fits, the law holds of the readings themselves.

The low half of a product is the same for both readings; the high halves differ by the operands
whose partner is negative.  Shifts are products and quotients with a power of two, and the one that
fills with the sign is the quotient rounded down, which truncation is not.
-/
import Moxie.Proofs.Machine.Steps
import Moxie.Proofs.Word.Signed

namespace Moxie

namespace Arithmetic

/-! ## The low half of a product -/

/-- The low half does not depend on the reading; it can be computed on signed words. -/
theorem mul_eq_signed (a b : UInt32) : mul a b = (a.toInt32 * b.toInt32).toUInt32 := rfl

theorem mul_eq_ofInt (a b : UInt32) :
    mul a b = UInt32.ofInt (a.toInt32.toInt * b.toInt32.toInt) := by
  rw [UInt32.ofInt_mul, ofInt_toInt32, ofInt_toInt32]
  rfl

/-! ## Quotients and remainders -/

/-- **`DividesUnsigned a b q r`** — as natural numbers, `a` divided by `b` is `q` with the remainder
`r`.
-/
structure DividesUnsigned (a b q r : UInt32) : Prop where
  exact : a.toNat = q.toNat * b.toNat + r.toNat
  lt : r.toNat < b.toNat

/-- **`DividesSigned a b q r`** — as signed numbers, `a` divided by `b` and truncated toward zero is
`q`, and the remainder `r` is on the side of `a`. -/
structure DividesSigned (a b q r : UInt32) : Prop where
  exact : a.toInt32.toInt = q.toInt32.toInt * b.toInt32.toInt + r.toInt32.toInt
  lt : r.toInt32.toInt.natAbs < b.toInt32.toInt.natAbs
  sign : r.toInt32.toInt = 0 ∨ r.toInt32.toInt.sign = a.toInt32.toInt.sign

section Division

variable {a b : UInt32}

theorem div_eq_some (hb : b ≠ 0) :
    div a b = some (UInt32.ofInt (a.toInt32.toInt.tdiv b.toInt32.toInt)) := by
  have hword : (a.toInt32 / b.toInt32).toUInt32 =
      UInt32.ofInt (a.toInt32.toInt.tdiv b.toInt32.toInt) := by
    rw [← ofInt_bmod, ← Int32.toInt_div]
    exact (ofInt_toInt32 _).symm
  rw [div, if_neg hb, hword]

theorem rem_eq_some (hb : b ≠ 0) :
    rem a b = some (UInt32.ofInt (a.toInt32.toInt.tmod b.toInt32.toInt)) := by
  have hword : (a.toInt32 % b.toInt32).toUInt32 =
      UInt32.ofInt (a.toInt32.toInt.tmod b.toInt32.toInt) := by
    rw [← Int32.toInt_mod]
    exact (ofInt_toInt32 _).symm
  rw [rem, if_neg hb, hword]

/-- The dividend is put together again modulo `2 ^ 32`, whether or not the quotient fits. -/
theorem mul_tdiv_add_tmod (a b : UInt32) :
    mul (UInt32.ofInt (a.toInt32.toInt.tdiv b.toInt32.toInt)) b +
      UInt32.ofInt (a.toInt32.toInt.tmod b.toInt32.toInt) = a := by
  generalize hx : a.toInt32.toInt = x
  generalize hy : b.toInt32.toInt = y
  calc
    mul (UInt32.ofInt (x.tdiv y)) b + UInt32.ofInt (x.tmod y)
      = UInt32.ofInt (x.tdiv y) * UInt32.ofInt y + UInt32.ofInt (x.tmod y) := by
        rw [← hy, ofInt_toInt32]
        rfl
    _ = UInt32.ofInt (x.tdiv y * y + x.tmod y) := by rw [UInt32.ofInt_add, UInt32.ofInt_mul]
    _ = a := by rw [Int.tdiv_mul_add_tmod, ← hx, ofInt_toInt32]

/-- A remainder is smaller than the divisor. -/
theorem natAbs_tmod_lt (x : Int) {y : Int} (hy : y ≠ 0) : (x.tmod y).natAbs < y.natAbs := by
  rw [Int.natAbs_tmod]
  exact Nat.mod_lt _ (Int.natAbs_pos.mpr hy)

/-- A truncated quotient of signed words fits, unless it is that of `-2 ^ 31` by `-1`. -/
theorem tdiv_fits {x y : Int} (hlow : -2 ^ 31 ≤ x) (hhigh : x < 2 ^ 31) (hy : y ≠ 0)
    (h : ¬ (x = -2 ^ 31 ∧ y = -1)) : -2 ^ 31 ≤ x.tdiv y ∧ x.tdiv y < 2 ^ 31 := by
  have hle : (x.tdiv y).natAbs ≤ x.natAbs := Int.natAbs_tdiv_le_natAbs x y
  refine ⟨by omega, Int.not_le.mp fun hbig => h ?_⟩
  -- no quotient but `2 ^ 31` is left, and multiplied by the divisor it is nearly `-2 ^ 31`
  have hquotient : x.tdiv y = 2 ^ 31 := by omega
  have hexact := Int.tdiv_mul_add_tmod x y
  have hlt := natAbs_tmod_lt x hy
  rw [hquotient] at hexact
  omega

/-- **Signed division is exact** where the quotient fits. -/
theorem dividesSigned (hb : b ≠ 0) (h : ¬ (a.toInt32.toInt = -2 ^ 31 ∧ b.toInt32.toInt = -1)) :
    DividesSigned a b (UInt32.ofInt (a.toInt32.toInt.tdiv b.toInt32.toInt))
      (UInt32.ofInt (a.toInt32.toInt.tmod b.toInt32.toInt)) := by
  have hy : b.toInt32.toInt ≠ 0 := fun hzero => hb (toInt_toInt32_eq_zero_iff.mp hzero)
  have hbelow := Int32.le_toInt b.toInt32
  have habove := Int32.toInt_lt b.toInt32
  obtain ⟨hlow, hhigh⟩ := tdiv_fits (Int32.le_toInt a.toInt32) (Int32.toInt_lt a.toInt32) hy h
  have hlt := natAbs_tmod_lt a.toInt32.toInt hy
  have hrem : (UInt32.ofInt (a.toInt32.toInt.tmod b.toInt32.toInt)).toInt32.toInt =
      a.toInt32.toInt.tmod b.toInt32.toInt := toInt32_ofInt (by omega) (by omega)
  refine ⟨?_, ?_, ?_⟩
  · rw [hrem, toInt32_ofInt hlow hhigh, Int.tdiv_mul_add_tmod]
  · rw [hrem]
    exact hlt
  · rw [hrem, Int.sign_tmod]
    by_cases hdvd : b.toInt32.toInt ∣ a.toInt32.toInt
    · exact .inl (Int.tmod_eq_zero_of_dvd hdvd)
    · exact .inr (if_neg hdvd)

theorem dividesUnsigned (hb : b ≠ 0) : DividesUnsigned a b (a / b) (a % b) := by
  have hpos : 0 < b.toNat := Nat.pos_of_ne_zero fun hzero => hb (UInt32.toNat_inj.mp hzero)
  refine ⟨?_, ?_⟩
  · rw [UInt32.toNat_div, UInt32.toNat_mod]
    exact (Nat.div_add_mod' a.toNat b.toNat).symm
  · rw [UInt32.toNat_mod]
    exact Nat.mod_lt _ hpos

/-- An exact division is one modulo `2 ^ 32`. -/
theorem DividesUnsigned.mul_add {q r : UInt32} (h : DividesUnsigned a b q r) : mul q b + r = a := by
  have hlt := a.toNat_lt
  apply UInt32.toNat_inj.mp
  rw [mul, UInt32.toNat_add, UInt32.toNat_mul, Nat.mod_add_mod, ← h.exact, Nat.mod_eq_of_lt hlt]

end Division

end Arithmetic

/-! ## Computations of the machine -/

namespace Action

variable {β τ : Type} [Bus β] [Observer τ] {c : Computation} {i : Instruction} {address : UInt32}
  {m : Machine β τ}

/-- The result of a computation goes to register A. -/
theorem perform_compute_of_eval {v : UInt32}
    (h : c.eval (m.registers.get i.a) (m.registers.get i.b) = some v) :
    perform (.compute c) i address m = .ok () { m with registers := m.registers.set i.a v } := by
  refine (bind_of_ok rfl).trans ?_
  rw [h]
  rfl

/-- A computation without a result is a fault. -/
theorem perform_compute_of_none
    (h : c.eval (m.registers.get i.a) (m.registers.get i.b) = none) :
    perform (.compute c) i address m = .error .divisionByZero m := by
  refine (bind_of_ok rfl).trans ?_
  rw [h]
  rfl

/-- The fault of a division by zero is that of the four divisions, and comes when they find a
zero. -/
theorem answer_perform_compute_eq_error_iff :
    (perform (.compute c) i address).answer m = .error .divisionByZero ↔
      m.registers.get i.b = 0 ∧ c ∈ [.div, .mod, .udiv, .umod] := by
  simp only [List.mem_cons, List.not_mem_nil, or_false]
  rw [← Computation.eval_eq_none_iff]
  cases h : c.eval (m.registers.get i.a) (m.registers.get i.b) with
  | none => simp [answer_of_error (perform_compute_of_none h)]
  | some v => simp [answer_of_ok (perform_compute_of_eval h)]

end Action

namespace Arithmetic

/-- **The law of division.**  Of two words there is a quotient and a remainder, in either reading,
unless the divisor is zero; a machine that divides then faults, and no other computation does.  The
unsigned pair is the quotient and the remainder of natural numbers.  The signed pair is exact and
truncates toward zero, but for the quotient of `-2 ^ 31` by `-1`, which wraps around to `-2 ^ 31`.
Quotient times divisor plus remainder is the dividend modulo `2 ^ 32` always. -/
theorem division_law (a b : UInt32) :
    ((div a b = none ↔ b = 0) ∧ (rem a b = none ↔ b = 0) ∧ (udiv a b = none ↔ b = 0) ∧
      (urem a b = none ↔ b = 0)) ∧
    (∀ (β τ : Type) [Bus β] [Observer τ] (c : Computation) (i : Instruction) (address : UInt32)
      (m : Machine β τ), (Action.perform (.compute c) i address).answer m = .error .divisionByZero ↔
        m.registers.get i.b = 0 ∧ c ∈ [.div, .mod, .udiv, .umod]) ∧
    (b ≠ 0 → ∃ q r, udiv a b = some q ∧ urem a b = some r ∧
      q.toNat = a.toNat / b.toNat ∧ r.toNat = a.toNat % b.toNat ∧
      DividesUnsigned a b q r ∧ mul q b + r = a) ∧
    (b ≠ 0 → ∃ q r, div a b = some q ∧ rem a b = some r ∧ mul q b + r = a ∧
      (¬ (a.toInt32.toInt = -2 ^ 31 ∧ b.toInt32.toInt = -1) → DividesSigned a b q r) ∧
      (a.toInt32.toInt = -2 ^ 31 → b.toInt32.toInt = -1 →
        q.toInt32.toInt = -2 ^ 31 ∧ r.toInt32.toInt = 0)) := by
  refine ⟨?_, ?_, ?_, ?_⟩
  · simp [div, rem, udiv, urem]
  · intro β τ _ _ c i address m
    exact Action.answer_perform_compute_eq_error_iff
  · intro hb
    have hdivides := dividesUnsigned (a := a) hb
    exact ⟨a / b, a % b, if_neg hb, if_neg hb, UInt32.toNat_div a b, UInt32.toNat_mod a b, hdivides,
      hdivides.mul_add⟩
  · intro hb
    refine ⟨_, _, div_eq_some hb, rem_eq_some hb, mul_tdiv_add_tmod a b, dividesSigned hb, ?_⟩
    intro ha hone
    rw [ha, hone]
    decide

/-- Minus seven by two, and the quotient that does not fit. -/
theorem minusSeven_division :
    ((2 : UInt32) ≠ 0 ∧ ∃ q r, div 0xFFFFFFF9 2 = some q ∧ rem 0xFFFFFFF9 2 = some r ∧
      mul q 2 + r = 0xFFFFFFF9 ∧ DividesSigned 0xFFFFFFF9 2 q r) ∧
    ((0xFFFFFFFF : UInt32) ≠ 0 ∧ ∃ q r, div 0x80000000 0xFFFFFFFF = some q ∧
      rem 0x80000000 0xFFFFFFFF = some r ∧ q.toInt32.toInt = -2 ^ 31 ∧ r.toInt32.toInt = 0) := by
  have htwo : (2 : UInt32) ≠ 0 := by decide
  have hone : (0xFFFFFFFF : UInt32) ≠ 0 := by decide
  obtain ⟨-, -, -, hhalved⟩ := division_law 0xFFFFFFF9 2
  obtain ⟨-, -, -, hnegated⟩ := division_law 0x80000000 0xFFFFFFFF
  obtain ⟨q, r, hq, hr, hsum, hexact, -⟩ := hhalved htwo
  obtain ⟨q', r', hq', hr', -, -, hwraps⟩ := hnegated hone
  refine ⟨⟨htwo, q, r, hq, hr, hsum, hexact (by decide)⟩, hone, q', r', hq', hr', ?_⟩
  exact hwraps (by decide) (by decide)

/-! ## The high halves of a product -/

/-- **The unsigned halves are exact.** -/
theorem umulHigh_mul (a b : UInt32) :
    (umulHigh a b).toNat * 2 ^ 32 + (mul a b).toNat = a.toNat * b.toNat := by
  have hlt : a.toNat * b.toNat < 2 ^ 32 * 2 ^ 32 := Nat.mul_lt_mul'' a.toNat_lt b.toNat_lt
  have hshift : ((a.toUInt64 * b.toUInt64) >>> 32).toNat =
      a.toNat * b.toNat % 2 ^ 64 / 2 ^ 32 := by
    rw [UInt64.toNat_shiftRight, UInt64.toNat_mul, UInt32.toNat_toUInt64, UInt32.toNat_toUInt64]
    exact Nat.shiftRight_eq_div_pow _ 32
  rw [umulHigh, mul, UInt64.toNat_toUInt32, UInt32.toNat_mul, hshift]
  omega

/-- A product of signed words fits in 64 bits with room to spare. -/
theorem natAbs_mul_le (a b : UInt32) : (a.toInt32.toInt * b.toInt32.toInt).natAbs ≤ 2 ^ 62 := by
  have hle (v : UInt32) : v.toInt32.toInt.natAbs ≤ 2 ^ 31 := by
    have hlow := Int32.le_toInt v.toInt32
    have hhigh := Int32.toInt_lt v.toInt32
    omega
  have hmul := Nat.mul_le_mul (hle a) (hle b)
  rw [Int.natAbs_mul]
  omega

/-- The low word of a signed long word is that of its value. -/
theorem toUInt32_eq_ofInt (x : Int64) : x.toUInt64.toUInt32 = UInt32.ofInt x.toInt := by
  have h : x.toInt = if 2 * x.toUInt64.toNat < 2 ^ 64 then (x.toUInt64.toNat : Int)
      else x.toUInt64.toNat - ((2 ^ 64 : Nat) : Int) := BitVec.toInt_eq_toNat_cond x.toBitVec
  apply UInt32.toNat_inj.mp
  rw [UInt64.toNat_toUInt32, toNat_ofInt, h]
  split <;> omega

theorem mulHigh_eq_ofInt (a b : UInt32) :
    mulHigh a b = UInt32.ofInt (a.toInt32.toInt * b.toInt32.toInt / 2 ^ 32) := by
  have hle := natAbs_mul_le a b
  have hproduct : (a.toInt32.toInt64 * b.toInt32.toInt64).toInt =
      a.toInt32.toInt * b.toInt32.toInt := by
    rw [Int64.toInt_mul, Int32.toInt_toInt64, Int32.toInt_toInt64]
    exact Int.bmod_eq_of_le (by omega) (by omega)
  have hshift (x : Int64) : (x >>> 32).toInt = x.toInt / 2 ^ 32 := by
    show (x >>> 32).toBitVec.toInt = _
    rw [Int64.toBitVec_shiftRight]
    show (x.toBitVec.sshiftRight 32).toInt = _
    rw [BitVec.toInt_sshiftRight, Int.shiftRight_eq_div_pow]
    rfl
  rw [mulHigh, toUInt32_eq_ofInt, hshift, hproduct]

/-- The signed high half is the product divided by `2 ^ 32` and rounded down. -/
theorem toInt_mulHigh (a b : UInt32) :
    (mulHigh a b).toInt32.toInt = a.toInt32.toInt * b.toInt32.toInt / 2 ^ 32 := by
  have hle := natAbs_mul_le a b
  rw [mulHigh_eq_ofInt]
  exact toInt32_ofInt (by omega) (by omega)

/-- **The signed halves are exact**, with the same low half. -/
theorem mulHigh_mul (a b : UInt32) :
    (mulHigh a b).toInt32.toInt * 2 ^ 32 + (mul a b).toNat = a.toInt32.toInt * b.toInt32.toInt := by
  rw [toInt_mulHigh, mul_eq_ofInt, toNat_ofInt]
  omega

/-- Put side by side the halves are one number in two's complement. -/
theorem toInt_mulHigh_append_mul (a b : UInt32) :
    ((mulHigh a b).toBitVec ++ (mul a b).toBitVec).toInt = a.toInt32.toInt * b.toInt32.toInt := by
  rw [← mulHigh_mul, BitVec.toInt_append, if_neg (by decide), Int.mul_comm]
  rfl

/-- **The high halves differ by the operands whose partner is negative.** -/
theorem mulHigh_eq_sub (a b : UInt32) :
    mulHigh a b = umulHigh a b - (if a.toInt32.toInt < 0 then b else 0) -
      (if b.toInt32.toInt < 0 then a else 0) := by
  have hunsigned : ((umulHigh a b).toNat : Int) * 2 ^ 32 + (mul a b).toNat = a.toNat * b.toNat := by
    exact_mod_cast umulHigh_mul a b
  have hsigned := mulHigh_mul a b
  have hhigh := toInt_toInt32_cases (mulHigh a b)
  have hlt := (umulHigh a b).toNat_lt
  rw [UInt32.eq_sub_iff_add_eq, UInt32.eq_sub_iff_add_eq]
  apply UInt32.toNat_inj.mp
  rw [UInt32.toNat_add, UInt32.toNat_add]
  -- the low half cancels, and what is left of the products is linear
  rcases toInt_toInt32_cases a with ⟨ha, hvalue⟩ | ⟨ha, hvalue⟩ <;>
    rcases toInt_toInt32_cases b with ⟨hb, hvalue'⟩ | ⟨hb, hvalue'⟩ <;>
    rw [hvalue, hvalue'] at hsigned
  · rw [Int.sub_mul, Int.mul_sub, Int.mul_sub] at hsigned
    rw [if_pos ha, if_pos hb]
    omega
  · rw [Int.sub_mul] at hsigned
    rw [if_pos ha, if_neg (Int.not_lt.mpr hb), UInt32.toNat_zero]
    omega
  · rw [Int.mul_sub] at hsigned
    rw [if_neg (Int.not_lt.mpr ha), if_pos hb, UInt32.toNat_zero]
    omega
  · rw [if_neg (Int.not_lt.mpr ha), if_neg (Int.not_lt.mpr hb), UInt32.toNat_zero]
    omega

/-! ## Shifts -/

section Shifts

variable (a c : UInt32)

theorem toNat_ofNat_two_pow : (UInt32.ofNat (2 ^ (c.toNat % 32))).toNat = 2 ^ (c.toNat % 32) := by
  have hlt : 2 ^ (c.toNat % 32) < 2 ^ 32 :=
    Nat.pow_lt_pow_right (by decide) (Nat.mod_lt _ (by decide))
  exact UInt32.toNat_ofNat_of_lt' hlt

theorem ofNat_two_pow_ne_zero : UInt32.ofNat (2 ^ (c.toNat % 32)) ≠ 0 := by
  intro h
  have hzero := (toNat_ofNat_two_pow c).symm.trans (congrArg UInt32.toNat h)
  exact Nat.ne_of_gt (Nat.two_pow_pos _) hzero

theorem ashl_eq_mul : ashl a c = mul a (UInt32.ofNat (2 ^ (c.toNat % 32))) := by
  apply UInt32.toNat_inj.mp
  rw [ashl, mul, UInt32.toNat_shiftLeft, UInt32.toNat_mul, toNat_ofNat_two_pow, Nat.shiftLeft_eq]

theorem udiv_eq_lshr : udiv a (UInt32.ofNat (2 ^ (c.toNat % 32))) = some (lshr a c) := by
  have hword : a / UInt32.ofNat (2 ^ (c.toNat % 32)) = lshr a c := by
    apply UInt32.toNat_inj.mp
    rw [lshr, UInt32.toNat_div, UInt32.toNat_shiftRight, toNat_ofNat_two_pow,
      Nat.shiftRight_eq_div_pow]
  rw [udiv, if_neg (ofNat_two_pow_ne_zero c), hword]

/-- The count of a shift of signed words is signed too, and taken modulo 32 all the same. -/
theorem toNat_smod_count : (c.toInt32.toBitVec.smod 32).toNat = c.toNat % 32 := by
  have hcount : (c.toInt32.toBitVec.smod 32).toInt = c.toNat % 32 := by
    rw [BitVec.toInt_smod]
    show c.toInt32.toInt.fmod 32 = _
    rw [Int.fmod_eq_emod_of_nonneg _ (by decide)]
    rcases toInt_toInt32_cases c with ⟨-, hc⟩ | ⟨-, hc⟩ <;> omega
  rw [BitVec.toInt_eq_toNat_cond] at hcount
  split at hcount <;> omega

/-- **A shift that fills with the sign rounds down.** -/
theorem toInt_ashr :
    (ashr a c).toInt32.toInt = a.toInt32.toInt.fdiv (2 ^ (c.toNat % 32)) := by
  have hpos : (0 : Int) ≤ 2 ^ (c.toNat % 32) := Int.pow_nonneg (by decide)
  rw [Int.fdiv_eq_ediv_of_nonneg _ hpos]
  show (a.toInt32 >>> c.toInt32).toBitVec.toInt = _
  rw [Int32.toBitVec_shiftRight, BitVec.sshiftRight', toNat_smod_count, BitVec.toInt_sshiftRight,
    Int.shiftRight_eq_div_pow, Int.natCast_pow]
  rfl

variable {a c}

/-- `2 ^ 31` is negative as a signed word; the smaller powers are what they are. -/
theorem toInt_ofNat_two_pow (h : c.toNat % 32 < 31) :
    (UInt32.ofNat (2 ^ (c.toNat % 32))).toInt32.toInt = 2 ^ (c.toNat % 32) := by
  have hlt : 2 ^ (c.toNat % 32) < 2 ^ 31 := Nat.pow_lt_pow_right (by decide) h
  rw [toInt_toInt32, toNat_ofNat_two_pow, if_pos hlt, Int.natCast_pow]
  rfl

/-- **Truncation rounds down only what is not negative or a multiple.** -/
theorem div_eq_ashr_iff (h : c.toNat % 32 < 31) :
    div a (UInt32.ofNat (2 ^ (c.toNat % 32))) = some (ashr a c) ↔
      0 ≤ a.toInt32.toInt ∨ (2 : Int) ^ (c.toNat % 32) ∣ a.toInt32.toInt := by
  rw [div_eq_some (ofNat_two_pow_ne_zero c), toInt_ofNat_two_pow h, Option.some.injEq]
  have hpos : (0 : Int) < 2 ^ (c.toNat % 32) := Int.pow_pos (by decide)
  have hfloor := toInt_ashr a c
  rw [Int.fdiv_eq_ediv_of_nonneg _ (Int.le_of_lt hpos)] at hfloor
  have htrunc := Int.tdiv_eq_ediv (a := a.toInt32.toInt) (b := 2 ^ (c.toNat % 32))
  rw [Int.sign_eq_one_of_pos hpos, ← hfloor] at htrunc
  constructor
  · intro heq
    obtain ⟨hlow, hhigh⟩ := tdiv_fits (Int32.le_toInt a.toInt32) (Int32.toInt_lt a.toInt32)
      (Int.ne_of_gt hpos) (by omega)
    have hquotient := toInt32_ofInt hlow hhigh
    rw [heq] at hquotient
    -- otherwise the truncated quotient is one more
    refine Decidable.byContradiction fun hnot => ?_
    rw [if_neg hnot] at htrunc
    omega
  · intro hround
    rw [htrunc, if_pos hround, Int.add_zero, ofInt_toInt32]

end Shifts

/-- **Wide products and shifts.**  The high half of an unsigned product and the low half are the
exact product, and so are the high half of a signed one and the same low half, side by side in two's
complement; so the high halves differ by the operands whose partner is negative.  A shift by any
count multiplies or divides by the power of two that the count modulo 32 gives: to the left modulo
`2 ^ 32`, to the right as unsigned numbers, or, where the sign fills in, as signed numbers and
rounded down.  That is not the truncated quotient of a negative number, unless it is a multiple of
the power. -/
theorem products_and_shifts (a b c : UInt32) :
    (umulHigh a b).toNat * 2 ^ 32 + (mul a b).toNat = a.toNat * b.toNat ∧
    ((mulHigh a b).toBitVec ++ (mul a b).toBitVec).toInt = a.toInt32.toInt * b.toInt32.toInt ∧
    mul a b = (a.toInt32 * b.toInt32).toUInt32 ∧
    mulHigh a b = umulHigh a b - (if a.toInt32.toInt < 0 then b else 0) -
      (if b.toInt32.toInt < 0 then a else 0) ∧
    let k := c.toNat % 32
    ashl a c = mul a (UInt32.ofNat (2 ^ k)) ∧
      udiv a (UInt32.ofNat (2 ^ k)) = some (lshr a c) ∧
      (ashr a c).toInt32.toInt = a.toInt32.toInt.fdiv (2 ^ k) ∧
      (k < 31 → (div a (UInt32.ofNat (2 ^ k)) = some (ashr a c) ↔
        0 ≤ a.toInt32.toInt ∨ (2 : Int) ^ k ∣ a.toInt32.toInt)) := by
  refine ⟨umulHigh_mul a b, toInt_mulHigh_append_mul a b, mul_eq_signed a b, mulHigh_eq_sub a b, ?_⟩
  intro k
  exact ⟨ashl_eq_mul a c, udiv_eq_lshr a c, toInt_ashr a c, div_eq_ashr_iff⟩

/-- Minus seven shifted by one is not minus seven divided by two. -/
theorem minusSeven_shift :
    (33 : UInt32).toNat % 32 < 31 ∧ (ashr 0xFFFFFFF9 33).toInt32.toInt = Int.fdiv (-7) 2 ∧
      div 0xFFFFFFF9 (UInt32.ofNat (2 ^ 1)) ≠ some (ashr 0xFFFFFFF9 33) := by
  have hcount : (33 : UInt32).toNat % 32 < 31 := by decide
  obtain ⟨-, -, -, -, -, -, hfloor, htrunc⟩ := products_and_shifts 0xFFFFFFF9 0x80000000 33
  refine ⟨hcount, hfloor, ?_⟩
  intro heq
  rcases (htrunc hcount).mp heq with hsign | hdvd
  · exact absurd hsign (by decide)
  · exact absurd hdvd (by decide)

end Arithmetic

end Moxie
