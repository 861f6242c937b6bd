/-
# Moxie.Machine.Arithmetic — 32-bit computation.

Registers hold 32-bit words.  Addition, subtraction and the low half of a product wrap around and
are the same for signed and unsigned operands; the rest says which reading it takes.  Shift counts
are taken modulo 32.  Division truncates toward zero, the remainder has the sign of the dividend,
and the one quotient that does not fit (`-2 ^ 31` by `-1`) wraps around to `-2 ^ 31`.

Division by zero is the only computation without a result; it is `none` here, and the machine makes
a fault of it.
-/
import Moxie.Isa.Opcode

namespace Moxie.Arithmetic

/-! ## Shifts -/

/-- Shift left by `count` modulo 32. -/
def ashl (a count : UInt32) : UInt32 :=
  a <<< count

/-- Shift right by `count` modulo 32, filling with the sign. -/
def ashr (a count : UInt32) : UInt32 :=
  (a.toInt32 >>> count.toInt32).toUInt32

/-- Shift right by `count` modulo 32, filling with zeros. -/
def lshr (a count : UInt32) : UInt32 :=
  a >>> count

/-! ## Products -/

/-- The low half of the product. -/
def mul (a b : UInt32) : UInt32 :=
  a * b

/-- The high half of the product of two signed words. -/
def mulHigh (a b : UInt32) : UInt32 :=
  ((a.toInt32.toInt64 * b.toInt32.toInt64) >>> 32).toUInt64.toUInt32

/-- The high half of the product of two unsigned words. -/
def umulHigh (a b : UInt32) : UInt32 :=
  ((a.toUInt64 * b.toUInt64) >>> 32).toUInt32

/-! ## Quotients and remainders -/

/-- The signed quotient. -/
def div (a b : UInt32) : Option UInt32 :=
  if b = 0 then none else some (a.toInt32 / b.toInt32).toUInt32

/-- The signed remainder. -/
def rem (a b : UInt32) : Option UInt32 :=
  if b = 0 then none else some (a.toInt32 % b.toInt32).toUInt32

/-- The unsigned quotient. -/
def udiv (a b : UInt32) : Option UInt32 :=
  if b = 0 then none else some (a / b)

/-- The unsigned remainder. -/
def urem (a b : UInt32) : Option UInt32 :=
  if b = 0 then none else some (a % b)

/-! ## Extensions -/

/-- The low byte, read as signed. -/
def signExtendByte (a : UInt32) : UInt32 :=
  a.toUInt8.toInt8.toInt32.toUInt32

/-- The low sixteen bits, read as signed. -/
def signExtendShort (a : UInt32) : UInt32 :=
  a.toUInt16.toInt16.toInt32.toUInt32

end Moxie.Arithmetic

namespace Moxie.Computation

/-- **`c.eval a b`** — what register A becomes when `c` finds `a` in A and `b` in B; `none` for
division by zero. -/
def eval (c : Computation) (a b : UInt32) : Option UInt32 :=
  match c with
  | .mov => some b
  | .add => some (a + b)
  | .sub => some (a - b)
  | .neg => some (-b)
  | .mul => some (Arithmetic.mul a b)
  | .mulX => some (Arithmetic.mulHigh a b)
  | .umulX => some (Arithmetic.umulHigh a b)
  | .div => Arithmetic.div a b
  | .mod => Arithmetic.rem a b
  | .udiv => Arithmetic.udiv a b
  | .umod => Arithmetic.urem a b
  | .and => some (a &&& b)
  | .or => some (a ||| b)
  | .xor => some (a ^^^ b)
  | .not => some (~~~b)
  | .ashl => some (Arithmetic.ashl a b)
  | .ashr => some (Arithmetic.ashr a b)
  | .lshr => some (Arithmetic.lshr a b)
  | .sexB => some (Arithmetic.signExtendByte b)
  | .sexS => some (Arithmetic.signExtendShort b)
  | .zexB => some (Width.byte.truncate b)
  | .zexS => some (Width.short.truncate b)

/-- A computation has no result exactly when it divides by zero. -/
theorem eval_eq_none_iff {c : Computation} {a b : UInt32} :
    c.eval a b = none ↔ b = 0 ∧ (c = .div ∨ c = .mod ∨ c = .udiv ∨ c = .umod) := by
  cases c <;>
    simp [eval, Arithmetic.div, Arithmetic.rem, Arithmetic.udiv, Arithmetic.urem]

end Moxie.Computation
