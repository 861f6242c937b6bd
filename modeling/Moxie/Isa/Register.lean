/-
# Moxie.Isa.Register — the sixteen general-purpose registers and their names.

A register *is* its number in an operand field.  Number 0 is the frame pointer, number 1 the stack
pointer, and numbers 2 to 15 are the scratch registers `$r0` to `$r13`.
-/
namespace Moxie

/-- A general-purpose register, given by its number. -/
abbrev Register := Fin 16

namespace Register

/-- The frame pointer. -/
def fp : Register := 0

/-- The stack pointer. -/
def sp : Register := 1

/-- **`ofIndex? i`** — the register numbered `i`; there is none from 16 on. -/
def ofIndex? (i : Nat) : Option Register :=
  if h : i < 16 then some ⟨i, h⟩ else none

/-- **`ofField i`** — the register an operand field holding `i` selects: only the low four bits of
a field count. -/
def ofField (i : Nat) : Register :=
  Fin.ofNat 16 i

/-- The assembler's names, in register order. -/
def names : Vector String 16 :=
  #v["$fp", "$sp", "$r0", "$r1", "$r2", "$r3", "$r4", "$r5", "$r6", "$r7", "$r8", "$r9", "$r10",
    "$r11", "$r12", "$r13"]

/-- The assembler's name of a register. -/
def name (r : Register) : String :=
  names.get r

/-- No two registers share a name, so a listing identifies its registers. -/
theorem name_injective : ∀ r s : Register, name r = name s → r = s := by
  decide

theorem ofIndex?_eq_some_iff {i : Nat} {r : Register} : ofIndex? i = some r ↔ i = r.val := by
  unfold ofIndex?
  split
  · simp [Fin.ext_iff, eq_comm]
  · simp only [reduceCtorEq, false_iff]
    omega

end Register

end Moxie
