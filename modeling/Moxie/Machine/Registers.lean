/-
# Moxie.Machine.Registers — the register state of the processor.

Sixteen general-purpose registers, ten special registers, the instruction pointer, the result of the
last comparison and whether the machine has stopped.

The instruction pointer counts 16-bit words.  Its byte address is twice that, modulo `2 ^ 32`, so
the top bit of the word count has no bearing on any address.
-/
import Moxie.Isa.Opcode
import Moxie.Isa.Register

namespace Moxie

/-! ## Comparisons -/

/-- How the operands of the last `cmp` stood to each other, in both readings. -/
structure Comparison where
  signed : Ordering
  unsigned : Ordering
  deriving DecidableEq

namespace Comparison

/-- The comparison of `a` with `b`. -/
def of (a b : UInt32) : Comparison :=
  ⟨compare a.toInt32.toInt b.toInt32.toInt, compare a.toNat b.toNat⟩

/-- Before any `cmp` the operands count as equal. -/
def equal : Comparison := ⟨.eq, .eq⟩

/-- **`c.satisfies r`** — the compared operands stand in the relation `r`. -/
def satisfies (c : Comparison) (r : Relation) : Bool :=
  match r with
  | .eq => c.signed.isEq
  | .ne => c.signed.isNe
  | .lt => c.signed.isLT
  | .gt => c.signed.isGT
  | .le => c.signed.isLE
  | .ge => c.signed.isGE
  | .ltu => c.unsigned.isLT
  | .gtu => c.unsigned.isGT
  | .leu => c.unsigned.isLE
  | .geu => c.unsigned.isGE

end Comparison

/-! ## Special registers -/

/-- The number of a special register. -/
abbrev SpecialIndex := Fin 10

/-- The special registers with a use of their own; the others only hold values. -/
inductive SpecialRegister where
  | status
  | exceptionHandler
  /-- The cause of the last exception. -/
  | exceptionTrigger
  /-- The operand of the last software interrupt. -/
  | swiRequestNumber
  | supervisorModeStack
  | exceptionReturnAddress
  | deviceTreePointer
  deriving DecidableEq

/-- The number by which `gsr` and `ssr` address a special register. -/
def SpecialRegister.index : SpecialRegister → SpecialIndex
  | .status => 0
  | .exceptionHandler => 1
  | .exceptionTrigger => 2
  | .swiRequestNumber => 3
  | .supervisorModeStack => 4
  | .exceptionReturnAddress => 5
  | .deviceTreePointer => 9

/-- The causes that the exception trigger register can name. -/
inductive ExceptionCause where
  | divisionByZero
  | badInstruction
  | interrupt
  | softwareInterrupt
  | mmuMiss
  | breakpoint
  deriving DecidableEq

/-- The code of a cause. -/
def ExceptionCause.code : ExceptionCause → UInt32
  | .divisionByZero => 0
  | .badInstruction => 1
  | .interrupt => 2
  | .softwareInterrupt => 3
  | .mmuMiss => 4
  | .breakpoint => 16

/-! ## The register state -/

/-- The registers and flags of the processor. -/
structure Registers where
  /-- The general-purpose registers. -/
  general : Vector UInt32 16
  /-- The special registers. -/
  special : Vector UInt32 10
  /-- The instruction pointer, in 16-bit words. -/
  ip : UInt32
  /-- The result of the last comparison. -/
  comparison : Comparison
  /-- The machine has stopped. -/
  halted : Bool
  deriving DecidableEq

namespace Registers

/-- The state of a new machine: all zero, running, nothing compared. -/
def initial : Registers where
  general := Vector.replicate 16 0
  special := Vector.replicate 10 0
  ip := 0
  comparison := .equal
  halted := false

/-- The value of a general-purpose register. -/
def get (s : Registers) (r : Register) : UInt32 :=
  s.general[r]

/-- Set a general-purpose register. -/
def set (s : Registers) (r : Register) (v : UInt32) : Registers :=
  { s with general := s.general.set r v }

/-- The value of a special register. -/
def getSpecial (s : Registers) (i : SpecialIndex) : UInt32 :=
  s.special[i]

/-- Set a special register. -/
def setSpecial (s : Registers) (i : SpecialIndex) (v : UInt32) : Registers :=
  { s with special := s.special.set i v }

/-- Advance the instruction pointer by some words. -/
def advance (s : Registers) (words : UInt32) : Registers :=
  { s with ip := s.ip + words }

/-- The stack pointer. -/
def sp (s : Registers) : UInt32 :=
  s.get .sp

/-- The frame pointer. -/
def fp (s : Registers) : UInt32 :=
  s.get .fp

/-- The byte address of the next instruction word. -/
def ipAddress (s : Registers) : UInt32 :=
  s.ip * 2

theorem get_set (s : Registers) (r q : Register) (v : UInt32) :
    (s.set r v).get q = if q = r then v else s.get q := by
  simp only [get, set, Fin.getElem_fin, Vector.getElem_set, Fin.ext_iff, eq_comm (a := q.val)]

theorem getSpecial_setSpecial (s : Registers) (i j : SpecialIndex) (v : UInt32) :
    (s.setSpecial i v).getSpecial j = if j = i then v else s.getSpecial j := by
  simp only [getSpecial, setSpecial, Fin.getElem_fin, Vector.getElem_set, Fin.ext_iff,
    eq_comm (a := j.val)]

end Registers

end Moxie
