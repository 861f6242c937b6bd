/-
# Moxie.Machine.Fault — why an instruction does not complete.

A fault ends the run it occurs in.  The registers and the memory stay as the last completed write
left them, so what happened before the fault can be seen.
-/
import Moxie.Paging.Access

namespace Moxie

/-- Why an instruction does not complete. -/
inductive Fault where
  /-- The word at `address` has unassigned opcode bits. -/
  | illegalOpcode (word : UInt16) (address : UInt32)
  /-- A division by zero. -/
  | divisionByZero
  /-- A jump or call to an odd address. -/
  | unalignedJump (target : UInt32)
  /-- There is no special register of this number. -/
  | noSpecialRegister (index : UInt32)
  /-- A software interrupt, which nothing handles. -/
  | softwareInterrupt (number : UInt32)
  /-- A failed fetch, load or store. -/
  | access (cause : AccessError)
  deriving DecidableEq

/-- The wording of a fault. -/
def Fault.message : Fault → String
  | .illegalOpcode word address =>
    "illegal opcode in word " ++ Hex.fixed 4 word.toNat ++ " at " ++ Hex.fixed 8 address.toNat
  | .divisionByZero => "division by zero"
  | .unalignedJump target => "jump to unaligned address " ++ Hex.fixed 8 target.toNat
  | .noSpecialRegister index => "special register " ++ toString index.toNat ++ " does not exist"
  | .softwareInterrupt number => "unhandled software interrupt " ++ Hex.shortest number.toNat
  | .access cause => cause.message

end Moxie
