/-
# Moxie.Isa.Assembly — instruction words put together.

One assembler per word format, each the inverse of `Instruction.decode` on its own opcodes: an
opcode of another format is refused, and so is a displacement that ten signed bits cannot hold.
A 32-bit inline operand is two words, low half first, which is the order that makes it a
little-endian long in memory.
-/
import Moxie.Isa.Instruction

namespace Moxie

/-- An opcode was assembled in a format that is not its own. -/
structure FormatMismatch where
  /-- The opcode. -/
  opcode : Opcode
  /-- The format asked for. -/
  expected : Format
  deriving DecidableEq

/-- The wording of a format mismatch. -/
def FormatMismatch.message (e : FormatMismatch) : String :=
  e.opcode.name ++ " is not " ++ e.expected.name ++ " format"

namespace Opcode

/-- Succeeds exactly for the opcodes of `expected`. -/
def requireFormat (op : Opcode) (expected : Format) : Except FormatMismatch Unit :=
  if op.format = expected then .ok () else .error ⟨op, expected⟩

/-- **`registerWord op a b`** — the word of `op` on two registers. -/
def registerWord (op : Opcode) (a b : Register) : Except FormatMismatch UInt16 := do
  op.requireFormat .register
  return op.bits ||| UInt16.ofNat a.val <<< 4 ||| UInt16.ofNat b.val

/-- **`immediateWord op a v`** — the word of `op` on a register and a byte. -/
def immediateWord (op : Opcode) (a : Register) (v : UInt8) : Except FormatMismatch UInt16 := do
  op.requireFormat .shortImmediate
  return op.bits ||| UInt16.ofNat a.val <<< 8 ||| v.toUInt16

/-- **`branchWord op d`** — the word of the branch `op` by `d` words from the word after it; there
is none unless `-512 ≤ d ≤ 511`. -/
def branchWord (op : Opcode) (d : Int) : Except FormatMismatch (Option UInt16) := do
  op.requireFormat .branch
  return if -512 ≤ d ∧ d ≤ 511 then some (op.bits ||| (UInt16.ofInt d &&& 0x3FF)) else none

end Opcode

/-- The two words that carry a 32-bit inline operand, low half first. -/
def operandWords (v : UInt32) : UInt16 × UInt16 :=
  (v.toUInt16, (v >>> 16).toUInt16)

end Moxie
