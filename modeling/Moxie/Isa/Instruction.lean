/-
# Moxie.Isa.Instruction — instruction words taken apart.

`decode` is total: every 16-bit word has a format and fields, and `opcode` is `none` where the
opcode bits are unassigned.  The fields a format lacks read as zero.  Inline operands are not part
of the word; they follow it in memory, and `Opcode.immediateWords` says how long they are.
-/
import Moxie.Isa.Opcode
import Moxie.Isa.Register

namespace Moxie

/-- An instruction word and its fields. -/
structure Instruction where
  /-- The word itself. -/
  word : UInt16
  /-- The operation, if the opcode bits are assigned. -/
  opcode : Option Opcode
  /-- Register field A. -/
  a : Register
  /-- Register field B. -/
  b : Register
  /-- The short immediate (0 to 255) or the branch displacement (-512 to 511). -/
  value : Int
  deriving DecidableEq

namespace Instruction

/-- Register field A: bits 7 to 4, in the short-immediate format bits 11 to 8. -/
def fieldA (w : UInt16) : Register :=
  match Format.ofWord w with
  | .register => Register.ofField (w >>> 4).toNat
  | .shortImmediate => Register.ofField (w >>> 8).toNat
  | .branch => Register.ofField 0

/-- Register field B: bits 3 to 0 of the register format. -/
def fieldB (w : UInt16) : Register :=
  match Format.ofWord w with
  | .register => Register.ofField w.toNat
  | _ => Register.ofField 0

/-- The value in the word: the low byte of the short-immediate format, the low ten bits of the
branch format read as signed. -/
def fieldValue (w : UInt16) : Int :=
  match Format.ofWord w with
  | .register => 0
  | .shortImmediate => (w &&& 0xFF).toNat
  | .branch => Int.bmod w.toNat 1024

/-- **`decode w`** — the word `w` with its opcode and fields. -/
def decode (w : UInt16) : Instruction where
  word := w
  opcode := Opcode.ofWord? w
  a := fieldA w
  b := fieldB w
  value := fieldValue w

/-- The format of the word. -/
def format (i : Instruction) : Format :=
  Format.ofWord i.word

@[simp]
theorem word_decode (w : UInt16) : (decode w).word = w := rfl

@[simp]
theorem opcode_decode (w : UInt16) : (decode w).opcode = Opcode.ofWord? w := rfl

end Instruction

end Moxie
