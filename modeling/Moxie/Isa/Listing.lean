/-
# Moxie.Isa.Listing — the assembler's text of one instruction word.

A listing line shows the mnemonic and the operands that the word itself carries.  An inline operand
that follows the word is not known from the word, so `<imm>` stands in its place.  Fields that the
instruction does not use are left out, and an unassigned word is listed as data.
-/
import Moxie.Isa.Instruction
import Moxie.Text.Hex

namespace Moxie

namespace Instruction

/-- A displacement in decimal, its sign always written, also before zero. -/
def signedText (v : Int) : String :=
  if v < 0 then "-" ++ toString v.natAbs else "+" ++ toString v.natAbs

/-- The operands of an opcode, as they follow its mnemonic. -/
def operandText (op : Opcode) (a b : String) (value : Int) : String :=
  match op with
  | .nop | .ret | .brk => ""
  | .jsra | .jmpa | .swi => " <imm>"
  | .jsr | .jmp => " " ++ a
  | .loadImmediate _ => " " ++ a ++ ", <imm>"
  | .load .absolute _ => " " ++ a ++ ", <imm>"
  | .load .indirect _ => " " ++ a ++ ", (" ++ b ++ ")"
  | .load .offset _ => " " ++ a ++ ", <imm>(" ++ b ++ ")"
  | .store .absolute _ => " <imm>, " ++ a
  | .store .indirect _ => " (" ++ a ++ "), " ++ b
  | .store .offset _ => " <imm>(" ++ a ++ "), " ++ b
  | .inc | .dec | .gsr | .ssr => " " ++ a ++ ", " ++ toString value
  | .branch _ => " " ++ signedText value
  | .compute _ | .cmp | .push | .pop => " " ++ a ++ ", " ++ b

/-- **`text i`** — the listing line of an instruction word. -/
def text (i : Instruction) : String :=
  match i.opcode with
  | none => ".word " ++ Hex.fixed 4 i.word.toNat
  | some op => op.mnemonic ++ operandText op i.a.name i.b.name i.value

end Instruction

end Moxie
