/-
# Moxie.Isa.Opcode — the instruction set: 68 opcodes in three word formats.

The opcodes fall into families that differ in one parameter only: a computation on two registers, a
conditional branch on a relation, a load or store in one of three addressing modes and three widths.
The family's parameter is an argument of the constructor, so whatever consumes an opcode treats each
family once.

- `Format` — how an instruction word is cut into fields; the top two bits decide it.
- `Opcode.bits` — the assigned bit pattern, with every operand bit clear.
- `Opcode.ofWord?` — the opcode of a word, if its pattern is assigned.

`ofWord?_eq_some_iff` is the law between the last two: a word has opcode `op` exactly when its
opcode bits, under the mask of the word's own format, are those of `op`.
-/
import Moxie.Word.Width

namespace Moxie

/-! ## Word formats -/

/-- How the bits of an instruction word are divided. -/
inductive Format where
  /-- Eight opcode bits, then two four-bit register fields. -/
  | register
  /-- Four opcode bits, a four-bit register field, an eight-bit immediate. -/
  | shortImmediate
  /-- Six opcode bits, then a signed ten-bit displacement. -/
  | branch
  deriving DecidableEq

namespace Format

/-- The top two bits of a word decide its format. -/
def ofWord (w : UInt16) : Format :=
  match w >>> 14 with
  | 3 => .branch
  | 2 => .shortImmediate
  | _ => .register

/-- The bits of a word that hold the opcode. -/
def mask : Format → UInt16
  | .register => 0xFF00
  | .shortImmediate => 0xF000
  | .branch => 0xFC00

/-- The format's name in messages. -/
def name : Format → String
  | .register => "register"
  | .shortImmediate => "short-immediate"
  | .branch => "branch"

end Format

/-! ## The parameters of the opcode families -/

/-- What a conditional branch asks of the last comparison; the `u` forms read it as unsigned. -/
inductive Relation where
  | eq
  | ne
  | lt
  | gt
  | ltu
  | gtu
  | ge
  | le
  | geu
  | leu
  deriving DecidableEq

/-- Where a load or store finds its address. -/
inductive Mode where
  /-- In a register. -/
  | indirect
  /-- In a 32-bit operand after the instruction word. -/
  | absolute
  /-- In a register, displaced by a signed 16-bit operand after the instruction word. -/
  | offset
  deriving DecidableEq

/-- The computations that set register A from registers A and B and touch nothing else. -/
inductive Computation where
  | mov
  | add
  | sexB
  | sexS
  | zexB
  | zexS
  | umulX
  | mulX
  | and
  | lshr
  | ashl
  | sub
  | neg
  | or
  | not
  | ashr
  | xor
  | mul
  | div
  | udiv
  | mod
  | umod
  deriving DecidableEq

/-- An operation of the machine. -/
inductive Opcode where
  /-- Do nothing. -/
  | nop
  /-- Stop the machine. -/
  | brk
  /-- Software interrupt. -/
  | swi
  /-- Set register A from A and B. -/
  | compute (c : Computation)
  /-- Add a byte to a register. -/
  | inc
  /-- Subtract a byte from a register. -/
  | dec
  /-- Compare two registers. -/
  | cmp
  /-- Branch if the last comparison stands in a relation. -/
  | branch (r : Relation)
  /-- Jump to the address in a register. -/
  | jmp
  /-- Jump to the address in the operand. -/
  | jmpa
  /-- Call the address in a register. -/
  | jsr
  /-- Call the address in the operand. -/
  | jsra
  /-- Return from a call. -/
  | ret
  /-- Push B on the stack whose pointer is A. -/
  | push
  /-- Pop into B from the stack whose pointer is A. -/
  | pop
  /-- Set a register to the operand. -/
  | loadImmediate (w : Width)
  /-- Set a register from memory. -/
  | load (m : Mode) (w : Width)
  /-- Set memory from a register. -/
  | store (m : Mode) (w : Width)
  /-- Read a special register. -/
  | gsr
  /-- Write a special register. -/
  | ssr
  deriving DecidableEq

namespace Opcode

/-! ## The opcode table -/

/-- Every opcode once, in ascending order of its bits. -/
def all : List Opcode :=
  [.loadImmediate .long, .compute .mov, .jsra, .ret, .compute .add, .push, .pop,
    .load .absolute .long, .store .absolute .long, .load .indirect .long, .store .indirect .long,
    .load .offset .long, .store .offset .long, .cmp, .nop, .compute .sexB, .compute .sexS,
    .compute .zexB, .compute .zexS, .compute .umulX, .compute .mulX, .jsr, .jmpa,
    .loadImmediate .byte, .load .indirect .byte, .load .absolute .byte, .store .indirect .byte,
    .store .absolute .byte, .loadImmediate .short, .load .indirect .short, .load .absolute .short,
    .store .indirect .short, .store .absolute .short, .jmp, .compute .and, .compute .lshr,
    .compute .ashl, .compute .sub, .compute .neg, .compute .or, .compute .not, .compute .ashr,
    .compute .xor, .compute .mul, .swi, .compute .div, .compute .udiv, .compute .mod,
    .compute .umod, .brk, .load .offset .byte, .store .offset .byte, .load .offset .short,
    .store .offset .short, .inc, .dec, .gsr, .ssr, .branch .eq, .branch .ne, .branch .lt,
    .branch .gt, .branch .ltu, .branch .gtu, .branch .ge, .branch .le, .branch .geu, .branch .leu]

/-- The word format an opcode is assigned in. -/
def format : Opcode → Format
  | .inc | .dec | .gsr | .ssr => .shortImmediate
  | .branch _ => .branch
  | _ => .register

/-- The assigned pattern of a computation. -/
def computationBits : Computation → UInt16
  | .mov => 0x0200
  | .add => 0x0500
  | .sexB => 0x1000
  | .sexS => 0x1100
  | .zexB => 0x1200
  | .zexS => 0x1300
  | .umulX => 0x1400
  | .mulX => 0x1500
  | .and => 0x2600
  | .lshr => 0x2700
  | .ashl => 0x2800
  | .sub => 0x2900
  | .neg => 0x2A00
  | .or => 0x2B00
  | .not => 0x2C00
  | .ashr => 0x2D00
  | .xor => 0x2E00
  | .mul => 0x2F00
  | .div => 0x3100
  | .udiv => 0x3200
  | .mod => 0x3300
  | .umod => 0x3400

/-- The assigned pattern of a branch. -/
def branchBits : Relation → UInt16
  | .eq => 0xC000
  | .ne => 0xC400
  | .lt => 0xC800
  | .gt => 0xCC00
  | .ltu => 0xD000
  | .gtu => 0xD400
  | .ge => 0xD800
  | .le => 0xDC00
  | .geu => 0xE000
  | .leu => 0xE400

/-- The assigned pattern of a load. -/
def loadBits : Mode → Width → UInt16
  | .indirect, .byte => 0x1C00
  | .indirect, .short => 0x2100
  | .indirect, .long => 0x0A00
  | .absolute, .byte => 0x1D00
  | .absolute, .short => 0x2200
  | .absolute, .long => 0x0800
  | .offset, .byte => 0x3600
  | .offset, .short => 0x3800
  | .offset, .long => 0x0C00

/-- The assigned pattern of a store. -/
def storeBits : Mode → Width → UInt16
  | .indirect, .byte => 0x1E00
  | .indirect, .short => 0x2300
  | .indirect, .long => 0x0B00
  | .absolute, .byte => 0x1F00
  | .absolute, .short => 0x2400
  | .absolute, .long => 0x0900
  | .offset, .byte => 0x3700
  | .offset, .short => 0x3900
  | .offset, .long => 0x0D00

/-- **`bits op`** — the assigned pattern of `op`, all operand bits clear. -/
def bits : Opcode → UInt16
  | .nop => 0x0F00
  | .brk => 0x3500
  | .swi => 0x3000
  | .compute c => computationBits c
  | .inc => 0x8000
  | .dec => 0x9000
  | .cmp => 0x0E00
  | .branch r => branchBits r
  | .jmp => 0x2500
  | .jmpa => 0x1A00
  | .jsr => 0x1900
  | .jsra => 0x0300
  | .ret => 0x0400
  | .push => 0x0600
  | .pop => 0x0700
  | .loadImmediate .byte => 0x1B00
  | .loadImmediate .short => 0x2000
  | .loadImmediate .long => 0x0100
  | .load m w => loadBits m w
  | .store m w => storeBits m w
  | .gsr => 0xA000
  | .ssr => 0xB000

/-- **`immediateWords op`** — how many 16-bit words of inline operand follow the instruction word:
two for a 32-bit immediate or address, one for a displacement, otherwise none. -/
def immediateWords : Opcode → Nat
  | .loadImmediate _ | .jsra | .jmpa | .swi => 2
  | .load .absolute _ | .store .absolute _ => 2
  | .load .offset _ | .store .offset _ => 1
  | _ => 0

/-! ## Names -/

/-- The assembler's name of a computation. -/
def computationMnemonic : Computation → String
  | .mov => "mov"
  | .add => "add"
  | .sexB => "sex.b"
  | .sexS => "sex.s"
  | .zexB => "zex.b"
  | .zexS => "zex.s"
  | .umulX => "umul.x"
  | .mulX => "mul.x"
  | .and => "and"
  | .lshr => "lshr"
  | .ashl => "ashl"
  | .sub => "sub"
  | .neg => "neg"
  | .or => "or"
  | .not => "not"
  | .ashr => "ashr"
  | .xor => "xor"
  | .mul => "mul"
  | .div => "div"
  | .udiv => "udiv"
  | .mod => "mod"
  | .umod => "umod"

/-- The assembler's name of a branch. -/
def branchMnemonic : Relation → String
  | .eq => "beq"
  | .ne => "bne"
  | .lt => "blt"
  | .gt => "bgt"
  | .ltu => "bltu"
  | .gtu => "bgtu"
  | .ge => "bge"
  | .le => "ble"
  | .geu => "bgeu"
  | .leu => "bleu"

/-- The assembler's name of a load. -/
def loadMnemonic : Mode → Width → String
  | .indirect, .byte => "ld.b"
  | .indirect, .short => "ld.s"
  | .indirect, .long => "ld.l"
  | .absolute, .byte => "lda.b"
  | .absolute, .short => "lda.s"
  | .absolute, .long => "lda.l"
  | .offset, .byte => "ldo.b"
  | .offset, .short => "ldo.s"
  | .offset, .long => "ldo.l"

/-- The assembler's name of a store. -/
def storeMnemonic : Mode → Width → String
  | .indirect, .byte => "st.b"
  | .indirect, .short => "st.s"
  | .indirect, .long => "st.l"
  | .absolute, .byte => "sta.b"
  | .absolute, .short => "sta.s"
  | .absolute, .long => "sta.l"
  | .offset, .byte => "sto.b"
  | .offset, .short => "sto.s"
  | .offset, .long => "sto.l"

/-- **`mnemonic op`** — the assembler's name of `op`; the part after the dot is the width. -/
def mnemonic : Opcode → String
  | .nop => "nop"
  | .brk => "brk"
  | .swi => "swi"
  | .compute c => computationMnemonic c
  | .inc => "inc"
  | .dec => "dec"
  | .cmp => "cmp"
  | .branch r => branchMnemonic r
  | .jmp => "jmp"
  | .jmpa => "jmpa"
  | .jsr => "jsr"
  | .jsra => "jsra"
  | .ret => "ret"
  | .push => "push"
  | .pop => "pop"
  | .loadImmediate .byte => "ldi.b"
  | .loadImmediate .short => "ldi.s"
  | .loadImmediate .long => "ldi.l"
  | .load m w => loadMnemonic m w
  | .store m w => storeMnemonic m w
  | .gsr => "gsr"
  | .ssr => "ssr"

/-- The characters of a mnemonic in camel case: a capital opens the name and follows each dot,
which is dropped. -/
def camelCase : List Char → List Char
  | [] => []
  | '.' :: cs => camelCase cs
  | c :: cs => c.toUpper :: tail cs
where
  /-- The rest of a part, up to its dot. -/
  tail : List Char → List Char
    | [] => []
    | '.' :: cs => camelCase cs
    | c :: cs => c :: tail cs

/-- **`name op`** — the one-word name by which diagnostics call `op`, as `LdiL` for `ldi.l`. -/
def name (op : Opcode) : String :=
  String.ofList (camelCase op.mnemonic.toList)

/-! ## From words to opcodes -/

/-- **`ofWord? w`** — the opcode assigned to the opcode bits of `w`, if there is one. -/
def ofWord? (w : UInt16) : Option Opcode :=
  let pattern := w &&& (Format.ofWord w).mask
  all.find? fun op => op.bits == pattern

theorem mem_all (op : Opcode) : op ∈ all := by
  cases op with
  | compute c => cases c <;> decide
  | branch r => cases r <;> decide
  | loadImmediate w => cases w <;> decide
  | load m w => cases m <;> cases w <;> decide
  | store m w => cases m <;> cases w <;> decide
  | _ => decide

/-- The table is in strictly ascending order of bits, so no pattern is assigned twice. -/
theorem pairwise_all : all.Pairwise fun a b => a.bits < b.bits := by
  decide

theorem nodup_all : all.Nodup :=
  pairwise_all.imp fun hlt heq => by simp [heq] at hlt

theorem bits_injective {a b : Opcode} (h : a.bits = b.bits) : a = b := by
  have key : ∀ x ∈ all, ∀ y ∈ all, x.bits = y.bits → x = y := by decide +kernel
  exact key a (mem_all a) b (mem_all b) h

/-- The pattern of an opcode lies in the opcode's own format and has no operand bits. -/
theorem format_bits (op : Opcode) :
    Format.ofWord op.bits = op.format ∧ op.bits &&& op.format.mask = op.bits := by
  have key : ∀ x ∈ all, Format.ofWord x.bits = x.format ∧ x.bits &&& x.format.mask = x.bits := by
    decide
  exact key op (mem_all op)

/-- **Decoding the opcode.**  A word has opcode `op` exactly when its opcode bits are `op`'s. -/
theorem ofWord?_eq_some_iff {w : UInt16} {op : Opcode} :
    ofWord? w = some op ↔ op.bits = w &&& (Format.ofWord w).mask := by
  unfold ofWord?
  constructor
  · intro h
    simpa using List.find?_some h
  · intro h
    cases hf : all.find? fun x => x.bits == w &&& (Format.ofWord w).mask with
    | none =>
      have := List.find?_eq_none.1 hf op (mem_all op)
      simp [h] at this
    | some x =>
      have hx := List.find?_some hf
      simp only [beq_iff_eq] at hx
      exact congrArg some (bits_injective (hx.trans h.symm))

end Opcode

end Moxie
