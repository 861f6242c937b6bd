/-
# Moxie.Machine.Semantics — what each instruction does.

When an instruction is performed its word has been fetched and the instruction pointer is past it.
The operands in registers A and B are read before anything else happens.  The order of the remaining
effects is part of the meaning, because a fault in the middle leaves the earlier ones in place:

- an inline operand is fetched, and the instruction pointer moved past it, before it is used;
- an indirect or displaced store has its address in A and stores B, an absolute store stores A;
- `push` writes memory first and moves its pointer register afterwards;
- `pop` moves its pointer register first, so `pop $p, $p` ends with the popped value;
- a call pushes a zero, the return address and the old frame pointer, in this order, and moves the
  stack pointer after each;
- `ret` unwinds from the frame pointer, whatever the stack pointer is by then.
-/
import Moxie.Machine.Action
import Moxie.Machine.Arithmetic

namespace Moxie.Action

variable {β τ : Type} [Bus β] [Observer τ]

/-! ## Inline operands -/

/-- Fetch the 32-bit operand at the instruction pointer. -/
def operand : Action β τ UInt32 := do
  let s ← registers
  let v ← readBus .long s.ipAddress
  advance 2
  notify (.operand v)
  return v

/-- Fetch the signed 16-bit displacement at the instruction pointer. -/
def displacement : Action β τ UInt32 := do
  let s ← registers
  let v ← readBus .short s.ipAddress
  advance 1
  return Arithmetic.signExtendShort v

/-- The address of a load or store in mode `m`, where `base` is the value of its address
register. -/
def effectiveAddress (m : Mode) (base : UInt32) : Action β τ UInt32 :=
  match m with
  | .indirect => return base
  | .absolute => operand
  | .offset => do
    let d ← displacement
    return base + d

/-! ## The stack -/

/-- Push a word on the stack. -/
def push (v : UInt32) : Action β τ Unit := do
  let s ← registers
  writeBus .long (s.sp - 4) v
  setRegister .sp (s.sp - 4)

/-- Pop a word from the stack. -/
def pop : Action β τ UInt32 := do
  let s ← registers
  let v ← readBus .long s.sp
  setRegister .sp (s.sp + 4)
  return v

/-! ## Transfers of control -/

/-- Instructions lie at even addresses only. -/
def requireAligned (target : UInt32) : Action β τ Unit :=
  if target % 2 = 0 then return () else fail (.unalignedJump target)

/-- Jump to a byte address. -/
def jump (target : UInt32) : Action β τ Unit := do
  requireAligned target
  goto target

/-- Call a byte address: push a frame of a zero, the return address and the frame pointer, and make
it the current frame. -/
def call (target : UInt32) : Action β τ Unit := do
  requireAligned target
  let s ← registers
  push 0
  push s.ipAddress
  push s.fp
  let s ← registers
  setRegister .fp s.sp
  goto target

/-- Return from a call: drop everything above the current frame, then undo the call. -/
def ret : Action β τ Unit := do
  let s ← registers
  setRegister .sp s.fp
  let fp ← pop
  setRegister .fp fp
  let address ← pop
  goto address
  let _ ← pop

/-! ## Special registers -/

/-- The special register that an instruction's byte selects. -/
def specialIndex (v : UInt32) : Action β τ SpecialIndex :=
  if h : v.toNat < 10 then return ⟨v.toNat, h⟩ else fail (.noSpecialRegister v)

/-- Raise a software interrupt: leave its number and cause in the special registers.  Nothing
handles it, so it ends in a fault. -/
def interrupt (number address : UInt32) : Action β τ Unit := do
  updateRegisters fun s => (s.setSpecial SpecialRegister.swiRequestNumber.index number).setSpecial
    SpecialRegister.exceptionTrigger.index ExceptionCause.softwareInterrupt.code
  notify (.interrupted number address)
  fail (.softwareInterrupt number)

/-! ## Instructions -/

/-- **`perform op i address`** — the effect of `op` with the fields of `i`, whose word was fetched
from `address`. -/
def perform (op : Opcode) (i : Instruction) (address : UInt32) : Action β τ Unit := do
  let s ← registers
  let a := s.get i.a
  let b := s.get i.b
  match op with
  | .nop | .brk => return ()
  | .compute c =>
    match c.eval a b with
    | some v => setRegister i.a v
    | none => fail .divisionByZero
  | .inc => setRegister i.a (a + UInt32.ofInt i.value)
  | .dec => setRegister i.a (a - UInt32.ofInt i.value)
  | .cmp => updateRegisters fun s => { s with comparison := .of a b }
  | .branch r => if s.comparison.satisfies r then advance (UInt32.ofInt i.value) else return ()
  | .jmp => jump a
  | .jmpa => do
    let target ← operand
    jump target
  | .jsr => call a
  | .jsra => do
    let target ← operand
    call target
  | .ret => ret
  | .push => do
    writeBus .long (a - 4) b
    setRegister i.a (a - 4)
  | .pop => do
    let v ← readBus .long a
    setRegister i.a (a + 4)
    setRegister i.b v
  | .loadImmediate w => do
    let v ← operand
    setRegister i.a (w.truncate v)
  | .load m w => do
    let addr ← effectiveAddress m b
    let v ← readBus w addr
    setRegister i.a v
  | .store m w => do
    let addr ← effectiveAddress m a
    writeBus w addr (if m = .absolute then a else b)
  | .gsr => do
    let k ← specialIndex (UInt32.ofInt i.value)
    setRegister i.a (s.getSpecial k)
  | .ssr => do
    let k ← specialIndex (UInt32.ofInt i.value)
    updateRegisters (·.setSpecial k a)
  | .swi => do
    let number ← operand
    interrupt number address

end Moxie.Action
