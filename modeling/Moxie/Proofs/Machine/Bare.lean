/-
# Moxie.Proofs.Machine.Bare — the processor on bare memory.

Over a bare memory an access has two outcomes.  Where it lies in the memory it is answered, and a
read changes nothing at all; where it does not, it is a fault and nothing happens.  Which of the two
it is can be told from the address and the size of the memory, which no write changes.  So whatever
the processor does on bare memory is a function of the registers and the bytes, and this module
writes the function down for accesses, for operands and for the fetch of an instruction.

`nextInstruction`, `inlineOperand` and `inlineDisplacement` are what stands at the instruction
pointer.  They are defined for every machine, whether or not it will come to read them.
-/
import Mathlib.Algebra.Ring.Nat
import Moxie.Proofs.Machine.Outcome
import Moxie.Proofs.Memory.Access

namespace Moxie

/-! ## Reading and writing bare memory -/

namespace Memory

/-- How an access of `len` bytes at `addr` fails. -/
def miss (m : Memory) (addr : UInt32) (len : Nat) : Fault :=
  .access (.outOfRange ⟨addr, len, m.size⟩)

variable {m : Memory} {w : Width} {addr v : UInt32}

/-! What the bus answers is what the memory answers, and it reports nothing. -/

theorem bus_read_of_fits (h : m.Fits addr w.bytes) :
    Bus.read m w addr = ⟨.ok (m.valueAt w addr), m, []⟩ := by
  simp only [Bus.read, read_of_fits h, Except.mapError]

theorem bus_read_of_not_fits (h : ¬ m.Fits addr w.bytes) :
    Bus.read m w addr = ⟨.error (.outOfRange ⟨addr, w.bytes, m.size⟩), m, []⟩ := by
  simp only [Bus.read, read_of_not_fits h, Except.mapError]

theorem bus_write_of_fits (h : m.Fits addr w.bytes) :
    Bus.write m w addr v = ⟨.ok (), m.put w addr v, []⟩ := by
  simp only [Bus.write, write_of_fits h]

theorem bus_write_of_not_fits (h : ¬ m.Fits addr w.bytes) :
    Bus.write m w addr v = ⟨.error (.outOfRange ⟨addr, w.bytes, m.size⟩), m, []⟩ := by
  simp only [Bus.write, write_of_not_fits h]

end Memory

/-! ## Registers -/

namespace Registers

theorem set_set (s : Registers) (r : Register) (u v : UInt32) :
    (s.set r u).set r v = s.set r v := by
  rw [set, set, set, Vector.set_set]

theorem set_get (s : Registers) (r : Register) : s.set r (s.get r) = s := by
  simp only [set, get, Fin.getElem_fin, Vector.set_getElem_self]

/-- The byte address goes on by two for each word. -/
theorem ipAddress_advance (s : Registers) (words : UInt32) :
    (s.advance words).ipAddress = s.ipAddress + 2 * words := by
  show (s.ip + words) * 2 = s.ip * 2 + 2 * words
  grind

end Registers

/-! ## Machines on the way through an instruction -/

namespace Machine

variable {τ : Type}

/-- The machine after `m` has fetched its 32-bit operand. -/
def pastOperand [Observer τ] (m : Machine Memory τ) : Machine Memory τ :=
  ⟨m.registers.advance 2, m.bus,
    Observer.observe m.observer (.operand (m.bus.valueAt .long m.registers.ipAddress)), m.completed⟩

/-- **`m.withRegisters s`** — the same machine with other registers. -/
def withRegisters (m : Machine Memory τ) (s : Registers) : Machine Memory τ :=
  ⟨s, m.bus, m.observer, m.completed⟩

/-- The instruction at the instruction pointer. -/
def nextInstruction (m : Machine Memory τ) : Instruction :=
  .decode (m.bus.valueAt .short m.registers.ipAddress).toUInt16

/-- The 32-bit operand of the instruction at the instruction pointer. -/
def inlineOperand (m : Machine Memory τ) : UInt32 :=
  m.bus.valueAt .long (m.registers.ipAddress + 2)

/-- The signed 16-bit displacement of the instruction at the instruction pointer. -/
def inlineDisplacement (m : Machine Memory τ) : UInt32 :=
  Arithmetic.signExtendShort (m.bus.valueAt .short (m.registers.ipAddress + 2))

/-- The machine after `m` has fetched its instruction word. -/
def pastWord [Observer τ] (m : Machine Memory τ) : Machine Memory τ :=
  ⟨m.registers.advance 1, m.bus,
    Observer.observe m.observer (.fetched m.nextInstruction m.registers.ipAddress), m.completed⟩

/-- The byte address behind the instruction at the instruction pointer and its operand. -/
def followingAddress (m : Machine Memory τ) : UInt32 :=
  match m.nextInstruction.opcode with
  | none => m.registers.ipAddress + 2
  | some op => m.registers.ipAddress + 2 + UInt32.ofNat (2 * op.immediateWords)

/-- **`m.SameButIp n`** — the two differ in the instruction pointer at most, and in what was
observed.
-/
structure SameButIp (m n : Machine Memory τ) : Prop where
  registers : n.registers = { m.registers with ip := n.registers.ip }
  bus : n.bus = m.bus
  completed : n.completed = m.completed

theorem SameButIp.refl (m : Machine Memory τ) : m.SameButIp m :=
  ⟨rfl, rfl, rfl⟩

theorem SameButIp.trans {m n k : Machine Memory τ} (hmn : m.SameButIp n) (hnk : n.SameButIp k) :
    m.SameButIp k := by
  refine ⟨?_, hnk.bus.trans hmn.bus, hnk.completed.trans hmn.completed⟩
  rw [hnk.registers, hmn.registers]

theorem SameButIp.get {m n : Machine Memory τ} (h : m.SameButIp n) (r : Register) :
    n.registers.get r = m.registers.get r := by
  rw [h.registers]
  rfl

theorem sameButIp_pastWord [Observer τ] (m : Machine Memory τ) : m.SameButIp m.pastWord :=
  ⟨rfl, rfl, rfl⟩

theorem sameButIp_pastOperand [Observer τ] (m : Machine Memory τ) : m.SameButIp m.pastOperand :=
  ⟨rfl, rfl, rfl⟩

theorem ipAddress_pastWord [Observer τ] (m : Machine Memory τ) :
    m.pastWord.registers.ipAddress = m.registers.ipAddress + 2 :=
  m.registers.ipAddress_advance 1

end Machine

/-! ## Accesses and operands -/

namespace Action

variable {τ : Type} [Observer τ] {m : Machine Memory τ} {w : Width} {addr v : UInt32}

theorem readBus_of_fits (h : m.bus.Fits addr w.bytes) :
    readBus w addr m = .ok (m.bus.valueAt w addr) m := by
  obtain ⟨registers, bus, observer, completed⟩ := m
  rw [readBus, Memory.bus_read_of_fits h]
  rfl

theorem readBus_of_not_fits (h : ¬ m.bus.Fits addr w.bytes) :
    readBus w addr m = .error (m.bus.miss addr w.bytes) m := by
  obtain ⟨registers, bus, observer, completed⟩ := m
  rw [readBus, Memory.bus_read_of_not_fits h]
  rfl

theorem writeBus_of_fits (h : m.bus.Fits addr w.bytes) :
    writeBus w addr v m = .ok () { m with bus := m.bus.put w addr v } := by
  obtain ⟨registers, bus, observer, completed⟩ := m
  rw [writeBus, Memory.bus_write_of_fits h]
  rfl

theorem writeBus_of_not_fits (h : ¬ m.bus.Fits addr w.bytes) :
    writeBus w addr v m = .error (m.bus.miss addr w.bytes) m := by
  obtain ⟨registers, bus, observer, completed⟩ := m
  rw [writeBus, Memory.bus_write_of_not_fits h]
  rfl

theorem operand_of_fits (h : m.bus.Fits m.registers.ipAddress 4) :
    operand m = .ok (m.bus.valueAt .long m.registers.ipAddress) m.pastOperand :=
  (bind_of_ok rfl).trans (bind_of_ok (readBus_of_fits (w := .long) h))

theorem operand_of_not_fits (h : ¬ m.bus.Fits m.registers.ipAddress 4) :
    operand m = .error (m.bus.miss m.registers.ipAddress 4) m :=
  (bind_of_ok rfl).trans (bind_of_error (readBus_of_not_fits (w := .long) h))

theorem displacement_of_fits (h : m.bus.Fits m.registers.ipAddress 2) :
    displacement m =
      .ok (Arithmetic.signExtendShort (m.bus.valueAt .short m.registers.ipAddress))
        (m.withRegisters (m.registers.advance 1)) :=
  (bind_of_ok rfl).trans (bind_of_ok (readBus_of_fits (w := .short) h))

theorem displacement_of_not_fits (h : ¬ m.bus.Fits m.registers.ipAddress 2) :
    displacement m = .error (m.bus.miss m.registers.ipAddress 2) m :=
  (bind_of_ok rfl).trans (bind_of_error (readBus_of_not_fits (w := .short) h))

/-! ### Behind an instruction word -/

theorem operand_pastWord_of_fits (h : m.bus.Fits (m.registers.ipAddress + 2) 4) :
    operand m.pastWord = .ok m.inlineOperand m.pastWord.pastOperand := by
  rw [← m.ipAddress_pastWord] at h
  rw [operand_of_fits h, m.ipAddress_pastWord]
  rfl

theorem operand_pastWord_of_not_fits (h : ¬ m.bus.Fits (m.registers.ipAddress + 2) 4) :
    operand m.pastWord = .error (m.bus.miss (m.registers.ipAddress + 2) 4) m.pastWord := by
  rw [← m.ipAddress_pastWord] at h
  rw [operand_of_not_fits h, m.ipAddress_pastWord]
  rfl

theorem displacement_pastWord_of_fits (h : m.bus.Fits (m.registers.ipAddress + 2) 2) :
    displacement m.pastWord =
      .ok m.inlineDisplacement (m.pastWord.withRegisters (m.registers.advance 1 |>.advance 1)) := by
  rw [← m.ipAddress_pastWord] at h
  rw [displacement_of_fits h, m.ipAddress_pastWord]
  rfl

theorem displacement_pastWord_of_not_fits (h : ¬ m.bus.Fits (m.registers.ipAddress + 2) 2) :
    displacement m.pastWord = .error (m.bus.miss (m.registers.ipAddress + 2) 2) m.pastWord := by
  rw [← m.ipAddress_pastWord] at h
  rw [displacement_of_not_fits h, m.ipAddress_pastWord]
  rfl

/-! ## Steps -/

/-- A word that cannot be fetched is a fault, and that is all. -/
theorem step_of_not_fits (hrunning : m.registers.halted = false)
    (h : ¬ m.bus.Fits m.registers.ipAddress 2) :
    step m = .error (m.bus.miss m.registers.ipAddress 2) m := by
  rw [step_apply, hrunning]
  exact bind_of_error (bind_of_error (readBus_of_not_fits (w := .short) h))

/-- A word that can be fetched is executed behind it. -/
theorem step_of_fits (hrunning : m.registers.halted = false)
    (h : m.bus.Fits m.registers.ipAddress 2) :
    step m = (execute m.nextInstruction m.registers.ipAddress >>= conclude) m.pastWord := by
  rw [step_apply, hrunning]
  have hattempt : attempt m.registers.ipAddress m =
      execute m.nextInstruction m.registers.ipAddress m.pastWord :=
    bind_of_ok (readBus_of_fits (w := .short) h)
  show (attempt m.registers.ipAddress >>= conclude) m = _
  rw [bind_apply, bind_apply, hattempt]

/-- A step that succeeds has performed an operation and concluded it. -/
theorem exists_of_step_ok (hrunning : m.registers.halted = false) {p : Progress}
    {n : Machine Memory τ} (h : step m = .ok p n) :
    m.bus.Fits m.registers.ipAddress 2 ∧
      ∃ op k, m.nextInstruction.opcode = some op ∧
        perform op m.nextInstruction m.registers.ipAddress m.pastWord = .ok () k ∧
        p = (if op = .brk then .halted else .running) ∧ conclude p k = .ok p n := by
  by_cases hfits : m.bus.Fits m.registers.ipAddress 2
  · rw [step_of_fits hrunning hfits] at h
    obtain ⟨q, k, hexecute, hconclude⟩ := exists_of_bind_ok h
    obtain ⟨op, hop, hperform, hq⟩ := exists_of_execute_ok hexecute
    cases hconclude
    exact ⟨hfits, op, k, hop, hperform, hq, rfl⟩
  · rw [step_of_not_fits hrunning hfits] at h
    cases h

/-- A step that fails could not fetch its word, found no instruction in it, or could not perform
it. -/
theorem cases_of_step_error (hrunning : m.registers.halted = false) {f : Fault}
    {n : Machine Memory τ} (h : step m = .error f n) :
    (¬ m.bus.Fits m.registers.ipAddress 2 ∧ f = m.bus.miss m.registers.ipAddress 2 ∧ n = m) ∨
      (m.nextInstruction.opcode = none ∧
        f = .illegalOpcode m.nextInstruction.word m.registers.ipAddress ∧ n = m.pastWord) ∨
      ∃ op, m.bus.Fits m.registers.ipAddress 2 ∧ m.nextInstruction.opcode = some op ∧
        perform op m.nextInstruction m.registers.ipAddress m.pastWord = .error f n := by
  by_cases hfits : m.bus.Fits m.registers.ipAddress 2
  · rw [step_of_fits hrunning hfits, execute] at h
    rcases exists_of_bind_error h with hexecute | ⟨q, k, -, hconclude⟩
    · cases hop : m.nextInstruction.opcode with
      | none =>
        rw [hop] at hexecute
        cases hexecute
        exact .inr (.inl ⟨rfl, rfl, rfl⟩)
      | some op =>
        rw [hop] at hexecute
        rcases exists_of_bind_error hexecute with hperform | ⟨_, k, -, hpure⟩
        · exact .inr (.inr ⟨op, hfits, rfl, hperform⟩)
        · cases hpure
    · cases hconclude
  · rw [step_of_not_fits hrunning hfits] at h
    cases h
    exact .inl ⟨hfits, rfl, rfl⟩

end Action

end Moxie
