/-
# Moxie.Proofs.Machine.Inline — an instruction is a word, its inline operand, and the rest.

What follows an instruction word is laid down twice: the table of opcodes says how many words of
operand there are, and the semantics of each instruction fetches what it needs.  `perform_eq` says
that the two agree.  Every operation fetches the operand that the table gives it before it does
anything else, and what it does then (`Action.rest`) takes no further word from the instruction
stream.

The bus may be any.  What a step finds on it is given by two replies, `Machine.wordFetch` and
`Machine.operandFetch`, and a step is told from them: it ends at a word that cannot be fetched
(`step_of_no_word`), at a word that is no instruction (`step_of_illegal`), or as its operation ends
(`step_of_perform_ok`, `step_of_perform_error`).
-/
import Moxie.Proofs.Machine.Outcome
import Moxie.Proofs.Machine.Simulation

namespace Moxie

/-- There are never more than two words of operand. -/
theorem Opcode.immediateWords_le (op : Opcode) : op.immediateWords ≤ 2 := by
  unfold immediateWords
  split <;> decide

variable {β τ : Type}

/-! ## What a step finds in the instruction stream -/

section Fetches

variable [Bus β]

/-- The reply to the fetch of an inline operand of some words from an address; an operand of no
words is not fetched. -/
def Bus.fetchInline (b : β) (words : Nat) (addr : UInt32) : Reply β UInt32 :=
  match words with
  | 0 => ⟨.ok 0, b, []⟩
  | 1 => Bus.read b .short addr
  | _ => Bus.read b .long addr

namespace Machine

/-- The reply to the fetch of the word at the instruction pointer. -/
def wordFetch (m : Machine β τ) : Reply β UInt32 :=
  Bus.read m.bus .short m.registers.ipAddress

/-- The reply to the fetch of the inline operand behind that word, when it is the word of an
`op`. -/
def operandFetch (m : Machine β τ) (op : Opcode) : Reply β UInt32 :=
  Bus.fetchInline m.wordFetch.state op.immediateWords (m.registers.advance 1).ipAddress

variable [Observer τ]

/-- The machine after an access that got the reply `r`. -/
def past {α : Type} (m : Machine β τ) (r : Reply β α) : Machine β τ :=
  { m with bus := r.state, observer := r.report m.observer }

/-- The machine after the word at the instruction pointer was fetched and found to be `word`. -/
def pastFetched (m : Machine β τ) (word : UInt32) : Machine β τ where
  registers := m.registers.advance 1
  bus := m.wordFetch.state
  observer := Observer.observe (m.wordFetch.report m.observer)
    (.fetched (.decode word.toUInt16) m.registers.ipAddress)
  completed := m.completed

end Machine

end Fetches

namespace Action

variable [Bus β] [Observer τ]

/-! ## Accesses to any bus -/

section Accesses

variable {m : Machine β τ} {w : Width} {addr v : UInt32} {e : AccessError}

theorem readBus_eq_ok (h : (Bus.read m.bus w addr).result = .ok v) :
    readBus w addr m = .ok v (m.past (Bus.read m.bus w addr)) := by
  rw [readBus_apply, Machine.settle, h]
  rfl

theorem readBus_eq_error (h : (Bus.read m.bus w addr).result = .error e) :
    readBus w addr m = .error (.access e) (m.past (Bus.read m.bus w addr)) := by
  rw [readBus_apply, Machine.settle, h]
  rfl

theorem writeBus_eq_ok (h : (Bus.write m.bus w addr v).result = .ok ()) :
    writeBus w addr v m = .ok () (m.past (Bus.write m.bus w addr v)) := by
  rw [writeBus_apply, Machine.settle, h]
  rfl

theorem writeBus_eq_error (h : (Bus.write m.bus w addr v).result = .error e) :
    writeBus w addr v m = .error (.access e) (m.past (Bus.write m.bus w addr v)) := by
  rw [writeBus_apply, Machine.settle, h]
  rfl

end Accesses

/-! ## Operands by the table -/

/-- Fetch an inline operand of some words. -/
def inline : Nat → Action β τ UInt32
  | 0 => return 0
  | 1 => displacement
  | _ => operand

/-- **`rest op i address s x`** — what `op` does once its inline operand `x` was fetched, where `s`
are the registers from before.  An operation without an operand has everything left to do. -/
def rest (op : Opcode) (i : Instruction) (address : UInt32) (s : Registers) (x : UInt32) :
    Action β τ Unit :=
  match op with
  | .jmpa => jump x
  | .jsra => call x
  | .swi => interrupt x address
  | .loadImmediate w => setRegister i.a (w.truncate x)
  | .load .absolute w => do
    let v ← readBus w x
    setRegister i.a v
  | .load .offset w => do
    let v ← readBus w (s.get i.b + x)
    setRegister i.a v
  | .store .absolute w => writeBus w x (s.get i.a)
  | .store .offset w => writeBus w (s.get i.a + x) (s.get i.b)
  | _ => perform op i address

/-- What has no inline operand is performed as a whole. -/
theorem perform_eq_of_no_operand {op : Opcode} {i : Instruction} {address : UInt32}
    (hwords : op.immediateWords = 0)
    (hrest : ∀ s x, rest op i address s x = (perform op i address : Action β τ Unit)) :
    (perform op i address : Action β τ Unit) =
      (registers >>= fun s => inline op.immediateWords >>= rest op i address s) := by
  simp only [hwords, inline, pure_bind, hrest]
  rfl

/-- **Every operation fetches its inline operand first**, of as many words as the table says. -/
theorem perform_eq (op : Opcode) (i : Instruction) (address : UInt32) :
    (perform op i address : Action β τ Unit) =
      (registers >>= fun s => inline op.immediateWords >>= rest op i address s) := by
  cases op with
  | jmpa | jsra | swi | loadImmediate w => rfl
  | load mode w =>
    cases mode with
    | indirect => exact perform_eq_of_no_operand rfl fun _ _ => rfl
    | absolute => rfl
    | offset => simp only [perform, effectiveAddress, bind_assoc, pure_bind]; rfl
  | store mode w =>
    cases mode with
    | indirect => exact perform_eq_of_no_operand rfl fun _ _ => rfl
    | absolute => rfl
    | offset => simp only [perform, effectiveAddress, bind_assoc, pure_bind]; rfl
  | _ => exact perform_eq_of_no_operand rfl fun _ _ => rfl

section Operands

variable {m : Machine β τ} {words : Nat}

/-- An operand that cannot be fetched leaves the registers as they were. -/
theorem inline_of_error {e : AccessError}
    (h : (Bus.fetchInline m.bus words m.registers.ipAddress).result = .error e) :
    inline words m =
      .error (.access e) (m.past (Bus.fetchInline m.bus words m.registers.ipAddress)) := by
  match words with
  | 0 => cases h
  | 1 => exact (bind_of_ok rfl).trans (bind_of_error (readBus_eq_error h))
  | _ + 2 => exact (bind_of_ok rfl).trans (bind_of_error (readBus_eq_error h))

/-- An operand that can be fetched has been moved past. -/
theorem inline_of_ok (hwords : words ≤ 2) {v : UInt32}
    (h : (Bus.fetchInline m.bus words m.registers.ipAddress).result = .ok v) :
    ∃ x n, inline words m = .ok x n ∧
      n.registers = m.registers.advance (UInt32.ofNat words) ∧
      n.bus = (Bus.fetchInline m.bus words m.registers.ipAddress).state := by
  match words, hwords with
  | 0, _ =>
    refine ⟨0, m, rfl, ?_, rfl⟩
    rw [Registers.advance]
    exact congrArg (fun ip => { m.registers with ip }) (UInt32.add_zero _).symm
  | 1, _ => exact ⟨_, _, (bind_of_ok rfl).trans (bind_of_ok (readBus_eq_ok h)), rfl, rfl⟩
  | 2, _ => exact ⟨_, _, (bind_of_ok rfl).trans (bind_of_ok (readBus_eq_ok h)), rfl, rfl⟩

end Operands

/-! ## Steps -/

section Steps

variable {m n : Machine β τ} (hrunning : m.registers.halted = false)

include hrunning

/-- A word that cannot be fetched ends the step. -/
theorem step_of_no_word {e : AccessError} (h : m.wordFetch.result = .error e) :
    step m = .error (.access e) (m.past m.wordFetch) := by
  rw [step_apply, hrunning]
  exact bind_of_error (bind_of_error (readBus_eq_error h))

/-- A word that can be fetched is executed behind it. -/
theorem step_of_word {word : UInt32} (h : m.wordFetch.result = .ok word) :
    step m = (execute (.decode word.toUInt16) m.registers.ipAddress >>= conclude)
      (m.pastFetched word) := by
  rw [step_apply, hrunning]
  have hattempt : attempt m.registers.ipAddress m =
      execute (.decode word.toUInt16) m.registers.ipAddress (m.pastFetched word) :=
    bind_of_ok (readBus_eq_ok h)
  show (attempt m.registers.ipAddress >>= conclude) m = _
  rw [bind_apply, bind_apply, hattempt]

theorem step_of_illegal {word : UInt32} (h : m.wordFetch.result = .ok word)
    (hop : Opcode.ofWord? word.toUInt16 = none) :
    step m = .error (.illegalOpcode word.toUInt16 m.registers.ipAddress) (m.pastFetched word) := by
  rw [step_of_word hrunning h, execute, Instruction.opcode_decode, hop]
  rfl

variable {word : UInt32} (h : m.wordFetch.result = .ok word) {op : Opcode}
  (hop : Opcode.ofWord? word.toUInt16 = some op)

include h hop

/-- An operation that goes through is concluded. -/
theorem step_of_perform_ok
    (hperform : perform op (.decode word.toUInt16) m.registers.ipAddress (m.pastFetched word) =
      .ok () n) :
    step m = conclude (if op = .brk then .halted else .running) n := by
  rw [step_of_word hrunning h]
  exact bind_of_ok (execute_of_perform_ok hop hperform)

/-- An operation that faults leaves the machine as it is. -/
theorem step_of_perform_error {f : Fault}
    (hperform : perform op (.decode word.toUInt16) m.registers.ipAddress (m.pastFetched word) =
      .error f n) :
    step m = .error f n := by
  rw [step_of_word hrunning h]
  exact bind_of_error (execute_of_perform_error hop hperform)

end Steps

/-- A step that succeeds has fetched the word of an operation, performed it and concluded it. -/
theorem exists_performed_of_step_ok {m n : Machine β τ} (hrunning : m.registers.halted = false)
    {p : Progress} (h : step m = .ok p n) :
    ∃ word op k, m.wordFetch.result = .ok word ∧ Opcode.ofWord? word.toUInt16 = some op ∧
      perform op (.decode word.toUInt16) m.registers.ipAddress (m.pastFetched word) = .ok () k ∧
      p = (if op = .brk then .halted else .running) ∧ conclude p k = .ok p n := by
  cases hfetch : m.wordFetch.result with
  | error e =>
    rw [step_of_no_word hrunning hfetch] at h
    cases h
  | ok word =>
    rw [step_of_word hrunning hfetch] at h
    obtain ⟨q, k, hexecute, hconclude⟩ := exists_of_bind_ok h
    obtain ⟨op, hop, hperform, hq⟩ := exists_of_execute_ok hexecute
    cases hconclude
    exact ⟨word, op, k, rfl, hop, hperform, hq, rfl⟩

end Action

end Moxie
