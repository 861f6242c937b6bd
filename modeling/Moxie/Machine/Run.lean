/-
# Moxie.Machine.Run — steps, batches and whole runs.

`step` fetches and performs one instruction.  A batch is a bounded number of steps; a run is a reset
followed by steps until the machine stops, which may be never.  A run therefore takes a bound on its
steps too, but a bound that is not part of its meaning: it gives `none` when the bound did not
suffice, and otherwise an answer that no larger bound changes.

An instruction counts as completed when it did not fault; `brk` counts.
-/
import Moxie.Machine.Semantics

namespace Moxie

/-- How a step that does not fault leaves the machine. -/
inductive Progress where
  | running
  /-- The machine stopped at a `brk`, or had already stopped. -/
  | halted
  deriving DecidableEq

/-- Why a batch of steps ended. -/
inductive BatchEnd where
  /-- All steps were made. -/
  | completed
  /-- The machine stopped. -/
  | halted
  /-- An instruction faulted. -/
  | faulted (f : Fault)
  deriving DecidableEq

/-- The account of a batch. -/
structure Batch where
  /-- How many instructions were completed. -/
  executed : Nat
  ending : BatchEnd
  deriving DecidableEq

variable {β τ : Type} [Bus β]

namespace Action

/-- Prepare a run from a byte address: the stack and frame pointers four bytes below the end of
memory, the other registers as they are, the machine running. -/
def reset (start : UInt32) : Action β τ Unit :=
  if start % 2 = 0 then
    fun ⟨registers, bus, observer, n⟩ =>
      let top := Bus.size bus - 4
      let registers := (registers.set .sp top).set .fp top
      .ok () ⟨{ registers with ip := start / 2, halted := false }, bus, observer, n⟩
  else
    fail (.unalignedJump start)

variable [Observer τ]

/-- Perform an instruction whose word was fetched from `address`. -/
def execute (i : Instruction) (address : UInt32) : Action β τ Progress :=
  match i.opcode with
  | none => fail (.illegalOpcode i.word address)
  | some op => do
    perform op i address
    return if op = .brk then .halted else .running

/-- **`step`** — fetch and execute one instruction; a stopped machine stays as it is. -/
def step : Action β τ Progress := do
  let s ← registers
  if s.halted then
    return .halted
  else do
    let word ← readBus .short s.ipAddress
    advance 1
    let i := Instruction.decode word.toUInt16
    notify (.fetched i s.ipAddress)
    let progress ← execute i s.ipAddress
    complete
    if progress = .halted then
      updateRegisters fun s => { s with halted := true }
    return progress

end Action

namespace Machine

variable [Observer τ]

/-- Report an event. -/
def notify (m : Machine β τ) (e : Event) : Machine β τ :=
  { m with observer := Observer.observe m.observer e }

/-! ## Batches -/

/-- At most `budget` steps on top of `executed` completed ones, ending early when the machine stops
or an instruction faults. -/
def runFrom (executed : Nat) : Nat → Machine β τ → Batch × Machine β τ
  | 0, m => (⟨executed, .completed⟩, m)
  | budget + 1, m =>
    match Action.step m with
    | .ok .running m => runFrom (executed + 1) budget m
    | .ok .halted m => (⟨executed + 1, .halted⟩, m)
    | .error f m => (⟨executed, .faulted f⟩, m)

/-- **`m.runBatch budget`** — at most `budget` instructions; a stopped machine executes none. -/
def runBatch (m : Machine β τ) (budget : Nat) : Batch × Machine β τ :=
  if m.registers.halted then (⟨0, .halted⟩, m) else runFrom 0 budget m

/-! ## Runs -/

/-- Steps until the machine stops or an instruction faults, and a report of how it ended; `none` if
`bound` steps did not lead there. -/
def runToEnd : Nat → Machine β τ → Option (Except Fault Unit) × Machine β τ
  | 0, m => (none, m)
  | bound + 1, m =>
    match Action.step m with
    | .ok .running m => runToEnd bound m
    | .ok .halted m =>
      (some (.ok ()), m.notify (.halted m.registers.ipAddress m.completed))
    | .error f m =>
      (some (.error f), m.notify (.faulted m.registers.ipAddress m.completed f))

/-- **`m.execute bound start`** — run from a byte address to the end.  An odd address is a fault
before the run begins, and nothing is reported. -/
def execute (m : Machine β τ) (bound : Nat) (start : UInt32) :
    Option (Except Fault Unit) × Machine β τ :=
  match Action.reset start m with
  | .error f m => (some (.error f), m)
  | .ok () m => runToEnd bound (m.notify (.started start m.registers.sp))

end Machine

end Moxie
