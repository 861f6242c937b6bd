/-
# Moxie.Machine.Action — the machine, and the actions that instructions are made of.

A machine is its registers, the bus it runs on, an observer, and a count of completed instructions.
An `Action` changes a machine and gives a value or a fault; after a fault the machine is still
there, as the action left it.

The actions below are the only ones that touch a machine.  Each is written out as a function of the
machine, so each has a one-line equation; instructions are put together from them and never look
inside.  In particular every access to memory goes through `readBus` or `writeBus`, and every event
reaches the observer through `notify` or comes from the bus.
-/
import Moxie.Machine.Bus
import Moxie.Machine.Event
import Moxie.Machine.Registers

namespace Moxie

/-- A processor bound to a bus and an observer. -/
structure Machine (β τ : Type) where
  registers : Registers
  bus : β
  observer : τ
  /-- How many instructions were completed; wraps around at `2 ^ 64`. -/
  completed : UInt64

/-- A new machine over a bus. -/
def Machine.new {β τ : Type} (bus : β) (observer : τ) : Machine β τ :=
  ⟨.initial, bus, observer, 0⟩

/-- A change of a machine that gives a value or a fault. -/
abbrev Action (β τ : Type) := EStateM Fault (Machine β τ)

namespace Action

variable {β τ : Type}

/-! ## Sequencing -/

theorem pure_apply {α : Type} (a : α) (m : Machine β τ) : (pure a : Action β τ α) m = .ok a m :=
  rfl

/-- The second action starts where the first ended; a fault of the first is a fault of both. -/
theorem bind_apply {α γ : Type} (x : Action β τ α) (f : α → Action β τ γ) (m : Machine β τ) :
    (x >>= f) m =
      match x m with
      | .ok a n => f a n
      | .error e n => .error e n := by
  change EStateM.bind x f m = _
  unfold EStateM.bind
  cases x m <;> rfl

/-! ## Registers -/

/-- The registers as they are. -/
def registers : Action β τ Registers := fun m =>
  .ok m.registers m

/-- Change the registers. -/
def updateRegisters (f : Registers → Registers) : Action β τ Unit :=
  fun ⟨registers, bus, observer, n⟩ => .ok () ⟨f registers, bus, observer, n⟩

/-- Set a general-purpose register. -/
def setRegister (r : Register) (v : UInt32) : Action β τ Unit :=
  updateRegisters (·.set r v)

/-- Advance the instruction pointer by some words. -/
def advance (words : UInt32) : Action β τ Unit :=
  updateRegisters (·.advance words)

/-- Continue at an even byte address. -/
def goto (target : UInt32) : Action β τ Unit :=
  updateRegisters fun s => { s with ip := target / 2 }

/-! ## Faults and the count -/

/-- Stop with a fault. -/
def fail {α : Type} (f : Fault) : Action β τ α := fun m =>
  .error f m

/-- Count a completed instruction. -/
def complete : Action β τ Unit := fun ⟨registers, bus, observer, n⟩ =>
  .ok () ⟨registers, bus, observer, n + 1⟩

/-! ## Observation and memory -/

section Observed

variable [Observer τ]

/-- Report an event. -/
def notify (e : Event) : Action β τ Unit := fun ⟨registers, bus, observer, n⟩ =>
  .ok () ⟨registers, bus, Observer.observe observer e, n⟩

variable [Bus β]

/-- The value of width `w` at an address, zero-extended. -/
def readBus (w : Width) (addr : UInt32) : Action β τ UInt32 := fun ⟨registers, bus, observer, n⟩ =>
  match Bus.read bus w addr with
  | ⟨.ok v, bus, events⟩ =>
    .ok v ⟨registers, bus, Observer.observeAll observer (events.map .paging), n⟩
  | ⟨.error e, bus, events⟩ =>
    .error (.access e) ⟨registers, bus, Observer.observeAll observer (events.map .paging), n⟩

/-- Write the low bytes of a value in width `w` at an address. -/
def writeBus (w : Width) (addr v : UInt32) : Action β τ Unit := fun ⟨registers, bus, observer, n⟩ =>
  match Bus.write bus w addr v with
  | ⟨.ok (), bus, events⟩ =>
    .ok () ⟨registers, bus, Observer.observeAll observer (events.map .paging), n⟩
  | ⟨.error e, bus, events⟩ =>
    .error (.access e) ⟨registers, bus, Observer.observeAll observer (events.map .paging), n⟩

end Observed

end Action

end Moxie
