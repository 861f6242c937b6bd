/-
# Moxie.Machine.Event — what can be observed of a run.

A running machine reports events, in the order in which things happen, to an observer.  An observer
is any type with a rule for taking in one event; it is never consulted, so it cannot influence the
run.  Everything that looks at executions is such an observer: a log, a count of opcodes, or a
combination of several.
-/
import Moxie.Isa.Instruction
import Moxie.Machine.Fault

namespace Moxie

/-! ## Events -/

/-- Something that happens in a run. -/
inductive Event where
  /-- The memory system reports. -/
  | paging (e : PagingEvent)
  /-- An instruction word was fetched and is about to be executed. -/
  | fetched (i : Instruction) (address : UInt32)
  /-- A 32-bit inline operand was fetched. -/
  | operand (value : UInt32)
  /-- The software interrupt in the word at `address` was raised. -/
  | interrupted (number address : UInt32)
  /-- A run began. -/
  | started (address sp : UInt32)
  /-- A run ended at a `brk`. -/
  | halted (ipAddress : UInt32) (instructions : UInt64)
  /-- A run ended in a fault. -/
  | faulted (ipAddress : UInt32) (instructions : UInt64) (fault : Fault)
  deriving DecidableEq

/-- The event belongs to one instruction: the fetch of its word or of its operand. -/
def Event.isFetch : Event → Bool
  | .fetched .. | .operand _ => true
  | _ => false

/-! ## Observers -/

/-- A type that takes in events. -/
class Observer (τ : Type) where
  /-- Take in one event. -/
  observe : τ → Event → τ

namespace Observer

/-- Take in events in order. -/
def observeAll {τ : Type} [Observer τ] (o : τ) (events : List Event) : τ :=
  events.foldl observe o

/-- The observer that sees nothing. -/
instance : Observer Unit where
  observe o _ := o

/-- Two observers side by side both see every event. -/
instance {σ τ : Type} [Observer σ] [Observer τ] : Observer (σ × τ) where
  observe o e := (observe o.1 e, observe o.2 e)

/-- An observer that may be absent. -/
instance {τ : Type} [Observer τ] : Observer (Option τ) where
  observe o e := o.map (observe · e)

end Observer

/-! ## The log -/

/-- A record of events.  The fetches of instructions and operands, which make up nearly all events,
are recorded only on demand. -/
structure Log where
  /-- Fetches are recorded too. -/
  verbose : Bool
  /-- The recorded events, newest first. -/
  newestFirst : List Event := []
  deriving DecidableEq

namespace Log

/-- The recorded events, in the order in which they happened. -/
def events (l : Log) : List Event :=
  l.newestFirst.reverse

/-- The same log with nothing recorded yet. -/
def clear (l : Log) : Log :=
  { l with newestFirst := [] }

instance : Observer Log where
  observe l e :=
    if l.verbose || !e.isFetch then { l with newestFirst := e :: l.newestFirst } else l

theorem events_observe (l : Log) (e : Event) :
    (Observer.observe l e).events =
      l.events ++ if l.verbose || !e.isFetch then [e] else [] := by
  simp only [Observer.observe, events]
  split <;> simp

end Log

end Moxie
