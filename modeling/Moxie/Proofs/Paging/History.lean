/-
# Moxie.Proofs.Paging.History — histories of a paged memory, seen from its unit.

A paged memory can be asked to translate, to load and to store, its physical bytes can be edited
from outside, and its unit can be maintained.  Of all this the unit sees little: an access of any
kind is one request to resolve its first address, and an edit is nothing at all.
`PagedMemory.request` says so for one operation and `PagedMemory.requests` for a history;
`mmu_applyAll` and `reportsAll_eq` say that the unit does, and reports, what those requests make it
do and report.

So what is to be counted or kept along histories of a paged memory is counted and kept along the
`Transition`s of its unit.
-/
import Mathlib.Data.List.Induction
import Moxie.Proofs.Paging.Residency
import Moxie.Proofs.Paging.Walked

namespace Moxie

/-! ## Transitions of a unit -/

namespace Mmu

/-- **`u.reports op`** — what a unit reports of an operation. -/
def reports (u : Mmu) : Operation → List PagingEvent
  | .resolve memory vaddr kind => (u.resolve memory vaddr kind).events
  | .flush => u.flush.2
  | .invalidate vaddr => (u.invalidate vaddr).2
  | .setBase base => (u.setBase base).2
  | .resetStatistics => []

/-- An operation, and the unit as it finds it. -/
structure Transition where
  unit : Mmu
  operation : Operation

namespace Transition

/-- The unit as the operation leaves it. -/
def after (x : Transition) : Mmu :=
  x.unit.apply x.operation

/-- What is reported. -/
def reports (x : Transition) : List PagingEvent :=
  x.unit.reports x.operation

end Transition

/-- **`u.transitions history`** — the operations of a history, each with the unit as it finds it. -/
def transitions (u : Mmu) : List Operation → List Transition
  | [] => []
  | op :: history => ⟨u, op⟩ :: (u.apply op).transitions history

theorem transitions_append (u : Mmu) (front rest : List Operation) :
    u.transitions (front ++ rest) = u.transitions front ++ (u.applyAll front).transitions rest := by
  induction front generalizing u with
  | nil => rfl
  | cons op front ih =>
    rw [List.cons_append, transitions, ih]
    rfl

end Mmu

/-! ## Operations on a paged memory -/

namespace PagedMemory

/-- Something that can be done to a paged memory. -/
inductive Operation where
  | resolve (vaddr : UInt32) (kind : AccessKind)
  | read (w : Width) (vaddr : UInt32)
  | write (w : Width) (vaddr v : UInt32)
  /-- Put any physical memory in the place of the one behind the unit. -/
  | edit (memory : Memory)
  | flush
  | invalidate (vaddr : UInt32)
  | setBase (base : UInt32)
  | resetStatistics
  deriving DecidableEq

/-- The paged memory after one operation. -/
def apply (p : PagedMemory) : Operation → PagedMemory
  | .resolve vaddr kind => (p.resolve vaddr kind).state
  | .read w vaddr => (p.read w vaddr).state
  | .write w vaddr v => (p.write w vaddr v).state
  | .edit memory => ⟨p.mmu, memory⟩
  | .flush => ⟨p.mmu.flush.1, p.memory⟩
  | .invalidate vaddr => ⟨(p.mmu.invalidate vaddr).1, p.memory⟩
  | .setBase base => ⟨(p.mmu.setBase base).1, p.memory⟩
  | .resetStatistics => ⟨p.mmu.resetStatistics, p.memory⟩

/-- **`p.reports op`** — what is reported of one operation. -/
def reports (p : PagedMemory) : Operation → List PagingEvent
  | .resolve vaddr kind => (p.resolve vaddr kind).events
  | .read w vaddr => (p.read w vaddr).events
  | .write w vaddr v => (p.write w vaddr v).events
  | .flush => p.mmu.flush.2
  | .invalidate vaddr => (p.mmu.invalidate vaddr).2
  | .setBase base => (p.mmu.setBase base).2
  | .edit _ | .resetStatistics => []

/-- **`p.request op`** — what an operation asks of the unit. -/
def request (p : PagedMemory) : Operation → Option Mmu.Operation
  | .resolve vaddr kind => some (.resolve p.memory vaddr kind)
  | .read _ vaddr => some (.resolve p.memory vaddr .read)
  | .write _ vaddr _ => some (.resolve p.memory vaddr .write)
  | .edit _ => none
  | .flush => some .flush
  | .invalidate vaddr => some (.invalidate vaddr)
  | .setBase base => some (.setBase base)
  | .resetStatistics => some .resetStatistics

theorem events_read (p : PagedMemory) (w : Width) (vaddr : UInt32) :
    (p.read w vaddr).events = (p.mmu.resolve p.memory vaddr .read).events := by
  unfold read
  rw [resolve_eq]
  cases (p.mmu.resolve p.memory vaddr .read).result <;> rfl

theorem events_write (p : PagedMemory) (w : Width) (vaddr v : UInt32) :
    (p.write w vaddr v).events = (p.mmu.resolve p.memory vaddr .write).events := by
  unfold write
  rw [resolve_eq]
  cases (p.mmu.resolve p.memory vaddr .write).result with
  | error e => rfl
  | ok paddr =>
    dsimp only
    cases p.memory.write w paddr v <;> rfl

/-- **The unit does what it is asked**, and nothing when it is asked nothing. -/
theorem mmu_apply (p : PagedMemory) (op : Operation) :
    (p.apply op).mmu = p.mmu.applyAll (p.request op).toList := by
  cases op with
  | read w vaddr => exact congrArg mmu (state_read p w vaddr)
  | write w vaddr v => exact mmu_write p w vaddr v
  | _ => rfl

/-- The reports of an operation are those of the unit. -/
theorem reports_eq (p : PagedMemory) (op : Operation) :
    p.reports op =
      (p.mmu.transitions (p.request op).toList).flatMap Mmu.Transition.reports := by
  have hone : ∀ asked : Mmu.Operation,
      (p.mmu.transitions [asked]).flatMap Mmu.Transition.reports = p.mmu.reports asked :=
    fun asked => List.append_nil _
  cases op with
  | resolve vaddr kind => exact (hone (.resolve p.memory vaddr kind)).symm
  | read w vaddr => exact (events_read p w vaddr).trans (hone (.resolve p.memory vaddr .read)).symm
  | write w vaddr v =>
    exact (events_write p w vaddr v).trans (hone (.resolve p.memory vaddr .write)).symm
  | edit memory => rfl
  | flush => exact (hone .flush).symm
  | invalidate vaddr => exact (hone (.invalidate vaddr)).symm
  | setBase base => exact (hone (.setBase base)).symm
  | resetStatistics => rfl

/-! ## Histories -/

/-- The paged memory after a history of operations. -/
def applyAll (p : PagedMemory) (history : List Operation) : PagedMemory :=
  history.foldl apply p

/-- What is reported of a history, in order. -/
def reportsAll (p : PagedMemory) : List Operation → List PagingEvent
  | [] => []
  | op :: history => p.reports op ++ (p.apply op).reportsAll history

/-- **`p.requests history`** — what a history asks of the unit, in order. -/
def requests (p : PagedMemory) : List Operation → List Mmu.Operation
  | [] => []
  | op :: history => (p.request op).toList ++ (p.apply op).requests history

/-- **`p.transitions history`** — what a history does to the unit, request by request. -/
def transitions (p : PagedMemory) (history : List Operation) : List Mmu.Transition :=
  p.mmu.transitions (p.requests history)

/-- **A history of the paged memory is a history of its unit.** -/
theorem mmu_applyAll (p : PagedMemory) (history : List Operation) :
    (p.applyAll history).mmu = p.mmu.applyAll (p.requests history) := by
  induction history generalizing p with
  | nil => rfl
  | cons op history ih =>
    rw [requests, Mmu.applyAll, List.foldl_append]
    show ((p.apply op).applyAll history).mmu =
      (p.mmu.applyAll (p.request op).toList).applyAll ((p.apply op).requests history)
    rw [ih, mmu_apply]

/-- **So are its reports.** -/
theorem reportsAll_eq (p : PagedMemory) (history : List Operation) :
    p.reportsAll history = (p.transitions history).flatMap Mmu.Transition.reports := by
  induction history generalizing p with
  | nil => rfl
  | cons op history ih =>
    rw [reportsAll, transitions, requests, Mmu.transitions_append, List.flatMap_append,
      ← mmu_apply, reports_eq, ih]
    rfl

end PagedMemory

end Moxie
