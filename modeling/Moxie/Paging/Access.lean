/-
# Moxie.Paging.Access — what an access to memory can answer.

An access goes through the page tables or straight to physical memory, and either way it has the
same shape of answer, a `Reply`: a value or the reason there is none, the state of the memory system
afterwards, and what the memory system reports about itself.  The state is part of the answer also
when the access failed, because a failed access may still have filled the lookaside buffer.
-/
import Moxie.Memory.Basic

namespace Moxie

/-- What an access wants to do at an address. -/
inductive AccessKind where
  | read
  | write
  deriving DecidableEq

/-- Why an access failed. -/
inductive AccessError where
  /-- The physical bytes do not lie in memory. -/
  | outOfRange (cause : OutOfRange)
  /-- The directory has no page table for the address. -/
  | directoryEntryNotPresent (vaddr : UInt32)
  /-- The page table has no page for the address. -/
  | pageNotPresent (vaddr : UInt32)
  /-- A write to a page that is not writable. -/
  | pageReadOnly (vaddr : UInt32)
  /-- The page table names a frame that does not start in memory. -/
  | frameOutOfRange (vaddr frame : UInt32)
  deriving DecidableEq

/-- The wording of an access error. -/
def AccessError.message : AccessError → String
  | .outOfRange cause => cause.message
  | .directoryEntryNotPresent vaddr =>
    "page directory entry not present for vaddr=" ++ Hex.fixed 8 vaddr.toNat
  | .pageNotPresent vaddr => "page not present for vaddr=" ++ Hex.fixed 8 vaddr.toNat
  | .pageReadOnly vaddr => "write to read-only page at vaddr=" ++ Hex.fixed 8 vaddr.toNat
  | .frameOutOfRange vaddr frame =>
    "page table maps vaddr=" ++ Hex.fixed 8 vaddr.toNat ++ " to frame " ++
      Hex.fixed 8 frame.toNat ++ " beyond physical memory"

/-- What a memory system reports while it works. -/
inductive PagingEvent where
  /-- A lookup missed and the page tables answered with these two entries. -/
  | missResolved (vaddr directoryEntry leaf : UInt32)
  /-- The whole lookaside buffer was emptied. -/
  | flushed
  /-- One page was dropped from the lookaside buffer, or was not in it. -/
  | invalidated (vaddr : UInt32) (dropped : Bool)
  /-- The walker was pointed at another page directory. -/
  | baseChanged (old new : UInt32)
  deriving DecidableEq

/-- The answer to an access: its result, the state it leaves, and what was reported, in order. -/
structure Reply (σ α : Type) where
  result : Except AccessError α
  state : σ
  events : List PagingEvent

namespace Reply

/-- **`r.map f g`** — the same reply about a larger state and another value. -/
def map {σ τ α β : Type} (r : Reply σ α) (f : σ → τ) (g : α → β) : Reply τ β :=
  ⟨r.result.map g, f r.state, r.events⟩

end Reply

end Moxie
