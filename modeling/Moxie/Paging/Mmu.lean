/-
# Moxie.Paging.Mmu — from virtual to physical addresses, with a lookaside buffer.

An address is first looked up in the buffer.  On a miss the page tables are walked and the leaf
entry is put in the buffer; the answer is then given from the entry, so that a write to a page
without the writable flag fails whether the lookup hit or missed, and fails *after* the entry was
cached.  A walk that fails caches nothing.

The buffer does not follow edits of the page tables.  Whoever changes an entry that may be cached
invalidates the page or flushes the buffer.

Counters record the work done: every lookup is a hit or a miss, a miss whose walk completes counts
as a walk, and flushes and invalidations are counted whether or not they dropped anything.
-/
import Moxie.Paging.Tlb

namespace Moxie

/-! ## Counters -/

/-- How often each kind of work was done.  The counters wrap around at `2 ^ 64`. -/
structure Statistics where
  lookups : UInt64 := 0
  hits : UInt64 := 0
  misses : UInt64 := 0
  /-- Misses whose walk completed. -/
  walks : UInt64 := 0
  flushes : UInt64 := 0
  invalidations : UInt64 := 0
  deriving DecidableEq

/-- The counters in one line. -/
def Statistics.summary (s : Statistics) : String :=
  "MmuStats \x7b tlb_lookups: " ++ toString s.lookups.toNat ++
    ", tlb_hits: " ++ toString s.hits.toNat ++
    ", tlb_misses: " ++ toString s.misses.toNat ++
    ", page_walks: " ++ toString s.walks.toNat ++
    ", tlb_flushes: " ++ toString s.flushes.toNat ++
    ", tlb_invalidations: " ++ toString s.invalidations.toNat ++ " \x7d"

/-! ## The unit -/

/-- The memory management unit. -/
structure Mmu where
  /-- The page tables it walks. -/
  tables : PageTables
  /-- The leaf entries it remembers. -/
  tlb : Tlb
  /-- What it has done. -/
  stats : Statistics
  deriving DecidableEq

namespace Mmu

/-- A unit over the given page tables that remembers nothing yet. -/
def ofTables (tables : PageTables) : Mmu :=
  ⟨tables, .empty, {}⟩

/-- The leaf entry cached for the page of an address; looking does not count. -/
def cached (u : Mmu) (vaddr : UInt32) : Option TlbEntry :=
  u.tlb.lookup (pageNumber vaddr)

/-- **`u.resolve m vaddr kind`** — the physical address of `vaddr` for an access of the given
kind. -/
def resolve (u : Mmu) (m : Memory) (vaddr : UInt32) (kind : AccessKind) : Reply Mmu UInt32 :=
  let ⟨tables, tlb, stats⟩ := u
  match tlb.lookup (pageNumber vaddr) with
  | some entry =>
    { result := tables.target entry.leaf vaddr kind
      state := ⟨tables, tlb, { stats with lookups := stats.lookups + 1, hits := stats.hits + 1 }⟩
      events := [] }
  | none =>
    match tables.walk m vaddr with
    | .error e =>
      { result := .error e
        state :=
          ⟨tables, tlb, { stats with lookups := stats.lookups + 1, misses := stats.misses + 1 }⟩
        events := [] }
    | .ok w =>
      { result := tables.target w.leaf vaddr kind
        state :=
          ⟨tables, tlb.insert ⟨pageNumber vaddr, w.leaf⟩,
            { stats with
              lookups := stats.lookups + 1
              misses := stats.misses + 1
              walks := stats.walks + 1 }⟩
        events := [.missResolved vaddr w.directory.word w.leaf.word] }

/-- Forget every cached entry. -/
def flush (u : Mmu) : Mmu × List PagingEvent :=
  (⟨u.tables, .empty, { u.stats with flushes := u.stats.flushes + 1 }⟩, [.flushed])

/-- Forget the cached entry of the page of `vaddr`, if there is one. -/
def invalidate (u : Mmu) (vaddr : UInt32) : Mmu × List PagingEvent :=
  (⟨u.tables, u.tlb.invalidate (pageNumber vaddr),
      { u.stats with invalidations := u.stats.invalidations + 1 }⟩,
    [.invalidated vaddr (u.cached vaddr).isSome])

/-- Walk another page directory from now on.  All cached entries are forgotten, unless the base is
the one already in use: then nothing happens. -/
def setBase (u : Mmu) (base : UInt32) : Mmu × List PagingEvent :=
  if u.tables.base = base then
    (u, [])
  else
    let (flushed, events) := flush { u with tables := { u.tables with base } }
    (flushed, .baseChanged u.tables.base base :: events)

/-- Start counting again from zero. -/
def resetStatistics (u : Mmu) : Mmu :=
  { u with stats := {} }

/-- The unit in one line: where its tables are, how many slots are in use, and its counters. -/
def summary (u : Mmu) : String :=
  "Mmu \x7b page_directory_base: " ++ toString u.tables.base.toNat ++
    ", frame_mask: " ++ toString u.tables.frameMask.toNat ++
    ", tlb: Tlb \x7b valid_entries: " ++ toString u.tlb.occupied ++
    " \x7d, stats: " ++ u.stats.summary ++ " \x7d"

end Mmu

end Moxie
