/-
# Moxie.Paging.Mapping — writing page tables.

A run of pages is mapped by one directory entry, which points at a page table, and one table entry
per page.  The entries are written straight into physical memory, so a unit that has cached older
ones goes on using those until it is told to forget them.
-/
import Moxie.Paging.PageTable

namespace Moxie

/-- Consecutive pages to be mapped to consecutive frames through one page table. -/
structure PageRun where
  /-- An address on the first page. -/
  vaddr : UInt32
  /-- Where the page table is. -/
  table : UInt32
  /-- The frame of the first page. -/
  frame : UInt32
  /-- The flags of the table entries. -/
  flags : UInt32
  /-- How many pages there are. -/
  count : Nat
  /-- The flags of the directory entry. -/
  directoryFlags : UInt32
  deriving DecidableEq

namespace PageRun

/-- The table entries of the run: where each goes, and the entry. -/
def leaves (r : PageRun) : List (UInt32 × PageEntry) :=
  (List.range r.count).map fun i =>
    let delta := UInt32.ofNat i * pageSize
    (r.table + tableIndex (r.vaddr + delta) * 4, .ofFrame (r.frame + delta) r.flags)

/-- All entries of the run, the directory entry first. -/
def entries (r : PageRun) (t : PageTables) : List (UInt32 × PageEntry) :=
  (t.directoryEntryAddress r.vaddr, .ofFrame r.table r.directoryFlags) :: r.leaves

end PageRun

namespace Memory

/-- Write page entries in order, up to the first that does not lie in memory; the result says
whether one did not. -/
def storeEntries (m : Memory) : List (UInt32 × PageEntry) → Memory × Except OutOfRange Unit
  | [] => (m, .ok ())
  | (addr, e) :: rest =>
    match m.write .long addr e.word with
    | .ok n => n.storeEntries rest
    | .error e => (m, .error e)

/-- **`m.mapPages t r`** — `m` with the run `r` mapped in the page tables `t`. -/
def mapPages (m : Memory) (t : PageTables) (r : PageRun) : Memory × Except OutOfRange Unit :=
  m.storeEntries (r.entries t)

end Memory

end Moxie
