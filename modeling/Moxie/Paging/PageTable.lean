/-
# Moxie.Paging.PageTable — two-level page tables in physical memory.

A virtual address is cut into a directory index (10 bits), a table index (10 bits) and an offset in
the page (12 bits).  The directory and every table are rows of 32-bit entries; an entry holds a
physical address in its high bits and flags in its low bits.  The walk reads the directory entry,
then the leaf entry in the table it points to.

The default frame mask keeps bits 31 to 10 of an entry although pages are 4 KiB, so bits 10 and 11
belong to the frame address: frames need not start on a page boundary.

`PageTables.walk` is a function of the memory alone.  It says what an address *means*; the
lookaside buffer only remembers earlier answers of it.
-/
import Moxie.Paging.Access

namespace Moxie

/-! ## Cutting up addresses -/

/-- How many address bits select a byte in a page. -/
def pageShift : UInt32 := 12

/-- The size of a page in bytes. -/
def pageSize : UInt32 := 1 <<< pageShift

/-- The bits of an address that select a byte in a page. -/
def pageOffsetMask : UInt32 := pageSize - 1

/-- The bits of an entry that hold a frame address, unless configured otherwise. -/
def defaultFrameMask : UInt32 := 0xFFFFFC00

/-- Which directory entry covers an address. -/
def directoryIndex (vaddr : UInt32) : UInt32 :=
  vaddr >>> 22

/-- Which table entry covers an address. -/
def tableIndex (vaddr : UInt32) : UInt32 :=
  (vaddr >>> pageShift) &&& 0x3FF

/-- The byte of its page that an address names. -/
def pageOffset (vaddr : UInt32) : UInt32 :=
  vaddr &&& pageOffsetMask

/-- The number of the page that an address lies on. -/
def pageNumber (vaddr : UInt32) : UInt32 :=
  vaddr >>> pageShift

/-! ## Entries -/

/-- An entry of a page directory or page table. -/
structure PageEntry where
  /-- The entry as it stands in memory. -/
  word : UInt32
  deriving DecidableEq

namespace PageEntry

/-- The flag of an entry that is in use. -/
def presentFlag : UInt32 := 1

/-- The flag of a page that may be written. -/
def writableFlag : UInt32 := 2

/-- The flag of a page for the supervisor; it is kept but not enforced. -/
def supervisorFlag : UInt32 := 4

/-- All flags that have a meaning. -/
def knownFlags : UInt32 := presentFlag ||| writableFlag ||| supervisorFlag

/-- **`ofFrame frame flags`** — the entry that points at `frame`, with `flags` as given. -/
def ofFrame (frame flags : UInt32) : PageEntry :=
  ⟨(frame &&& defaultFrameMask) ||| flags⟩

/-- The entry is in use. -/
def isPresent (e : PageEntry) : Bool :=
  e.word &&& presentFlag != 0

/-- The page may be written. -/
def isWritable (e : PageEntry) : Bool :=
  e.word &&& writableFlag != 0

/-- The flags that have a meaning. -/
def flags (e : PageEntry) : UInt32 :=
  e.word &&& knownFlags

/-- **`e.frame mask`** — the address that the entry points at. -/
def frame (e : PageEntry) (mask : UInt32) : UInt32 :=
  e.word &&& mask

end PageEntry

/-! ## The walk -/

/-- Where the page tables are and how their entries are read. -/
structure PageTables where
  /-- The physical address of the page directory. -/
  base : UInt32 := 0
  /-- The bits of an entry that hold a frame address. -/
  frameMask : UInt32 := defaultFrameMask
  deriving DecidableEq

/-- The two entries that a complete walk has read. -/
structure Walk where
  /-- The directory entry. -/
  directory : PageEntry
  /-- The table entry, which names the frame. -/
  leaf : PageEntry
  deriving DecidableEq

namespace PageTables

/-- Where the directory entry for an address lies. -/
def directoryEntryAddress (t : PageTables) (vaddr : UInt32) : UInt32 :=
  t.base + directoryIndex vaddr * 4

/-- Where the leaf entry for an address lies, given the directory entry. -/
def leafAddress (t : PageTables) (directory : PageEntry) (vaddr : UInt32) : UInt32 :=
  directory.frame t.frameMask + tableIndex vaddr * 4

/-- The entry at a physical address. -/
def readEntry (m : Memory) (addr : UInt32) : Except AccessError PageEntry :=
  match m.read .long addr with
  | .ok word => .ok ⟨word⟩
  | .error e => .error (.outOfRange e)

/-- **`t.walk m vaddr`** — the entries that map `vaddr`.  Both must lie in memory and be present,
and the frame must start in memory. -/
def walk (t : PageTables) (m : Memory) (vaddr : UInt32) : Except AccessError Walk :=
  match readEntry m (t.directoryEntryAddress vaddr) with
  | .error e => .error e
  | .ok directory =>
    if directory.isPresent then
      match readEntry m (t.leafAddress directory vaddr) with
      | .error e => .error e
      | .ok leaf =>
        if leaf.isPresent then
          if leaf.frame t.frameMask < m.sizeWord then
            .ok ⟨directory, leaf⟩
          else
            .error (.frameOutOfRange vaddr (leaf.frame t.frameMask))
        else
          .error (.pageNotPresent vaddr)
    else
      .error (.directoryEntryNotPresent vaddr)

/-- **`t.target leaf vaddr kind`** — where a page with this leaf entry has `vaddr`, if it admits the
access. -/
def target (t : PageTables) (leaf : PageEntry) (vaddr : UInt32) (kind : AccessKind) :
    Except AccessError UInt32 :=
  if kind = .write ∧ leaf.isWritable = false then
    .error (.pageReadOnly vaddr)
  else
    .ok (leaf.frame t.frameMask + pageOffset vaddr)

end PageTables

end Moxie
