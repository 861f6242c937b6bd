/-
# Moxie.Paging.Virtual — physical memory seen through the page tables.

An access of several bytes resolves the address of its *first* byte only.  The other bytes are the
ones that follow physically, also when the access runs past the end of its page; they are judged
against the end of memory like any physical access.
-/
import Moxie.Paging.Mmu

namespace Moxie

/-- Physical memory behind a memory management unit. -/
structure PagedMemory where
  mmu : Mmu
  memory : Memory
  deriving DecidableEq

namespace PagedMemory

/-- Memory behind a unit that remembers nothing yet. -/
def ofMemory (memory : Memory) (tables : PageTables) : PagedMemory :=
  ⟨.ofTables tables, memory⟩

/-- **`p.resolve vaddr kind`** — the physical address of `vaddr`. -/
def resolve (p : PagedMemory) (vaddr : UInt32) (kind : AccessKind) : Reply PagedMemory UInt32 :=
  let ⟨mmu, memory⟩ := p
  match mmu.resolve memory vaddr kind with
  | ⟨result, mmu, events⟩ => ⟨result, ⟨mmu, memory⟩, events⟩

/-- **`p.read w vaddr`** — the value of width `w` at the virtual address `vaddr`, zero-extended. -/
def read (p : PagedMemory) (w : Width) (vaddr : UInt32) : Reply PagedMemory UInt32 :=
  match p.resolve vaddr .read with
  | ⟨.error e, p, events⟩ => ⟨.error e, p, events⟩
  | ⟨.ok paddr, p, events⟩ => ⟨(p.memory.read w paddr).mapError .outOfRange, p, events⟩

/-- **`p.write w vaddr v`** — write the low bytes of `v` at the virtual address `vaddr` in width
`w`. -/
def write (p : PagedMemory) (w : Width) (vaddr v : UInt32) : Reply PagedMemory Unit :=
  match p.resolve vaddr .write with
  | ⟨.error e, p, events⟩ => ⟨.error e, p, events⟩
  | ⟨.ok paddr, ⟨mmu, memory⟩, events⟩ =>
    match memory.write w paddr v with
    | .ok memory => ⟨.ok (), ⟨mmu, memory⟩, events⟩
    | .error e => ⟨.error (.outOfRange e), ⟨mmu, memory⟩, events⟩

end PagedMemory

end Moxie
