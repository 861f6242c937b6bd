/-
# Moxie.Machine.Bus — the memory as the processor sees it.

The processor needs three things of its memory: how large it is, a read and a write, each of any
width at any address.  Whether addresses are physical or go through page tables is the business of
the bus; the processor is the same over both, and over any other bus.
-/
import Moxie.Paging.Virtual

namespace Moxie

/-- A memory that a processor can run on. -/
class Bus (β : Type) where
  /-- The size of the memory in bytes; the first stack slot lies four bytes below it. -/
  size : β → UInt32
  /-- The value of a width at an address, zero-extended. -/
  read : β → Width → UInt32 → Reply β UInt32
  /-- Write the low bytes of a value in a width at an address. -/
  write : β → Width → UInt32 → UInt32 → Reply β Unit

/-- Addresses on a bare memory are physical. -/
instance : Bus Memory where
  size := Memory.sizeWord
  read m w addr := ⟨(m.read w addr).mapError .outOfRange, m, []⟩
  write m w addr v :=
    match m.write w addr v with
    | .ok m => ⟨.ok (), m, []⟩
    | .error e => ⟨.error (.outOfRange e), m, []⟩

/-- Addresses on a paged memory are virtual. -/
instance : Bus PagedMemory where
  size p := p.memory.sizeWord
  read := PagedMemory.read
  write := PagedMemory.write

/-- One of two kinds of bus is a bus. -/
instance {β γ : Type} [Bus β] [Bus γ] : Bus (β ⊕ γ) where
  size
    | .inl b => Bus.size b
    | .inr c => Bus.size c
  read
    | .inl b, w, addr => (Bus.read b w addr).map .inl id
    | .inr c, w, addr => (Bus.read c w addr).map .inr id
  write
    | .inl b, w, addr, v => (Bus.write b w addr v).map .inl id
    | .inr c, w, addr, v => (Bus.write c w addr v).map .inr id

end Moxie
