/-
# Moxie.Paging.Tlb — the lookaside buffer, a direct-mapped cache of leaf entries.

There are 1024 slots, and a page may only be cached in the slot that its number selects modulo 1024.
An empty slot holds a tag that no page number equals (page numbers have 20 bits), so one comparison
tells both whether a slot is in use and whether it holds the page looked for.

Nothing here looks at memory: an entry stays until it is overwritten by another page of the same
slot, invalidated or flushed, whatever happens to the page table it came from.
-/
import Moxie.Paging.PageTable

namespace Moxie

/-! ## Slots -/

/-- The number of slots. -/
abbrev tlbSize : Nat := 1024

/-- A slot's contents: a page number and the leaf entry of that page. -/
structure TlbEntry where
  /-- The page number, or `invalidTag`. -/
  tag : UInt32
  /-- The leaf entry as it was read. -/
  leaf : PageEntry
  deriving DecidableEq

namespace TlbEntry

/-- The tag of an empty slot. -/
def invalidTag : UInt32 := 0xFFFFFFFF

/-- The contents of an empty slot. -/
def empty : TlbEntry := ⟨invalidTag, ⟨0⟩⟩

/-- The slot is in use. -/
def isValid (e : TlbEntry) : Bool :=
  e.tag != invalidTag

end TlbEntry

/-- The lookaside buffer. -/
structure Tlb where
  /-- The slots. -/
  slots : Vector TlbEntry tlbSize
  deriving DecidableEq

namespace Tlb

/-- The slot that a page number selects. -/
def slotOf (tag : UInt32) : Fin tlbSize :=
  Fin.ofNat tlbSize tag.toNat

/-- The buffer with every slot empty. -/
def empty : Tlb :=
  ⟨Vector.replicate tlbSize TlbEntry.empty⟩

/-- What a slot holds. -/
def slot (t : Tlb) (i : Fin tlbSize) : TlbEntry :=
  t.slots[i]

/-- **`t.lookup tag`** — the entry cached for a page number. -/
def lookup (t : Tlb) (tag : UInt32) : Option TlbEntry :=
  let entry := t.slot (slotOf tag)
  if entry.tag = tag then some entry else none

/-- Put an entry in the slot its tag selects, whatever was there. -/
def insert (t : Tlb) (e : TlbEntry) : Tlb :=
  ⟨t.slots.set (slotOf e.tag) e⟩

/-- Empty the slot that a page number selects, if it holds that page. -/
def invalidate (t : Tlb) (tag : UInt32) : Tlb :=
  if (t.slot (slotOf tag)).tag = tag then ⟨t.slots.set (slotOf tag) TlbEntry.empty⟩ else t

/-- How many slots are in use. -/
def occupied (t : Tlb) : Nat :=
  t.slots.countP TlbEntry.isValid

@[simp]
theorem slot_empty (i : Fin tlbSize) : empty.slot i = TlbEntry.empty := by
  simp [slot, empty]

theorem slot_insert (t : Tlb) (e : TlbEntry) (i : Fin tlbSize) :
    (t.insert e).slot i = if i = slotOf e.tag then e else t.slot i := by
  simp only [slot, insert, Fin.getElem_fin, Vector.getElem_set, Fin.ext_iff, eq_comm (a := i.val)]

theorem slot_invalidate (t : Tlb) (tag : UInt32) (i : Fin tlbSize) :
    (t.invalidate tag).slot i =
      if (t.slot i).tag = tag ∧ i = slotOf tag then TlbEntry.empty else t.slot i := by
  unfold invalidate
  by_cases hi : i = slotOf tag
  · subst hi
    split
    · rename_i ht
      rw [if_pos ⟨ht, rfl⟩]
      simp [slot]
    · rename_i ht
      simp [ht]
  · have hne : (slotOf tag).val ≠ i.val := fun h => hi (Fin.ext h.symm)
    split <;> simp [hi, slot, hne]

/-- Looking up what was just put in finds it. -/
theorem lookup_insert_self (t : Tlb) (e : TlbEntry) : (t.insert e).lookup e.tag = some e := by
  simp [lookup, slot_insert]

end Tlb

end Moxie
