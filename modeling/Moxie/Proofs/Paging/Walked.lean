/-
# Moxie.Proofs.Paging.Walked — the reference bus, which walks the page tables on every access.

`WalkedMemory` has no lookaside buffer: its answers are functions of the page tables and the memory
alone.  A paged memory whose buffer is coherent gives the same answers, value for value and error
for error (`Coherent.result_read`, `Coherent.result_write`), and leaves the same tables and bytes
(`walked_read`, `Coherent.walked_write`).

Reading keeps it coherent.  Writing keeps it coherent when the store is clear of the footprint
(`Coherent.write`); no other store can make a remembered entry false.
-/
import Moxie.Proofs.Machine.Stores
import Moxie.Proofs.Paging.Lookaside

namespace Moxie

/-! ## The reference bus -/

/-- Physical memory behind page tables that are walked on every access. -/
@[ext]
structure WalkedMemory where
  tables : PageTables
  memory : Memory

namespace WalkedMemory

/-- The value of width `w` at a virtual address, zero-extended. -/
def read (q : WalkedMemory) (w : Width) (vaddr : UInt32) : Reply WalkedMemory UInt32 :=
  match q.tables.translate q.memory vaddr .read with
  | .error e => ⟨.error e, q, []⟩
  | .ok paddr => ⟨(q.memory.read w paddr).mapError .outOfRange, q, []⟩

/-- Write the low bytes of a value in width `w` at a virtual address. -/
def write (q : WalkedMemory) (w : Width) (vaddr v : UInt32) : Reply WalkedMemory Unit :=
  match q.tables.translate q.memory vaddr .write with
  | .error e => ⟨.error e, q, []⟩
  | .ok paddr =>
    match q.memory.write w paddr v with
    | .ok memory => ⟨.ok (), ⟨q.tables, memory⟩, []⟩
    | .error e => ⟨.error (.outOfRange e), q, []⟩

instance : Bus WalkedMemory where
  size q := q.memory.sizeWord
  read := read
  write := write

instance : PhysicalBus WalkedMemory where
  memory q := q.memory
  target q vaddr := q.tables.translate q.memory vaddr .write

@[simp]
theorem state_read (q : WalkedMemory) (w : Width) (vaddr : UInt32) :
    (q.read w vaddr).state = q := by
  unfold read
  split <;> rfl

@[simp]
theorem tables_write (q : WalkedMemory) (w : Width) (vaddr v : UInt32) :
    (q.write w vaddr v).state.tables = q.tables := by
  unfold write
  split
  · rfl
  · split <;> rfl

/-- Where the tables give an answer, a read is one of physical memory. -/
theorem result_read_of_translate {q : WalkedMemory} {w : Width} {vaddr paddr : UInt32}
    (h : q.tables.translate q.memory vaddr .read = .ok paddr) :
    (q.read w vaddr).result = (Bus.read q.memory w paddr).result := by
  rw [read, h]
  rfl

/-- Where the tables give an answer, a write is one of physical memory. -/
theorem write_of_translate {q : WalkedMemory} {w : Width} {vaddr paddr v : UInt32}
    (h : q.tables.translate q.memory vaddr .write = .ok paddr) :
    (q.write w vaddr v).result = (Bus.write q.memory w paddr v).result ∧
      (q.write w vaddr v).state = ⟨q.tables, (Bus.write q.memory w paddr v).state⟩ := by
  rw [write, h]
  dsimp only [Bus.write]
  cases q.memory.write w paddr v <;> exact ⟨rfl, rfl⟩

/-- Where they give none, nothing happens. -/
theorem write_of_error {q : WalkedMemory} {w : Width} {vaddr v : UInt32} {e : AccessError}
    (h : q.tables.translate q.memory vaddr .write = .error e) :
    q.write w vaddr v = ⟨.error e, q, []⟩ := by
  rw [write, h]

/-- A write changes the bytes of the store that it performs, and nothing when it fails. -/
theorem agreesOn_write {q : WalkedMemory} {w : Width} {vaddr v : UInt32} {s : Set Nat}
    (hclear : ∀ x ∈ PhysicalBus.performed q w vaddr (q.write w vaddr v).result, x.Avoids s) :
    Memory.AgreesOn s q.memory (q.write w vaddr v).state.memory := by
  unfold write at hclear ⊢
  cases htarget : q.tables.translate q.memory vaddr .write with
  | error e => exact .refl s q.memory
  | ok paddr =>
    rw [htarget] at hclear
    dsimp only at hclear ⊢
    cases hwrite : q.memory.write w paddr v with
    | error e => exact .refl s q.memory
    | ok memory =>
      rw [hwrite] at hclear
      dsimp only at hclear
      rw [PhysicalBus.performed_ok (show PhysicalBus.target q vaddr = .ok paddr from htarget)]
        at hclear
      refine (Memory.agreesOn_of_write hwrite).2.mono fun i hi => ?_
      have hmiss : paddr.toNat ≤ i → i < paddr.toNat + w.bytes → i ∉ s :=
        hclear _ (List.mem_singleton_self _) i
      show i < paddr.toNat ∨ paddr.toNat + w.bytes ≤ i
      by_contra hin
      exact hmiss (by omega) (by omega) hi

/-- The bytes that some walk from the base reads. -/
def footprint (q : WalkedMemory) : Set Nat :=
  q.tables.footprint q.memory

/-- A write that is clear of the footprint leaves it where it is. -/
theorem footprint_write {q : WalkedMemory} {w : Width} {vaddr v : UInt32}
    (hclear : ∀ x ∈ PhysicalBus.performed q w vaddr (q.write w vaddr v).result,
      x.Avoids q.footprint) :
    (q.write w vaddr v).state.footprint = q.footprint := by
  rw [footprint, tables_write]
  exact PageTables.footprint_congr (agreesOn_write hclear)

end WalkedMemory

/-! ## A coherent paged memory -/

namespace PagedMemory

/-- The same tables and bytes without the lookaside buffer. -/
def walked (p : PagedMemory) : WalkedMemory :=
  ⟨p.mmu.tables, p.memory⟩

/-- The lookaside buffer remembers nothing but what a walk now reads. -/
def Coherent (p : PagedMemory) : Prop :=
  p.mmu.Coherent p.memory

/-- The bytes that some walk from the current base reads. -/
def footprint (p : PagedMemory) : Set Nat :=
  p.walked.footprint

theorem coherent_ofMemory (m : Memory) (t : PageTables) : (ofMemory m t).Coherent :=
  Mmu.coherent_ofTables t m

variable {p : PagedMemory} {w : Width} {vaddr v : UInt32} {kind : AccessKind}

theorem resolve_eq (p : PagedMemory) (vaddr : UInt32) (kind : AccessKind) :
    p.resolve vaddr kind =
      ⟨(p.mmu.resolve p.memory vaddr kind).result,
        ⟨(p.mmu.resolve p.memory vaddr kind).state, p.memory⟩,
        (p.mmu.resolve p.memory vaddr kind).events⟩ := rfl

theorem Coherent.result_resolve (h : p.Coherent) (vaddr : UInt32) (kind : AccessKind) :
    (p.resolve vaddr kind).result = p.mmu.tables.translate p.memory vaddr kind :=
  Mmu.Coherent.result_resolve h vaddr kind

/-! ### Reading -/

theorem state_read (p : PagedMemory) (w : Width) (vaddr : UInt32) :
    (p.read w vaddr).state = ⟨(p.mmu.resolve p.memory vaddr .read).state, p.memory⟩ := by
  unfold read
  rw [resolve_eq]
  cases (p.mmu.resolve p.memory vaddr .read).result <;> rfl

/-- Reading changes neither the tables nor the bytes. -/
theorem walked_read (p : PagedMemory) (w : Width) (vaddr : UInt32) :
    (p.read w vaddr).state.walked = p.walked := by
  rw [state_read, walked, Mmu.tables_resolve]
  rfl

theorem Coherent.read (h : p.Coherent) (w : Width) (vaddr : UInt32) :
    (p.read w vaddr).state.Coherent := by
  rw [state_read]
  exact Mmu.Coherent.resolve h vaddr .read

theorem Coherent.result_read (h : p.Coherent) (w : Width) (vaddr : UInt32) :
    (p.read w vaddr).result = (p.walked.read w vaddr).result := by
  have hres : (p.mmu.resolve p.memory vaddr .read).result =
      p.mmu.tables.translate p.memory vaddr .read := h.result_resolve vaddr .read
  unfold PagedMemory.read WalkedMemory.read
  rw [resolve_eq, hres, walked]
  dsimp only
  cases p.mmu.tables.translate p.memory vaddr .read <;> rfl

/-! ### Writing -/

theorem mmu_write (p : PagedMemory) (w : Width) (vaddr v : UInt32) :
    (p.write w vaddr v).state.mmu = (p.mmu.resolve p.memory vaddr .write).state := by
  unfold write
  rw [resolve_eq]
  cases (p.mmu.resolve p.memory vaddr .write).result with
  | error e => rfl
  | ok paddr =>
    dsimp only
    cases p.memory.write w paddr v <;> rfl

theorem Coherent.write_eq_walked (h : p.Coherent) (w : Width) (vaddr v : UInt32) :
    (p.write w vaddr v).result = (p.walked.write w vaddr v).result ∧
      (p.write w vaddr v).state.memory = (p.walked.write w vaddr v).state.memory := by
  have hres : (p.mmu.resolve p.memory vaddr .write).result =
      p.mmu.tables.translate p.memory vaddr .write := h.result_resolve vaddr .write
  unfold PagedMemory.write WalkedMemory.write
  rw [resolve_eq, hres, walked]
  dsimp only
  cases p.mmu.tables.translate p.memory vaddr .write with
  | error e => exact ⟨rfl, rfl⟩
  | ok paddr =>
    dsimp only
    cases p.memory.write w paddr v <;> exact ⟨rfl, rfl⟩

theorem Coherent.result_write (h : p.Coherent) (w : Width) (vaddr v : UInt32) :
    (p.write w vaddr v).result = (p.walked.write w vaddr v).result :=
  (h.write_eq_walked w vaddr v).1

theorem Coherent.walked_write (h : p.Coherent) (w : Width) (vaddr v : UInt32) :
    (p.write w vaddr v).state.walked = (p.walked.write w vaddr v).state := by
  refine WalkedMemory.ext ?_ (h.write_eq_walked w vaddr v).2
  rw [WalkedMemory.tables_write, walked, mmu_write, Mmu.tables_resolve]
  rfl

/-- A coherent paged memory performs the stores of the reference bus. -/
theorem Coherent.performed_write (h : p.Coherent) (w : Width) (vaddr v : UInt32) :
    PhysicalBus.performed p w vaddr (p.write w vaddr v).result =
      PhysicalBus.performed p.walked w vaddr (p.walked.write w vaddr v).result := by
  rw [h.result_write]
  unfold PhysicalBus.performed
  rw [show PhysicalBus.target p vaddr = PhysicalBus.target p.walked vaddr from
    h.result_resolve vaddr .write]

/-- **A store that is clear of the footprint keeps coherence.** -/
theorem Coherent.write (h : p.Coherent) (w : Width) (vaddr v : UInt32)
    (hclear : ∀ x ∈ PhysicalBus.performed p w vaddr (p.write w vaddr v).result,
      x.Avoids p.footprint) :
    (p.write w vaddr v).state.Coherent := by
  rw [h.performed_write] at hclear
  rw [Coherent, mmu_write]
  refine (Mmu.Coherent.resolve h vaddr .write).congr ?_
  rw [Mmu.tables_resolve, (h.write_eq_walked w vaddr v).2]
  exact WalkedMemory.agreesOn_write (q := p.walked) hclear

end PagedMemory

/-! ## A small paged memory -/

namespace Small

/-- Sixty-four bytes.  The first two words are the last entry of a page directory and the last entry
of a page table; after them stand a store of `$r1` where `$r0` points, and a `brk`. -/
def memory : Memory where
  row := ⟨#[], #[0x09, 0xF0, 0xFF, 0xFF, 0x0B, 0x00, 0x00, 0x00, 0x23, 0x0B, 0x00, 0x35] ++
    Array.replicate 52 0, by decide⟩
  even_size := by decide
  four_le_size := by decide
  size_lt := by decide

/-- The directory and the table lie so that only their last entries are in memory.  So there is one
page, the last one of the address space; it is writable and starts at byte 8. -/
def tables : PageTables where
  base := 0xFFFFF004
  frameMask := 0xFFFFFFF8

/-- The memory behind the tables. -/
def paged : PagedMemory :=
  .ofMemory memory tables

/-- A memory of the small size to which the small tables give one page: the last entry of the
directory is its first word, and the last entry of the table, `leaf`, its second. -/
structure OnePage (m : Memory) (leaf : PageEntry) : Prop where
  size_eq : m.size = 64
  directory_eq : PageTables.readEntry m 0 = .ok ⟨0xFFFFF009⟩
  leaf_eq : PageTables.readEntry m 4 = .ok leaf

namespace OnePage

variable {m : Memory} {leaf : PageEntry} (h : OnePage m leaf) {v : UInt32}

include h

theorem directoryEntryAddress_eq (hfit : m.Fits (tables.directoryEntryAddress v) 4) :
    tables.directoryEntryAddress v = 0 := by
  have hlt := v.toNat_lt
  have haddr := tables.toNat_directoryEntryAddress v
  rw [show tables.base.toNat = 4294963204 from rfl] at haddr
  rw [Memory.Fits, h.size_eq] at hfit
  apply UInt32.toNat_inj.mp
  rw [UInt32.toNat_zero]
  omega

theorem eq_directory {d : PageEntry}
    (hd : PageTables.readEntry m (tables.directoryEntryAddress v) = .ok d) : d = ⟨0xFFFFF009⟩ := by
  rw [h.directoryEntryAddress_eq (PageTables.fits_of_readEntry hd), h.directory_eq] at hd
  cases hd
  rfl

/-- Of the table, the last two entries are in memory; the first of them is the directory entry. -/
theorem leafAddress_eq (hfit : m.Fits (tables.leafAddress ⟨0xFFFFF009⟩ v) 4) :
    tables.leafAddress ⟨0xFFFFF009⟩ v = 0 ∨ tables.leafAddress ⟨0xFFFFF009⟩ v = 4 := by
  have hlt := v.toNat_lt
  have haddr := tables.toNat_leafAddress ⟨0xFFFFF009⟩ v
  rw [show ((⟨0xFFFFF009⟩ : PageEntry).frame tables.frameMask).toNat = 4294963208 from rfl] at haddr
  rw [Memory.Fits, h.size_eq] at hfit
  rcases (show v.toNat / 4096 % 1024 = 1022 ∨ v.toNat / 4096 % 1024 = 1023 by omega) with hi | hi
  · refine Or.inl (UInt32.toNat_inj.mp ?_)
    show (tables.leafAddress ⟨0xFFFFF009⟩ v).toNat = 0
    omega
  · refine Or.inr (UInt32.toNat_inj.mp ?_)
    show (tables.leafAddress ⟨0xFFFFF009⟩ v).toNat = 4
    omega

theorem leaf_eq_of_walk {w : Walk} (hw : tables.walk m v = .ok w) : w.leaf = leaf := by
  obtain ⟨hd, -, hleaf, -, hframe⟩ := PageTables.walk_eq_ok_iff.mp hw
  rw [h.eq_directory hd] at hleaf
  rcases h.leafAddress_eq (PageTables.fits_of_readEntry hleaf) with haddr | haddr
  · -- the directory entry as a table entry names a frame outside memory
    rw [haddr, h.directory_eq] at hleaf
    rw [← Except.ok.inj hleaf, Memory.sizeWord, h.size_eq] at hframe
    exact absurd hframe (by decide)
  · rw [haddr, h.leaf_eq] at hleaf
    exact (Except.ok.inj hleaf).symm

theorem footprint_subset : tables.footprint m ⊆ {i | i < 8} := by
  rintro i ⟨v, ⟨hfit, -, hlt⟩ | ⟨d, hd, -, hfit, -, hlt⟩⟩
  · have hlt' : i < (tables.directoryEntryAddress v).toNat + 4 := hlt
    rw [h.directoryEntryAddress_eq hfit] at hlt'
    exact Nat.lt_trans hlt' (by decide)
  · obtain rfl := h.eq_directory hd
    have hlt' : i < (tables.leafAddress ⟨0xFFFFF009⟩ v).toNat + 4 := hlt
    rcases h.leafAddress_eq hfit with haddr | haddr
    · rw [haddr] at hlt'
      exact Nat.lt_trans hlt' (by decide)
    · rw [haddr] at hlt'
      exact hlt'

end OnePage

theorem onePage_memory : OnePage memory ⟨0x0B⟩ where
  size_eq := by decide
  directory_eq := by decide +kernel
  leaf_eq := by decide +kernel

theorem footprint_subset : paged.footprint ⊆ {i | i < 8} :=
  onePage_memory.footprint_subset

/-- A machine at the start of the page, with `$r0` pointing at its byte 16. -/
def machine : Machine PagedMemory Unit where
  registers := { (Registers.initial.set (.ofField 2) 0xFFFFF010).set (.ofField 3) 7
    with ip := 0x7FFFF800 }
  bus := paged
  observer := ()
  completed := 0

theorem stores_machine : machine.stores 2 = [⟨24, .long⟩] := by
  decide +kernel

end Small

end Moxie
