/-
# Moxie.Proofs.Paging.Protection — bytes that no writable page reaches.

A store goes where a writable page leads.  The bytes that stores can get at are therefore those in
`reach`: the frames of all writable pages, each taken a little past its end, because a store of
several bytes translates the address of its first byte only.

That the tables protect a set of bytes is a circle.  No store hits the set as long as the pages are
what they were, and the pages are what they were as long as no store hits the tables.  The invariant
`Guarded` takes both halves at once, for a set that includes the footprint of the tables, and every
access keeps it.
-/
import Moxie.Proofs.Paging.Walked

namespace Moxie

namespace PageTables

/-! ## Where accesses can go -/

/-- **`t.reach m kind`** — the bytes that some access of this kind can get at, wherever its address
translates: up to four of them from any byte of a frame on. -/
def reach (t : PageTables) (m : Memory) (kind : AccessKind) : Set Nat :=
  {i | ∃ v w, t.walk m v = .ok w ∧ (kind = .write → w.leaf.isWritable = true) ∧
    ∃ o < 4096, ∃ k < 4, i = ((w.leaf.frame t.frameMask).toNat + o) % 2 ^ 32 + k}

variable {t : PageTables} {m n : Memory} {v paddr : UInt32} {kind : AccessKind}

theorem mem_reach_of_translate (h : t.translate m v kind = .ok paddr) {k : Nat} (hk : k < 4) :
    paddr.toNat + k ∈ t.reach m kind := by
  obtain ⟨w, hw, hadmitted, rfl⟩ := translate_eq_ok_iff.mp h
  refine ⟨v, w, hw, hadmitted, (pageOffset v).toNat, ?_, k, hk, ?_⟩
  · rw [toNat_pageOffset]
    exact Nat.mod_lt _ (by decide)
  · rw [UInt32.toNat_add]

/-- The reach stands in the footprint. -/
theorem reach_congr (h : Memory.AgreesOn (t.footprint m) m n) (kind : AccessKind) :
    t.reach n kind = t.reach m kind := by
  unfold reach
  simp only [walk_congr h]

end PageTables

namespace PagedMemory

/-- **`p.reach kind`** — the bytes that an access of this kind through `p` can get at. -/
def reach (p : PagedMemory) (kind : AccessKind) : Set Nat :=
  p.mmu.tables.reach p.memory kind

variable {p q : PagedMemory} {s : Set Nat}

/-- A coherent unit performs stores within reach only. -/
theorem Coherent.avoids_of_unreached (h : p.Coherent) (hs : ∀ i ∈ s, i ∉ p.reach .write) (w : Width)
    (vaddr v : UInt32) :
    ∀ x ∈ PhysicalBus.performed p w vaddr (p.write w vaddr v).result, x.Avoids s := by
  intro x hx i hle hlt hi
  unfold PhysicalBus.performed at hx
  split at hx
  · rename_i paddr _ htarget
    obtain rfl := List.mem_singleton.mp hx
    have htranslate : p.mmu.tables.translate p.memory vaddr .write = .ok paddr := by
      rw [← h.result_resolve]
      exact htarget
    -- only the first byte is translated; the others lie within three bytes of it
    have hk : i - paddr.toNat < 4 := by
      have hbytes := w.bytes_le_four
      have hlt' : i < paddr.toNat + w.bytes := hlt
      omega
    have hreach := PageTables.mem_reach_of_translate htranslate hk
    rw [Nat.add_sub_cancel' hle] at hreach
    exact hs i hi hreach
  · cases hx

/-! ## The invariant -/

/-- **`p.Guarded s q`** — `q` is coherent and has the tables of `p`; and the bytes in `s`, which
include the footprint of `p` and are out of the reach of its stores, are those of `p`. -/
structure Guarded (s : Set Nat) (p q : PagedMemory) : Prop where
  coherent : q.Coherent
  tables_eq : q.mmu.tables = p.mmu.tables
  agreesOn : Memory.AgreesOn s p.memory q.memory
  footprint_subset : p.footprint ⊆ s
  unreached : ∀ i ∈ s, i ∉ p.reach .write

theorem Guarded.agreesOn_footprint (h : Guarded s p q) :
    Memory.AgreesOn (p.mmu.tables.footprint p.memory) p.memory q.memory :=
  h.agreesOn.mono h.footprint_subset

theorem Guarded.unreached_now (h : Guarded s p q) : ∀ i ∈ s, i ∉ q.reach .write := by
  rw [reach, h.tables_eq, PageTables.reach_congr h.agreesOn_footprint]
  exact h.unreached

theorem Guarded.footprint_eq (h : Guarded s p q) : q.footprint = p.footprint := by
  show q.mmu.tables.footprint q.memory = _
  rw [h.tables_eq]
  exact PageTables.footprint_congr h.agreesOn_footprint

theorem Guarded.read (h : Guarded s p q) (w : Width) (vaddr : UInt32) :
    Guarded s p (Bus.read q w vaddr).state := by
  have hwalked : (Bus.read q w vaddr).state.walked = q.walked := q.walked_read w vaddr
  refine ⟨h.coherent.read w vaddr, ?_, ?_, h.footprint_subset, h.unreached⟩
  · exact (congrArg WalkedMemory.tables hwalked).trans h.tables_eq
  · rw [show (Bus.read q w vaddr).state.memory = q.memory from
      congrArg WalkedMemory.memory hwalked]
    exact h.agreesOn

theorem Guarded.write (h : Guarded s p q) (w : Width) (vaddr v : UInt32) :
    Guarded s p (Bus.write q w vaddr v).state := by
  have hclear : ∀ x ∈ PhysicalBus.performed q w vaddr (q.write w vaddr v).result, x.Avoids s :=
    h.coherent.avoids_of_unreached h.unreached_now w vaddr v
  refine ⟨?_, ?_, ?_, h.footprint_subset, h.unreached⟩
  · -- the footprint is in `s`, so the store leaves what the buffer remembers true
    have hfootprint : ∀ x ∈ PhysicalBus.performed q w vaddr (q.write w vaddr v).result,
        x.Avoids q.footprint := by
      intro x hx i hle hlt hi
      rw [h.footprint_eq] at hi
      exact hclear x hx i hle hlt (h.footprint_subset hi)
    exact h.coherent.write w vaddr v hfootprint
  · show (q.write w vaddr v).state.mmu.tables = _
    rw [mmu_write, Mmu.tables_resolve]
    exact h.tables_eq
  · refine h.agreesOn.trans ?_
    rw [h.coherent.performed_write] at hclear
    show Memory.AgreesOn s q.memory (q.write w vaddr v).state.memory
    rw [(h.coherent.write_eq_walked w vaddr v).2]
    exact WalkedMemory.agreesOn_write (q := q.walked) hclear

end PagedMemory

/-- Accesses through the only page of a small memory start at its frame. -/
theorem Small.OnePage.frame_le_of_mem_reach {m : Memory} {leaf : PageEntry} (h : OnePage m leaf)
    (hframe : (leaf.frame tables.frameMask).toNat + 4096 ≤ 2 ^ 32) {kind : AccessKind} {i : Nat}
    (hi : i ∈ tables.reach m kind) : (leaf.frame tables.frameMask).toNat ≤ i := by
  obtain ⟨v, w, hw, -, o, ho, k, -, rfl⟩ := hi
  rw [h.leaf_eq_of_walk hw]
  omega

/-- The only page of the small memory starts after the tables. -/
theorem Small.unreached : ∀ i ∈ {i | i < 8}, i ∉ Small.paged.reach .write := by
  intro i hi hreach
  have hle : 8 ≤ i := onePage_memory.frame_le_of_mem_reach (by decide) hreach
  exact Nat.not_lt.mpr hle hi

/-! ## Runs -/

/-- **Write protection.**  Take a machine with a coherent buffer and a set of bytes that includes
the footprint of its page tables and that no writable page reaches.  However long it runs, and
whatever faults on the way, the bytes of the set stay what they are and every address goes on
translating as it did. -/
theorem Machine.protected_after {τ : Type} [Observer τ] (m : Machine PagedMemory τ) (s : Set Nat)
    (hcoherent : m.bus.Coherent) (hfootprint : m.bus.footprint ⊆ s)
    (hreach : ∀ i ∈ s, i ∉ m.bus.reach .write) (n : Nat) :
    (∀ i ∈ s, (m.after n).bus.memory.byteAt i = m.bus.memory.byteAt i) ∧
    ∀ v kind, ((m.after n).bus.resolve v kind).result = (m.bus.resolve v kind).result := by
  have hstart : PagedMemory.Guarded s m.bus m.bus :=
    ⟨hcoherent, rfl, .refl s _, hfootprint, hreach⟩
  have hend : PagedMemory.Guarded s m.bus (m.after n).bus :=
    Machine.invariant_after (fun h => h.read) (fun h => h.write) hstart n
  refine ⟨hend.agreesOn.byteAt_eq, ?_⟩
  intro v kind
  rw [hend.coherent.result_resolve, hcoherent.result_resolve, hend.tables_eq]
  exact PageTables.translate_congr hend.agreesOn_footprint v kind

/-- A machine that stores, and cannot store to its tables. -/
theorem Machine.small_protected_after :
    Small.machine.stores 2 = [⟨24, .long⟩] ∧
    (∀ i ∈ {i | i < 8},
      (Small.machine.after 2).bus.memory.byteAt i = Small.machine.bus.memory.byteAt i) ∧
    ∀ v kind,
      ((Small.machine.after 2).bus.resolve v kind).result =
        (Small.machine.bus.resolve v kind).result :=
  ⟨Small.stores_machine,
    Machine.protected_after Small.machine {i | i < 8} (PagedMemory.coherent_ofMemory _ _)
      Small.footprint_subset Small.unreached 2⟩

end Moxie
