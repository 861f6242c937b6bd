/-
# Moxie.Proofs.Paging.Slots — what a slot of the lookaside buffer can hold.

A walk checks that the leaf entry is present and that its frame starts in memory.  A hit checks
neither, and the page tables may have been rewritten since the entry was read.  That a hit is safe
nevertheless rests on an invariant of the buffer: a slot is empty, or it holds an entry that some
walk has passed (`TlbEntry.Placed`).  Only a completed walk fills a slot, the frame mask never
changes, and neither does the size of the memory, so every operation keeps it (`WellFormed.apply`).

The tag of an entry says in which slot it stands.  So no page is cached twice, and the slots in use
are counted by the pages that are cached (`Tlb.WellFormed.occupied_eq_ncard`).
-/
import Mathlib.Data.Set.Card
import Moxie.Proofs.Paging.History

namespace Moxie

/-! ## Slots -/

/-- **`e.Placed i mask size`** — `e` may stand in slot `i`: its tag is a page number that selects
the slot, and its leaf entry is one that a walk lets pass. -/
structure TlbEntry.Placed (e : TlbEntry) (i : Fin tlbSize) (mask : UInt32) (size : Nat) :
    Prop where
  /-- Page numbers have 20 bits. -/
  tag_lt : e.tag.toNat < 1048576
  slot_eq : e.tag.toNat % 1024 = i.val
  present : e.leaf.isPresent = true
  frame_lt : (e.leaf.frame mask).toNat < size

/-- **`b.WellFormed mask size`** — every slot is empty or holds an entry that may stand there. -/
def Tlb.WellFormed (b : Tlb) (mask : UInt32) (size : Nat) : Prop :=
  ∀ i, b.slot i = .empty ∨ (b.slot i).Placed i mask size

namespace TlbEntry.Placed

variable {e : TlbEntry} {i : Fin tlbSize} {mask : UInt32} {size : Nat}

theorem slotOf_eq (h : e.Placed i mask size) : Tlb.slotOf e.tag = i :=
  Fin.ext h.slot_eq

/-- The tag is the number of a page. -/
theorem exists_pageNumber_eq (h : e.Placed i mask size) : ∃ v, pageNumber v = e.tag := by
  have hlt := h.tag_lt
  refine ⟨UInt32.ofNat (e.tag.toNat * 4096), UInt32.toNat_inj.mp ?_⟩
  rw [toNat_pageNumber, UInt32.toNat_ofNat_of_lt' (by rw [UInt32.size]; omega)]
  omega

/-- What is placed is told from what is empty by its tag. -/
theorem isValid_eq (h : e.Placed i mask size) : e.isValid = true := by
  rcases h.exists_pageNumber_eq with ⟨v, hv⟩
  exact isValid_of_tag hv.symm

/-- A completed walk gives what may stand in the slot of the page. -/
theorem of_walk {t : PageTables} {m : Memory} {v : UInt32} {w : Walk} (hw : t.walk m v = .ok w) :
    (⟨pageNumber v, w.leaf⟩ : TlbEntry).Placed (Tlb.slotOf (pageNumber v)) t.frameMask m.size := by
  rcases PageTables.walk_eq_ok_iff.mp hw with ⟨_, _, _, hpresent, hframe⟩
  have hlt := v.toNat_lt
  constructor
  · show (pageNumber v).toNat < 1048576
    rw [toNat_pageNumber]
    omega
  · rfl
  · exact hpresent
  · rw [← Memory.toNat_sizeWord]
    exact UInt32.lt_iff_toNat_lt.mp hframe

end TlbEntry.Placed

namespace Tlb

variable {b : Tlb} {mask : UInt32} {size : Nat}

theorem wellFormed_empty (mask : UInt32) (size : Nat) : empty.WellFormed mask size := by
  intro i
  exact Or.inl (slot_empty i)

theorem WellFormed.insert (h : b.WellFormed mask size) {e : TlbEntry}
    (he : e.Placed (slotOf e.tag) mask size) : (b.insert e).WellFormed mask size := by
  intro i
  rw [slot_insert]
  split
  · rename_i hi
    rw [hi]
    exact Or.inr he
  · exact h i

theorem WellFormed.invalidate (h : b.WellFormed mask size) (page : UInt32) :
    (b.invalidate page).WellFormed mask size := by
  intro i
  rw [slot_invalidate]
  split
  · exact Or.inl rfl
  · exact h i

/-! ## Slots and pages -/

theorem WellFormed.placed_of_isValid (h : b.WellFormed mask size) {i : Fin tlbSize}
    (hi : (b.slot i).isValid = true) : (b.slot i).Placed i mask size := by
  rcases h i with hempty | hplaced
  · rw [hempty] at hi
    exact absurd hi (by decide)
  · exact hplaced

/-- What a lookup of a page finds may stand where it was found. -/
theorem WellFormed.placed_of_lookup (h : b.WellFormed mask size) {v : UInt32} {e : TlbEntry}
    (he : b.lookup (pageNumber v) = some e) : e.Placed (slotOf (pageNumber v)) mask size := by
  rcases lookup_eq_some_iff.mp he with ⟨rfl, htag⟩
  exact h.placed_of_isValid (TlbEntry.isValid_of_tag htag)

/-- Two slots in use hold different pages. -/
theorem WellFormed.slot_injective (h : b.WellFormed mask size) {i j : Fin tlbSize}
    (hi : (b.slot i).isValid = true) (htag : (b.slot i).tag = (b.slot j).tag) : i = j := by
  have hj : (b.slot j).isValid = true := by
    rw [TlbEntry.isValid, ← htag]
    exact hi
  rw [← (h.placed_of_isValid hi).slotOf_eq, htag, (h.placed_of_isValid hj).slotOf_eq]

/-- A page is cached when a slot in use has its number. -/
theorem WellFormed.isSome_lookup_iff (h : b.WellFormed mask size) (v : UInt32) :
    (b.lookup (pageNumber v)).isSome = true ↔
      ∃ i, (b.slot i).isValid = true ∧ (b.slot i).tag = pageNumber v := by
  constructor
  · intro hsome
    rcases Option.isSome_iff_exists.mp hsome with ⟨e, he⟩
    have hplaced := h.placed_of_lookup he
    rcases lookup_eq_some_iff.mp he with ⟨rfl, htag⟩
    exact ⟨slotOf (pageNumber v), hplaced.isValid_eq, htag⟩
  · rintro ⟨i, hi, htag⟩
    apply Option.isSome_iff_exists.mpr
    refine ⟨b.slot i, lookup_eq_some_iff.mpr ⟨?_, htag⟩⟩
    rw [← htag, (h.placed_of_isValid hi).slotOf_eq]

/-- The members of a vector that pass a test, counted by their positions. -/
theorem countP_eq_card {α : Type} {n : Nat} (xs : Vector α n) (p : α → Bool) :
    xs.countP p = (Finset.univ.filter fun i : Fin n => p xs[i] = true).card := by
  have hlist : xs.toList = (List.finRange n).map fun i => xs[i] := by
    rw [← List.ofFn_eq_map, ← Vector.toList_ofFn]
    exact congrArg Vector.toList Vector.ofFn_getElem.symm
  rw [← Vector.countP_toList, hlist, List.countP_map, List.countP_eq_length_filter,
    Finset.card_def, Finset.filter_val, Fin.univ_def, Multiset.filter_coe, Multiset.coe_card]
  simp [Function.comp_def]

/-- **As many slots are in use as pages are cached.** -/
theorem WellFormed.occupied_eq_ncard (h : b.WellFormed mask size) :
    b.occupied =
      Set.ncard {page | ∃ v, pageNumber v = page ∧ (b.lookup (pageNumber v)).isSome = true} := by
  have hpages : {page | ∃ v, pageNumber v = page ∧ (b.lookup (pageNumber v)).isSome = true} =
      (fun i => (b.slot i).tag) ''
        ((Finset.univ.filter fun i => (b.slot i).isValid = true : Finset (Fin tlbSize)) :
          Set (Fin tlbSize)) := by
    ext page
    simp only [Set.mem_ofPred_eq, Set.mem_image, Finset.coe_filter, Finset.mem_univ, true_and]
    constructor
    · rintro ⟨v, rfl, hsome⟩
      exact (h.isSome_lookup_iff v).mp hsome
    · rintro ⟨i, hi, rfl⟩
      rcases (h.placed_of_isValid hi).exists_pageNumber_eq with ⟨v, hv⟩
      exact ⟨v, hv, (h.isSome_lookup_iff v).mpr ⟨i, hi, hv.symm⟩⟩
  rw [hpages, Set.InjOn.ncard_image, Set.ncard_coe_finset]
  · exact countP_eq_card b.slots TlbEntry.isValid
  · intro i hi j _ htag
    exact h.slot_injective (by simpa using hi) htag

theorem occupied_le (b : Tlb) : b.occupied ≤ 1024 :=
  Vector.countP_le_size

end Tlb

/-! ## Keeping it -/

namespace Mmu

variable {u : Mmu} {size : Nat}

/-- The buffer is well-formed for the frame mask of the unit. -/
def WellFormed (u : Mmu) (size : Nat) : Prop :=
  u.tlb.WellFormed u.tables.frameMask size

theorem WellFormed.resolve {m : Memory} (h : u.WellFormed m.size) (v : UInt32) (kind : AccessKind) :
    (u.resolve m v kind).state.WellFormed m.size := by
  cases hc : u.cached v with
  | some e =>
    rw [resolve_of_cached hc]
    exact h
  | none =>
    cases hw : u.tables.walk m v with
    | error e =>
      rw [resolve_of_walk_error hc hw]
      exact h
    | ok w =>
      rw [resolve_of_walk_ok hc hw]
      exact Tlb.WellFormed.insert h (.of_walk hw)

theorem WellFormed.setBase (h : u.WellFormed size) (base : UInt32) :
    (u.setBase base).1.WellFormed size := by
  unfold Mmu.setBase
  split
  · exact h
  · exact Tlb.wellFormed_empty _ size

@[simp]
theorem frameMask_setBase (u : Mmu) (base : UInt32) :
    (u.setBase base).1.tables.frameMask = u.tables.frameMask := by
  unfold setBase
  split <;> rfl

/-- **What a translation comes to rests on an entry that is cached afterwards.** -/
theorem exists_cached_of_resolve {m : Memory} {v paddr : UInt32} {kind : AccessKind}
    (h : (u.resolve m v kind).result = .ok paddr) :
    ∃ leaf, (u.resolve m v kind).state.cached v = some ⟨pageNumber v, leaf⟩ ∧
      paddr = leaf.frame u.tables.frameMask + pageOffset v := by
  cases hc : u.cached v with
  | some e =>
    rw [resolve_of_cached hc] at h ⊢
    have htag : e.tag = pageNumber v := (Tlb.lookup_eq_some_iff.mp hc).2
    refine ⟨e.leaf, ?_, (PageTables.target_eq_ok_iff.mp h).2.symm⟩
    rw [← htag]
    exact hc
  | none =>
    cases hw : u.tables.walk m v with
    | error e =>
      rw [resolve_of_walk_error hc hw] at h
      exact absurd h (by simp)
    | ok w =>
      rw [resolve_of_walk_ok hc hw] at h ⊢
      exact ⟨w.leaf, Tlb.lookup_insert_self u.tlb ⟨pageNumber v, w.leaf⟩,
        (PageTables.target_eq_ok_iff.mp h).2.symm⟩

end Mmu

namespace PagedMemory

variable {p : PagedMemory}

/-- The buffer is well-formed for the memory that it stands before. -/
def WellFormed (p : PagedMemory) : Prop :=
  p.mmu.WellFormed p.memory.size

/-- The operation leaves the size of the memory as it is; no other than an edit could change it. -/
def KeepsSize (p : PagedMemory) (op : Operation) : Prop :=
  ∀ n, op = .edit n → n.size = p.memory.size

theorem size_write (p : PagedMemory) (w : Width) (vaddr v : UInt32) :
    (p.write w vaddr v).state.memory.size = p.memory.size := by
  unfold write
  rw [resolve_eq]
  cases (p.mmu.resolve p.memory vaddr .write).result with
  | error e => rfl
  | ok paddr =>
    dsimp only
    cases hwrite : p.memory.write w paddr v with
    | error e => rfl
    | ok n => exact (Memory.agreesOn_of_write hwrite).2.size_eq

theorem size_apply {op : Operation} (hop : p.KeepsSize op) :
    (p.apply op).memory.size = p.memory.size := by
  cases op with
  | read w vaddr => exact congrArg (·.memory.size) (state_read p w vaddr)
  | write w vaddr v => exact size_write p w vaddr v
  | edit n => exact hop n rfl
  | _ => rfl

theorem frameMask_apply (p : PagedMemory) (op : Operation) :
    (p.apply op).mmu.tables.frameMask = p.mmu.tables.frameMask := by
  cases op with
  | resolve vaddr kind => exact congrArg PageTables.frameMask (Mmu.tables_resolve ..)
  | read w vaddr =>
    show (p.read w vaddr).state.mmu.tables.frameMask = _
    rw [state_read, Mmu.tables_resolve]
  | write w vaddr v =>
    show (p.write w vaddr v).state.mmu.tables.frameMask = _
    rw [mmu_write, Mmu.tables_resolve]
  | setBase base => exact Mmu.frameMask_setBase p.mmu base
  | _ => rfl

/-- **One operation keeps every slot as it must be.** -/
theorem WellFormed.apply (h : p.WellFormed) {op : Operation} (hop : p.KeepsSize op) :
    (p.apply op).WellFormed := by
  rw [WellFormed, size_apply hop]
  cases op with
  | resolve vaddr kind => exact Mmu.WellFormed.resolve h vaddr kind
  | read w vaddr =>
    show (p.read w vaddr).state.mmu.WellFormed _
    rw [state_read]
    exact Mmu.WellFormed.resolve h vaddr .read
  | write w vaddr v =>
    show (p.write w vaddr v).state.mmu.WellFormed _
    rw [mmu_write]
    exact Mmu.WellFormed.resolve h vaddr .write
  | edit n => exact h
  | flush => exact Tlb.wellFormed_empty _ _
  | invalidate vaddr => exact Tlb.WellFormed.invalidate h (pageNumber vaddr)
  | setBase base => exact Mmu.WellFormed.setBase h base
  | resetStatistics => exact h

/-- **So does a history**, and it changes neither the size of the memory nor the frame mask. -/
theorem WellFormed.applyAll (h : p.WellFormed) {history : List Operation}
    (hsize : ∀ n, .edit n ∈ history → n.size = p.memory.size) :
    (p.applyAll history).WellFormed ∧ (p.applyAll history).memory.size = p.memory.size ∧
      (p.applyAll history).mmu.tables.frameMask = p.mmu.tables.frameMask := by
  induction history generalizing p with
  | nil => exact ⟨h, rfl, rfl⟩
  | cons op history ih =>
    have hop : p.KeepsSize op := by
      intro n hn
      rw [hn] at hsize
      exact hsize n List.mem_cons_self
    have hrest : ∀ n, .edit n ∈ history → n.size = (p.apply op).memory.size := by
      intro n hn
      rw [size_apply hop]
      exact hsize n (List.mem_cons_of_mem _ hn)
    rcases ih (h.apply hop) hrest with ⟨hwell, hmemory, hmask⟩
    refine ⟨hwell, ?_, ?_⟩
    · exact hmemory.trans (size_apply hop)
    · exact hmask.trans (frameMask_apply p op)

/-- A translation that succeeds uses a leaf entry that a walk has passed, be it long ago. -/
theorem WellFormed.uses_placed (h : p.WellFormed) {v paddr : UInt32} {kind : AccessKind}
    (hok : (p.resolve v kind).result = .ok paddr) :
    ∃ leaf, (p.resolve v kind).state.mmu.cached v = some ⟨pageNumber v, leaf⟩ ∧
      leaf.isPresent = true ∧ (leaf.frame p.mmu.tables.frameMask).toNat < p.memory.size ∧
      paddr = leaf.frame p.mmu.tables.frameMask + pageOffset v := by
  rcases Mmu.exists_cached_of_resolve hok with ⟨leaf, hcached, hpaddr⟩
  have hplaced := Tlb.WellFormed.placed_of_lookup (Mmu.WellFormed.resolve h v kind) hcached
  rw [Mmu.tables_resolve] at hplaced
  exact ⟨leaf, hcached, hplaced.present, hplaced.frame_lt, hpaddr⟩

/-- **What the slots hold, whatever was done.**  After any history of a new paged memory in which
the physical bytes may have been edited at will, every slot is empty or holds an entry that may
stand there.  No page has two slots, none matches an empty slot, and as many slots are in use as
pages are cached.  Every translation that succeeds, from a stale entry too, uses a leaf entry that
is present and whose frame starts in memory. -/
theorem slots_of_history (m : Memory) (t : PageTables) (history : List Operation)
    (hsize : ∀ n, .edit n ∈ history → n.size = m.size) :
    let p := (ofMemory m t).applyAll history
    p.memory.size = m.size ∧ p.mmu.tables.frameMask = t.frameMask ∧
      p.mmu.tlb.WellFormed p.mmu.tables.frameMask p.memory.size ∧
      (∀ i j, p.mmu.tlb.slot i ≠ .empty → (p.mmu.tlb.slot i).tag = (p.mmu.tlb.slot j).tag → i = j) ∧
      (∀ i v, p.mmu.tlb.slot i = .empty → (p.mmu.tlb.slot i).tag ≠ pageNumber v) ∧
      p.mmu.tlb.occupied =
        Set.ncard {page | ∃ v, pageNumber v = page ∧ (p.mmu.cached v).isSome = true} ∧
      p.mmu.tlb.occupied ≤ 1024 ∧
      ∀ v kind paddr, (p.resolve v kind).result = .ok paddr →
        ∃ leaf, (p.resolve v kind).state.mmu.cached v = some ⟨pageNumber v, leaf⟩ ∧
          leaf.isPresent = true ∧ (leaf.frame p.mmu.tables.frameMask).toNat < p.memory.size ∧
          paddr = leaf.frame p.mmu.tables.frameMask + pageOffset v := by
  intro p
  have hnew : (ofMemory m t).WellFormed := Tlb.wellFormed_empty t.frameMask m.size
  rcases hnew.applyAll hsize with ⟨hwell, hmemory, hmask⟩
  have hslots : p.mmu.tlb.WellFormed p.mmu.tables.frameMask p.memory.size := hwell
  refine ⟨hmemory, hmask, hslots, ?_, ?_, hslots.occupied_eq_ncard, Tlb.occupied_le _, ?_⟩
  · intro i j hi htag
    rcases hslots i with hempty | hplaced
    · exact absurd hempty hi
    · exact hslots.slot_injective hplaced.isValid_eq htag
  · intro i v hempty
    rw [hempty]
    exact (pageNumber_ne_invalidTag v).symm
  · intro v kind paddr hok
    exact hwell.uses_placed hok

end PagedMemory

namespace Small

/-- A page is read and then its page tables are overwritten. -/
def unmapped : List PagedMemory.Operation :=
  [.read .long 0xFFFFF010, .edit (memory.overlay 0 (List.replicate 64 0))]

theorem size_of_unmapped : ∀ n, .edit n ∈ unmapped → n.size = memory.size := by
  intro n hn
  rcases List.mem_cons.mp hn with hread | hedit
  · exact absurd hread (by simp)
  · rw [PagedMemory.Operation.edit.inj (List.mem_singleton.mp hedit)]
    exact Memory.size_overlay memory 0 _

/-- The page is still translated, by the entry that was read before, and its frame lies in
memory. -/
theorem slots_of_unmapped :
    let p := (PagedMemory.ofMemory memory tables).applyAll unmapped
    p.memory.bytes.toList = List.replicate 64 0 ∧
      (p.resolve 0xFFFFF010 .write).result = .ok 0x18 ∧
      ∃ leaf, (p.resolve 0xFFFFF010 .write).state.mmu.cached 0xFFFFF010 = some ⟨0xFFFFF, leaf⟩ ∧
        leaf.isPresent = true ∧ (leaf.frame p.mmu.tables.frameMask).toNat < p.memory.size ∧
        0x18 = leaf.frame p.mmu.tables.frameMask + pageOffset 0xFFFFF010 := by
  obtain ⟨-, -, -, -, -, -, -, huse⟩ :=
    PagedMemory.slots_of_history memory tables unmapped size_of_unmapped
  have hresult : (((PagedMemory.ofMemory memory tables).applyAll unmapped).resolve 0xFFFFF010
      .write).result = .ok 0x18 := by
    decide +kernel
  refine ⟨?_, hresult, huse 0xFFFFF010 .write 0x18 hresult⟩
  decide +kernel

end Small

end Moxie
