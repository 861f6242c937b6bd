/-
# Moxie.Proofs.Paging.Containment — where a translation lands, and when that is below the frame.

The physical address of an access is the frame of its page plus the offset in the page, and the sum
is taken modulo `2 ^ 32`.  All that is checked of the frame is that it starts in memory, once, by
the walk that found it (`exists_walk_of_resolve`); a frame may start as little as 1024 bytes below
the end of the address space.  So it is the size of the memory that keeps an access from falling
below its frame.  Up to `2 ^ 32 - 3072` bytes no sum wraps around, and `resolve_within_frame` says
so.  In every larger memory one can (`resolve_steep`).
-/
import Moxie.Proofs.Paging.Entries
import Moxie.Proofs.Paging.Slots

namespace Moxie

/-- Under the default mask a frame starts at a multiple of 1024. -/
theorem PageEntry.toNat_frame_default (e : PageEntry) :
    (e.frame defaultFrameMask).toNat = 1024 * (e.word.toNat / 1024) := by
  rw [frame, UInt32.toNat_and]
  exact and_high_bits (k := 10) e.word.toNat_lt

namespace PagedMemory

variable {p : PagedMemory} {v : UInt32} {e : TlbEntry}

/-! ## The walk behind an answer -/

/-- The unit is never asked to resolve an address against another memory. -/
theorem memory_of_request {op : Operation} {n : Memory} {a : UInt32} {kind : AccessKind}
    (h : p.request op = some (.resolve n a kind)) : n = p.memory := by
  cases op <;> cases h <;> rfl

/-- What is cached after an operation was cached before, or the walk of the page finds it. -/
theorem walk_or_cached_of_apply {op : Operation} (h : (p.apply op).mmu.cached v = some e) :
    (∃ w, p.mmu.tables.walk p.memory v = .ok w ∧ w.leaf = e.leaf) ∨ p.mmu.cached v = some e := by
  rw [mmu_apply] at h
  cases hasked : p.request op with
  | none =>
    rw [hasked] at h
    exact Or.inr h
  | some asked =>
    rw [hasked] at h
    have hone : (p.mmu.apply asked).cached v = some e := h
    rcases (Mmu.cached_apply_eq_some_iff ..).mp hone with ⟨hfill, -⟩ | ⟨hbefore, -⟩
    · obtain ⟨n, a, kind, w, rfl, hpage, -, hwalk, hleaf⟩ := hfill
      obtain rfl := memory_of_request hasked
      exact Or.inl ⟨w, (PageTables.walk_eq_ok_congr hpage).mp hwalk, hleaf⟩
    · exact Or.inr hbefore

/-- **What is cached was found by a walk**, made before some operation of the history. -/
theorem exists_walk_of_cached (hnew : p.mmu.cached v = none) {history : List Operation}
    (h : (p.applyAll history).mmu.cached v = some e) :
    ∃ before op rest w, history = before ++ op :: rest ∧
      (p.applyAll before).mmu.tables.walk (p.applyAll before).memory v = .ok w ∧
      w.leaf = e.leaf := by
  induction history using List.reverseRecOn with
  | nil =>
    rw [applyAll, List.foldl_nil, hnew] at h
    exact absurd h (by simp)
  | append_singleton history op ih =>
    rw [applyAll, List.foldl_append] at h
    rcases walk_or_cached_of_apply (p := p.applyAll history) h with ⟨w, hwalk, hleaf⟩ | hbefore
    · exact ⟨history, op, [], w, rfl, hwalk, hleaf⟩
    · obtain ⟨before, op', rest, w, rfl, hwalk, hleaf⟩ := ih hbefore
      exact ⟨before, op', rest ++ [op], w, by simp, hwalk, hleaf⟩

/-- **Behind every translation there is a walk**, now or earlier in the history, and the answer is
the frame that it found plus the offset. -/
theorem exists_walk_of_resolve (hnew : p.mmu.cached v = none) {history : List Operation}
    {kind : AccessKind} {paddr : UInt32}
    (h : ((p.applyAll history).resolve v kind).result = .ok paddr) :
    ∃ before w, before <+: history ∧
      (p.applyAll before).mmu.tables.walk (p.applyAll before).memory v = .ok w ∧
      paddr = w.leaf.frame (p.applyAll history).mmu.tables.frameMask + pageOffset v := by
  obtain ⟨leaf, hcached, hpaddr⟩ := Mmu.exists_cached_of_resolve h
  have hafter : (p.applyAll (history ++ [.resolve v kind])).mmu.cached v =
      some ⟨pageNumber v, leaf⟩ := by
    rw [applyAll, List.foldl_append]
    exact hcached
  obtain ⟨before, op, rest, w, hsplit, hwalk, rfl⟩ := exists_walk_of_cached hnew hafter
  refine ⟨before, w, ?_, hwalk, hpaddr⟩
  -- the operation that made the walk is this resolve or one before it
  rcases rest.eq_nil_or_concat with rfl | ⟨kept, last, rfl⟩
  · exact ⟨[], by rw [List.append_nil, (List.append_inj' hsplit rfl).1]⟩
  · rw [List.concat_eq_append, ← List.cons_append, ← List.append_assoc] at hsplit
    exact ⟨op :: kept, (List.append_inj' hsplit rfl).1.symm⟩

/-! ## The sum of frame and offset -/

/-- A frame and an offset are added modulo `2 ^ 32`. -/
theorem toNat_frame_add_pageOffset (frame v : UInt32) :
    (frame + pageOffset v).toNat = (frame.toNat + v.toNat % 4096) % 4294967296 := by
  rw [UInt32.toNat_add, toNat_pageOffset]

/-- **`p.Lands frame v paddr`** — `paddr` is where a page that starts at `frame` has `v`. -/
structure Lands (p : PagedMemory) (frame : Nat) (v paddr : UInt32) : Prop where
  frame_lt : frame < p.memory.size
  toNat_eq : paddr.toNat = (frame + v.toNat % 4096) % 4294967296
  /-- A sum that does not wrap around is the address. -/
  toNat_of_lt : frame + v.toNat % 4096 < 4294967296 → paddr.toNat = frame + v.toNat % 4096
  /-- Then no byte of an access lies below the frame. -/
  above : frame + v.toNat % 4096 < 4294967296 →
    ∀ len i, p.memory.Covers paddr len i → frame ≤ i
  /-- In a memory of at most `2 ^ 32 - 3072` bytes no sum wraps around. -/
  small : p.memory.size ≤ 4294964224 → frame + v.toNat % 4096 < 4294967296
  /-- A sum that wraps around falls below the frame, which is one of the last three. -/
  wraps : 4294967296 ≤ frame + v.toNat % 4096 → paddr.toNat < frame ∧
    (frame = 4294964224 ∨ frame = 4294965248 ∨ frame = 4294966272)

/-- A frame that starts in memory takes its page. -/
theorem lands_of_frame {frame : UInt32} (hlt : frame.toNat < p.memory.size)
    (haligned : frame.toNat % 1024 = 0) (v : UInt32) :
    p.Lands frame.toNat v (frame + pageOffset v) := by
  have hsum := toNat_frame_add_pageOffset frame v
  have hword := frame.toNat_lt
  refine ⟨hlt, hsum, ?_, ?_, ?_, ?_⟩
  · intro hbelow
    exact hsum.trans (Nat.mod_eq_of_lt hbelow)
  · intro hbelow
    rintro len i ⟨-, hle, -⟩
    omega
  · intro hsmall
    omega
  · intro hbeyond
    omega

/-- **Where a translation lands.**  After any history of a new paged memory with the default tables,
in which the physical bytes may have been edited at will, a translation that succeeds leads to the
frame that a walk found, now or earlier, and compared with the size of the memory; the offset in the
page is added modulo `2 ^ 32`, and `Lands` says when that is below the frame. -/
theorem resolve_within_frame (m : Memory) (history : List Operation)
    (hsize : ∀ n, .edit n ∈ history → n.size = m.size) (v : UInt32) (kind : AccessKind)
    {paddr : UInt32}
    (hok : (((ofMemory m {}).applyAll history).resolve v kind).result = .ok paddr) :
    let p := (ofMemory m {}).applyAll history
    p.memory.size = m.size ∧
      ∃ before w, before <+: history ∧
        let q := (ofMemory m {}).applyAll before
        q.mmu.tables.walk q.memory v = .ok w ∧ q.memory.size = m.size ∧
          p.Lands (w.leaf.frame q.mmu.tables.frameMask).toNat v paddr := by
  intro p
  have hnew : (ofMemory m {}).mmu.cached v = none := Tlb.lookup_empty (pageNumber_ne_invalidTag v)
  obtain ⟨before, w, hprefix, hwalk, hpaddr⟩ := exists_walk_of_resolve hnew hok
  -- neither the size of the memory nor the mask changes along the way
  have hkept : ∀ done, done <+: history →
      ((ofMemory m {}).applyAll done).memory.size = m.size ∧
        ((ofMemory m {}).applyAll done).mmu.tables.frameMask = defaultFrameMask := by
    intro done hdone
    have hwell : (ofMemory m {}).WellFormed := Tlb.wellFormed_empty defaultFrameMask m.size
    exact (hwell.applyAll fun n hn => hsize n (hdone.subset hn)).2
  obtain ⟨hmemory, hmask⟩ := hkept history (List.prefix_refl history)
  obtain ⟨hmemory', hmask'⟩ := hkept before hprefix
  refine ⟨hmemory, before, w, hprefix, hwalk, hmemory', ?_⟩
  have hlt : (w.leaf.frame defaultFrameMask).toNat < p.memory.size := by
    obtain ⟨-, -, -, -, hframe⟩ := PageTables.walk_eq_ok_iff.mp hwalk
    rw [UInt32.lt_iff_toNat_lt, Memory.toNat_sizeWord, hmemory', hmask'] at hframe
    exact hframe.trans_eq hmemory.symm
  have haligned : (w.leaf.frame defaultFrameMask).toNat % 1024 = 0 := by
    rw [PageEntry.toNat_frame_default]
    exact Nat.mul_mod_right ..
  rw [hpaddr, hmask, hmask']
  exact lands_of_frame hlt haligned v

/-- The first entry serves as the directory, and leads to the beginning of memory as a page table.
Page 1 has the frame at 1024, of which four bytes are there. -/
def offPage : Memory where
  row := ⟨#[], List.toArray <| ([0x03, 0x00, 0x00, 0x00, 0x03, 0x04, 0x00, 0x00] : List UInt8) ++
    List.replicate 1020 0, by decide +kernel⟩
  even_size := by decide +kernel
  four_le_size := by decide +kernel
  size_lt := by decide +kernel

/-- The page is read, and then its page table is overwritten. -/
def wiped : List Operation :=
  [.read .byte 4096, .edit (offPage.overlay 0 (List.replicate 8 0))]

/-- The third byte of the page is still found in the frame that the walk of the read has passed. -/
theorem offPage_within_frame :
    let p := (ofMemory offPage {}).applyAll wiped
    (∀ n, .edit n ∈ wiped → n.size = offPage.size) ∧ (p.resolve 4098 .write).result = .ok 1026 ∧
      ∃ before w, before <+: wiped ∧
        let q := (ofMemory offPage {}).applyAll before
        q.mmu.tables.walk q.memory 4098 = .ok w ∧
          p.Lands (w.leaf.frame q.mmu.tables.frameMask).toNat 4098 1026 := by
  have hsize : ∀ n, .edit n ∈ wiped → n.size = offPage.size := by
    intro n hn
    rcases List.mem_cons.mp hn with hread | hedit
    · exact absurd hread (by simp)
    · rw [Operation.edit.inj (List.mem_singleton.mp hedit)]
      exact Memory.size_overlay offPage 0 _
  have hok : (((ofMemory offPage {}).applyAll wiped).resolve 4098 .write).result = .ok 1026 := by
    decide +kernel
  obtain ⟨-, before, w, hprefix, hwalk, -, hlands⟩ :=
    resolve_within_frame offPage wiped hsize 4098 .write hok
  exact ⟨hsize, hok, before, w, hprefix, hwalk, hlands⟩

/-! ## Memories in which the sum wraps around -/

/-- A size that memories may have, and so large that the last three frames can start in memory. -/
def IsSteep (size : Nat) : Prop :=
  size % 2 = 0 ∧ 4294964224 < size ∧ size < UInt32.size

instance (size : Nat) : Decidable (IsSteep size) :=
  inferInstanceAs (Decidable (_ ∧ _))

/-- An entry of the page directory, and one of the page table at 4096: page 0 has the first frame of
the last three. -/
def steepEntries : List (UInt32 × PageEntry) :=
  [(0, ⟨0x1001⟩), (4096, ⟨0xFFFFF401⟩)]

/-- A memory of zeros. -/
def steepBlank (size : Nat) (h : IsSteep size) : Memory where
  row := .zeros size
  even_size := by rw [ByteRow.size_zeros]; exact h.1
  four_le_size := by rw [ByteRow.size_zeros]; exact Nat.le_trans (by decide) (Nat.le_of_lt h.2.1)
  size_lt := by rw [ByteRow.size_zeros]; exact h.2.2

/-- **`steep size`** — a memory of `size` bytes that holds these page tables and otherwise zeros.
It is told by `readEntry_steep`, never by going through its bytes. -/
@[irreducible]
def steep (size : Nat) (h : IsSteep size) : Memory :=
  ((steepBlank size h).storeEntries steepEntries).1

section Steep

variable (size : Nat) (h : IsSteep size)

theorem size_steepBlank : (steepBlank size h).size = size :=
  ByteRow.size_zeros size

theorem stored_steep : (steepBlank size h).Stored steepEntries (steep size h) := by
  have hfits : ∀ x ∈ steepEntries, (steepBlank size h).Fits x.1 4 := by
    intro x hx
    have hlow := h.2.1
    have hx' : x.1.toNat + 4 ≤ 4100 := by
      rcases List.mem_cons.mp hx with rfl | hx
      · decide
      · obtain rfl := List.mem_singleton.mp hx
        decide
    rw [Memory.Fits, size_steepBlank]
    omega
  obtain ⟨n, hstore, hstored⟩ := Memory.exists_stored hfits
  rw [steep, hstore]
  exact hstored

theorem size_steep : (steep size h).size = size :=
  (stored_steep size h).size_eq.trans (size_steepBlank size h)

/-- The entries lie apart, so both can be read back. -/
theorem readEntry_steep :
    PageTables.readEntry (steep size h) 0 = .ok ⟨0x1001⟩ ∧
      PageTables.readEntry (steep size h) 4096 = .ok ⟨0xFFFFF401⟩ := by
  have hholds := (stored_steep size h).holds
  constructor
  · apply hholds (0, ⟨0x1001⟩) List.mem_cons_self
    intro y hy
    rcases List.mem_cons.mp hy with rfl | hy
    · exact Or.inl rfl
    · obtain rfl := List.mem_singleton.mp hy
      exact Or.inr (Or.inr (by decide))
  · apply hholds (4096, ⟨0xFFFFF401⟩) (List.mem_cons_of_mem _ (List.mem_singleton_self _))
    intro y hy
    rcases List.mem_cons.mp hy with rfl | hy
    · exact Or.inr (Or.inl (by decide))
    · exact Or.inl (List.mem_singleton.mp hy)

theorem walk_steep :
    ({} : PageTables).walk (steep size h) 3072 = .ok ⟨⟨0x1001⟩, ⟨0xFFFFF401⟩⟩ := by
  apply PageTables.walk_eq_ok_iff.mpr
  obtain ⟨hdirectory, hleaf⟩ := readEntry_steep size h
  refine ⟨hdirectory, by decide, hleaf, by decide, ?_⟩
  rw [UInt32.lt_iff_toNat_lt, Memory.toNat_sizeWord, size_steep]
  exact h.2.1

/-- **In every memory so large a translation can fall below the frame**: this one falls to zero. -/
theorem resolve_steep : ((ofMemory (steep size h) {}).resolve 3072 .read).result = .ok 0 := by
  rw [(coherent_ofMemory (steep size h) {}).result_resolve]
  refine PageTables.translate_eq_ok_iff.mpr ⟨_, walk_steep size h, by decide, ?_⟩
  show (⟨0xFFFFF401⟩ : PageEntry).frame defaultFrameMask + pageOffset 3072 = 0
  decide

end Steep

/-- Two bytes of the frame lie in memory, and byte 3072 of its page is found below it, at zero. -/
theorem steep_below_frame :
    let p := ofMemory (steep 4294964226 (by decide)) {}
    ∃ w, p.mmu.tables.walk p.memory 3072 = .ok w ∧ p.memory.size = 4294964226 ∧
      (w.leaf.frame p.mmu.tables.frameMask).toNat = 4294964224 ∧
      (p.resolve 3072 .read).result = .ok 0 ∧
      (0 : UInt32).toNat ≠
        (w.leaf.frame p.mmu.tables.frameMask).toNat + (3072 : UInt32).toNat % 4096 := by
  intro p
  have hframe : ((⟨0xFFFFF401⟩ : PageEntry).frame defaultFrameMask).toNat = 4294964224 := by decide
  refine ⟨_, walk_steep 4294964226 (by decide), size_steep 4294964226 (by decide), hframe,
    resolve_steep 4294964226 (by decide), ?_⟩
  show (0 : UInt32).toNat ≠ ((⟨0xFFFFF401⟩ : PageEntry).frame defaultFrameMask).toNat + _
  rw [hframe]
  decide

end PagedMemory

end Moxie
