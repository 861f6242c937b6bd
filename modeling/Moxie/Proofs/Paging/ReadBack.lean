/-
# Moxie.Proofs.Paging.ReadBack — what was stored is read back, also over its own page tables.

A store to a virtual address may land in the very entries that map the address.  What it stored can
be read back nonetheless.  The translation of the store has left the page in the buffer, and the
buffer is asked first, so the reads that follow go where the store went whatever the tables say by
then (`read_of_cached`).

A store is a window of bytes from one physical address on, and may reach past the end of its page.
A narrower read takes in a part of the window (`Memory.Holds.read_within`), if the address that it
begins at is on the page; for there the buffer adds the same offset as the window does
(`pageOffset_add`).
-/
import Moxie.Proofs.Memory.Window
import Moxie.Proofs.Paging.Retry
import Moxie.Proofs.Paging.Slots

namespace Moxie

/-! ## Parts of a window -/

/-- **The bytes of a word in two parts**, the later ones as the bytes of a quotient. -/
theorem LittleEndian.encode_add (i n : Nat) (v : UInt32) :
    encode (i + n) v = encode i v ++ encode n (UInt32.ofNat (v.toNat / 256 ^ i)) := by
  induction i generalizing v with
  | zero =>
    rw [Nat.zero_add, Nat.pow_zero, Nat.div_one, UInt32.ofNat_toNat, encode, List.nil_append]
  | succ i ih =>
    have hquotient : (v / 256).toNat / 256 ^ i = v.toNat / 256 ^ (i + 1) := by
      rw [UInt32.toNat_div, Nat.div_div_eq_div_mul, Nat.pow_succ']
      rfl
    rw [Nat.add_right_comm, encode, encode, ih, hquotient]
    rfl

/-- Inside the window of a stored value a narrower read gives the bytes that it covers. -/
theorem Memory.Holds.read_within {m : Memory} {w r : Width} {addr x : UInt32} {i : Nat}
    (h : m.Holds addr.toNat (LittleEndian.encode w.bytes x)) (hi : i + r.bytes ≤ w.bytes) :
    ∃ y, m.read r (addr + UInt32.ofNat i) = .ok y ∧
      y.toNat = x.toNat / 256 ^ i % 256 ^ r.bytes := by
  obtain ⟨rest, hrest⟩ : ∃ rest, w.bytes = i + (r.bytes + rest) :=
    ⟨w.bytes - (i + r.bytes), by omega⟩
  have haddr : (addr + UInt32.ofNat i).toNat = addr.toNat + i :=
    h.toNat_add (by rw [LittleEndian.length_encode]; omega)
  rw [hrest, LittleEndian.encode_add, LittleEndian.encode_add, holds_append, holds_append,
    LittleEndian.length_encode, ← haddr] at h
  obtain ⟨y, hread, hy⟩ := h.2.1.read
  have hquotient : x.toNat / 256 ^ i < UInt32.size :=
    Nat.lt_of_le_of_lt (Nat.div_le_self ..) x.toNat_lt
  exact ⟨y, hread, by rw [hy, UInt32.toNat_ofNat_of_lt' hquotient]⟩

/-- On one page, addresses and offsets grow alike. -/
theorem pageOffset_add {v d : UInt32} (h : pageNumber (v + d) = pageNumber v) :
    pageOffset (v + d) = pageOffset v + d := by
  have hpage := congrArg UInt32.toNat h
  have hv := v.toNat_lt
  simp only [toNat_pageNumber, UInt32.toNat_add] at hpage
  apply UInt32.toNat_inj.mp
  simp only [toNat_pageOffset, UInt32.toNat_add]
  omega

namespace PagedMemory

variable {p : PagedMemory} {w r : Width} {v x : UInt32}

/-! ## Hits -/

/-- **`p.hit`** — a paged memory after a lookup that found its page: it has been counted. -/
def hit (p : PagedMemory) : PagedMemory where
  mmu := { p.mmu with
    stats := { p.mmu.stats with
      lookups := p.mmu.stats.lookups + 1
      hits := p.mmu.stats.hits + 1 } }
  memory := p.memory

/-- A read on a cached page goes where its entry says, and asks nothing of the tables. -/
theorem read_of_cached {e : TlbEntry} (h : p.mmu.cached v = some e) {y : UInt32}
    (hread : p.memory.read w (e.leaf.frame p.mmu.tables.frameMask + pageOffset v) = .ok y) :
    p.read w v = ⟨.ok y, p.hit, []⟩ := by
  unfold read
  rw [resolve_eq, Mmu.resolve_of_cached h, PageTables.target_read]
  dsimp only
  rw [hread]
  rfl

/-! ## Stores -/

/-- A store that succeeds has written memory where the page is that is now cached. -/
theorem exists_of_write_ok (h : (p.write w v x).result = .ok ()) :
    ∃ leaf paddr, (p.resolve v .write).result = .ok paddr ∧
      paddr = leaf.frame p.mmu.tables.frameMask + pageOffset v ∧
      (p.write w v x).state.mmu.cached v = some ⟨pageNumber v, leaf⟩ ∧
      p.memory.write w paddr x = .ok (p.write w v x).state.memory := by
  unfold write at h ⊢
  rw [resolve_eq] at h ⊢
  cases hresolve : (p.mmu.resolve p.memory v .write).result with
  | error e =>
    rw [hresolve] at h
    cases h
  | ok paddr =>
    rw [hresolve] at h
    obtain ⟨leaf, hcached, hpaddr⟩ := Mmu.exists_cached_of_resolve hresolve
    dsimp only at h ⊢
    cases hwrite : p.memory.write w paddr x with
    | error e =>
      rw [hwrite] at h
      cases h
    | ok n => exact ⟨leaf, paddr, rfl, hpaddr, hcached, hwrite⟩

/-- A store that fails has written nothing. -/
theorem memory_of_write_error {e : AccessError} (h : (p.write w v x).result = .error e) :
    (p.write w v x).state.memory = p.memory := by
  unfold write at h ⊢
  rw [resolve_eq] at h ⊢
  cases hresolve : (p.mmu.resolve p.memory v .write).result with
  | error e => rfl
  | ok paddr =>
    rw [hresolve] at h
    dsimp only at h ⊢
    cases hwrite : p.memory.write w paddr x with
    | error e => rfl
    | ok n =>
      rw [hwrite] at h
      cases h

/-- **A store is read back.**  A store that succeeds puts its bytes from the translated address on,
and touches no other byte; and a read that follows within it, from an address on the page of the
store, hits and gives the bytes that it covers, even if the store went over the entries that map the
page or past its end.  A store that fails, for whatever reason, touches no byte. -/
theorem read_after_write (p : PagedMemory) (w : Width) (v x : UInt32) :
    let q := p.write w v x
    (q.result = .ok () →
      ∃ paddr, (p.resolve v .write).result = .ok paddr ∧
        q.state.memory.Holds paddr.toNat (LittleEndian.encode w.bytes x) ∧
        Memory.AgreesOn {j | j < paddr.toNat ∨ paddr.toNat + w.bytes ≤ j} p.memory q.state.memory ∧
        ∀ i (r : Width), i + r.bytes ≤ w.bytes → pageNumber (v + UInt32.ofNat i) = pageNumber v →
          ∃ y, q.state.read r (v + UInt32.ofNat i) = ⟨.ok y, q.state.hit, []⟩ ∧
            y.toNat = x.toNat / 256 ^ i % 256 ^ r.bytes) ∧
    ∀ e, q.result = .error e → q.state.memory = p.memory := by
  intro q
  refine ⟨fun hok => ?_, fun e he => memory_of_write_error he⟩
  obtain ⟨leaf, paddr, hresolve, hpaddr, hcached, hwrite⟩ := exists_of_write_ok hok
  have hholds : q.state.memory.Holds paddr.toNat (LittleEndian.encode w.bytes x) := by
    obtain ⟨hfit, hmemory⟩ := Memory.storeBytes_eq_ok_iff.mp hwrite
    rw [hmemory]
    exact Memory.holds_overlay hfit
  refine ⟨paddr, hresolve, hholds, (Memory.agreesOn_of_write hwrite).2, ?_⟩
  intro i r hi hpage
  obtain ⟨y, hread, hy⟩ := hholds.read_within hi
  refine ⟨y, read_of_cached ((Mmu.cached_congr hpage).trans hcached) ?_, hy⟩
  have htables : q.state.mmu.tables = p.mmu.tables := by
    show (p.write w v x).state.mmu.tables = _
    rw [mmu_write, Mmu.tables_resolve]
  rw [htables, pageOffset_add hpage, ← UInt32.add_assoc, ← hpaddr]
  exact hread

/-- Eight bytes behind a unit.  The first four are the directory entry of page 0 and its table
entry, which maps the page to themselves, present and writable. -/
def ouroboros : PagedMemory :=
  .ofMemory ⟨⟨#[], #[3, 0, 0, 0, 0, 0, 0, 0], by decide⟩, by decide, by decide, by decide⟩ {}

/-- The entry is overwritten, and no walk finds the page any more; what overwrote it is read
back. -/
theorem ouroboros_read_back :
    let q := ouroboros.write .long 0 0xAABBCCD0
    q.result = .ok () ∧
      q.state.mmu.tables.walk q.state.memory 0 = .error (.directoryEntryNotPresent 0) ∧
      ∃ y, q.state.read .short 1 = ⟨.ok y, q.state.hit, []⟩ ∧ y.toNat = 0xBBCC := by
  intro q
  have hok : q.result = .ok () := by decide +kernel
  obtain ⟨paddr, -, -, -, hback⟩ := (read_after_write ouroboros .long 0 0xAABBCCD0).1 hok
  obtain ⟨y, hread, hy⟩ := hback 1 .short (by decide) (by decide)
  exact ⟨hok, by decide +kernel, y, hread, hy⟩

end PagedMemory

end Moxie
