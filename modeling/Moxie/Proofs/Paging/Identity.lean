/-
# Moxie.Proofs.Paging.Identity — page tables that map every page to itself.

Under tables that map all of memory to itself, writably, and nothing else, a paged memory is as good
as the bare memory it is made of.  A processor on the one and a processor on the other stay in the
same state as long as the run keeps its stores clear of the tables.

The pages decide what an access comes to.  On a page that starts in memory the translation of an
address is the address itself, so both sides read, write and run past the end of memory alike, also
when the last page is cut short.  On a page that starts past the end there is no walk and no memory:
both sides fault, but for different reasons, and `IdentityErrors` says which.
-/
import Moxie.Proofs.Paging.Walked

namespace Moxie

namespace PageTables

/-! ## Identity maps -/

/-- **`t.IsIdentity m`** — the tables map every page that starts in `m` to itself, present and
writable, and no other page at all. -/
structure IsIdentity (t : PageTables) (m : Memory) : Prop where
  below : ∀ v, (pageNumber v).toNat * 4096 < m.size →
    ∃ w, t.walk m v = .ok w ∧ (w.leaf.frame t.frameMask).toNat = (pageNumber v).toNat * 4096 ∧
      w.leaf.isWritable = true
  above : ∀ v w, t.walk m v = .ok w → (pageNumber v).toNat * 4096 < m.size

/-- How a failed access of the bare memory shows on the paged one: by the same error, or, when the
first byte lies on a page past the end of memory, by the error of walking that page. -/
def IdentityErrors (t : PageTables) (m : Memory) (e e' : AccessError) : Prop :=
  e = e' ∨ ∃ addr len, e = .outOfRange ⟨addr, len, m.size⟩ ∧
    m.size ≤ (pageNumber addr).toNat * 4096 ∧ t.walk m addr = .error e'

theorem IdentityErrors.refl (t : PageTables) (m : Memory) (e : AccessError) :
    t.IdentityErrors m e e :=
  Or.inl rfl

variable {t : PageTables} {m n : Memory} {v : UInt32}

/-- A page and an offset in it make up the address. -/
theorem pageNumber_mul_add_pageOffset (v : UInt32) :
    (pageNumber v).toNat * 4096 + (pageOffset v).toNat = v.toNat := by
  rw [toNat_pageNumber, toNat_pageOffset]
  omega

theorem IsIdentity.translate_below (h : t.IsIdentity m) (hmn : Memory.AgreesOn (t.footprint m) m n)
    (hv : (pageNumber v).toNat * 4096 < m.size) (kind : AccessKind) :
    t.translate n v kind = .ok v := by
  obtain ⟨w, hw, hframe, hwritable⟩ := h.below v hv
  rw [translate_congr hmn]
  refine translate_eq_ok_iff.mpr ⟨w, hw, fun _ => hwritable, UInt32.toNat_inj.mp ?_⟩
  rw [UInt32.toNat_add, hframe, pageNumber_mul_add_pageOffset]
  exact Nat.mod_eq_of_lt v.toNat_lt

theorem IsIdentity.translate_above (h : t.IsIdentity m) (hmn : Memory.AgreesOn (t.footprint m) m n)
    (hv : m.size ≤ (pageNumber v).toNat * 4096) :
    ∃ e, t.walk m v = .error e ∧ ∀ kind, t.translate n v kind = .error e := by
  cases hw : t.walk m v with
  | ok w =>
    have hlt := h.above v w hw
    omega
  | error e =>
    refine ⟨e, rfl, ?_⟩
    intro kind
    rw [translate_congr hmn, translate, hw]

end PageTables

/-! ## The bare memory and the reference bus -/

section Accesses

variable {t : PageTables} {m b : Memory} {v : UInt32}

/-- An access on a page past the end does not fit. -/
theorem Memory.size_lt_of_above (hsize : b.size = m.size)
    (hv : m.size ≤ (pageNumber v).toNat * 4096) (w : Width) : b.size < v.toNat + w.bytes := by
  have hsplit := PageTables.pageNumber_mul_add_pageOffset v
  have hpos := w.bytes_pos
  omega

theorem agree_read_of_identity (h : t.IsIdentity m) (hb : Memory.AgreesOn (t.footprint m) m b)
    (w : Width) (v : UInt32) :
    Agree (t.IdentityErrors m) (Bus.read b w v).result ((WalkedMemory.mk t b).read w v).result := by
  by_cases hv : (pageNumber v).toNat * 4096 < m.size
  · rw [WalkedMemory.result_read_of_translate (q := ⟨t, b⟩) (h.translate_below hb hv .read)]
    exact .of_eq (PageTables.IdentityErrors.refl t m) rfl
  · have habove : m.size ≤ (pageNumber v).toNat * 4096 := Nat.le_of_not_lt hv
    obtain ⟨e, hwalk, htranslate⟩ := h.translate_above hb habove
    have hflat : (Bus.read b w v).result = .error (.outOfRange ⟨v, w.bytes, m.size⟩) := by
      have hread : b.readBytes v w.bytes = .error ⟨v, w.bytes, m.size⟩ :=
        Memory.readBytes_eq_error_iff.mpr
          ⟨Memory.size_lt_of_above hb.size_eq habove w, by rw [hb.size_eq]⟩
      show ((b.read w v).mapError _) = _
      rw [Memory.read, hread]
      rfl
    rw [hflat, WalkedMemory.read, htranslate]
    exact .error (Or.inr ⟨v, w.bytes, rfl, habove, hwalk⟩)

/-- A write through the identity is the same write, or fails on both sides. -/
theorem agree_write_of_identity (h : t.IsIdentity m) (hb : Memory.AgreesOn (t.footprint m) m b)
    (w : Width) (v x : UInt32) :
    Agree (t.IdentityErrors m) (Bus.write b w v x).result
        ((WalkedMemory.mk t b).write w v x).result ∧
      ((WalkedMemory.mk t b).write w v x).state = ⟨t, (Bus.write b w v x).state⟩ ∧
      PhysicalBus.performed (WalkedMemory.mk t b) w v ((WalkedMemory.mk t b).write w v x).result =
        PhysicalBus.performed b w v (Bus.write b w v x).result := by
  by_cases hv : (pageNumber v).toNat * 4096 < m.size
  · have htranslate : t.translate b v .write = .ok v := h.translate_below hb hv .write
    obtain ⟨hresult, hstate⟩ :=
      WalkedMemory.write_of_translate (q := ⟨t, b⟩) (w := w) (v := x) htranslate
    refine ⟨?_, hstate, ?_⟩
    · rw [hresult]
      exact .of_eq (PageTables.IdentityErrors.refl t m) rfl
    · rw [hresult]
      unfold PhysicalBus.performed
      rw [show PhysicalBus.target (WalkedMemory.mk t b) v = PhysicalBus.target b v from htranslate]
  · have habove : m.size ≤ (pageNumber v).toNat * 4096 := Nat.le_of_not_lt hv
    obtain ⟨e, hwalk, htranslate⟩ := h.translate_above hb habove
    have hflat : Bus.write b w v x = ⟨.error (.outOfRange ⟨v, w.bytes, m.size⟩), b, []⟩ := by
      have hwrite : b.write w v x = .error ⟨v, w.bytes, m.size⟩ :=
        Memory.write_eq_error_iff.mpr
          ⟨Memory.size_lt_of_above hb.size_eq habove w, by rw [hb.size_eq]⟩
      dsimp only [Bus.write]
      rw [hwrite]
    rw [hflat, WalkedMemory.write_of_error (q := ⟨t, b⟩) (htranslate .write)]
    exact ⟨.error (Or.inr ⟨v, w.bytes, rfl, habove, hwalk⟩), rfl, rfl⟩

end Accesses

/-! ## The simulation -/

/-- A bare memory beside a paged one that is made of it.  `m` is the memory at the start, of which
the tables still stand. -/
structure Memory.Beneath (t : PageTables) (m b : Memory) (p : PagedMemory) : Prop where
  coherent : p.Coherent
  walked_eq : p.walked = ⟨t, b⟩
  agreesOn : Memory.AgreesOn (t.footprint m) m b

/-- The bare memory on the left, the paged one on the right.  Nothing is asked of the observers. -/
def identitySimulation (σ τ : Type) [Observer σ] [Observer τ] {t : PageTables} {m : Memory}
    (h : t.IsIdentity m) : AvoidingSimulation Memory σ PagedMemory τ (t.footprint m) where
  World b _ p _ := Memory.Beneath t m b p
  Errors := t.IdentityErrors m
  notify hbeneath _ := hbeneath
  read := by
    rintro b _ p _ ⟨hcoherent, hwalked, hb⟩ w v
    have hagree := agree_read_of_identity h hb w v
    rw [← hwalked, ← hcoherent.result_read] at hagree
    exact ⟨hagree, hcoherent.read w v, (p.walked_read w v).trans hwalked, hb⟩
  write := by
    rintro b _ p _ ⟨hcoherent, hwalked, hb⟩ w v x hclear
    obtain ⟨hagree, hstate, hperformed⟩ := agree_write_of_identity h hb w v x
    have hfootprint : p.footprint = t.footprint m := by
      rw [PagedMemory.footprint, hwalked]
      exact PageTables.footprint_congr hb
    -- the flat store is the paged one, so it misses the tables on both sides
    have hkept : Memory.AgreesOn (t.footprint m) (WalkedMemory.mk t b).memory
        ((WalkedMemory.mk t b).write w v x).state.memory := by
      refine WalkedMemory.agreesOn_write ?_
      rwa [hperformed]
    rw [hstate] at hkept
    rw [← hperformed, ← hwalked, ← hcoherent.performed_write, ← hfootprint] at hclear
    rw [← hwalked] at hagree hstate
    rw [← hcoherent.result_write] at hagree
    exact ⟨hagree, hcoherent.write w v x hclear, (hcoherent.walked_write w v x).trans hstate,
      hb.trans hkept⟩

theorem snapshot_eq_of_beneath {σ τ : Type} [Observer σ] [Observer τ] {t : PageTables} {m : Memory}
    {h : t.IsIdentity m} {flat : Machine Memory σ} {paged : Machine PagedMemory τ}
    (hmatch : (identitySimulation σ τ h).Matches flat paged) : flat.snapshot = paged.snapshot := by
  have hmemory : flat.bus = paged.bus.memory :=
    (congrArg WalkedMemory.memory hmatch.world.walked_eq).symm
  rw [Machine.snapshot, Machine.snapshot, hmatch.registers, hmatch.completed]
  exact congrArg (Snapshot.mk _ _) hmemory

/-! ## A small identity map -/

namespace SmallIdentity

/-- A page table at byte 1024 and the directory at byte 1030, where the memory ends after one entry.
So there is one page, and it is cut short.  It holds a store of `$r1` where `$r0` points, and a
`brk`. -/
def memory : Memory where
  row := ⟨#[], List.toArray <| ([0x23, 0x0B, 0x00, 0x35] : List UInt8) ++ List.replicate 1020 0 ++
    [0x03, 0x00, 0x00, 0x00, 0x00, 0x00, 0x01, 0x04, 0x00, 0x00], by decide +kernel⟩
  even_size := by decide +kernel
  four_le_size := by decide +kernel
  size_lt := by decide +kernel

def tables : PageTables where
  base := 1030

/-- Registers at the start of memory, with `$r0` pointing at byte 16. -/
def registers : Registers :=
  (Registers.initial.set (.ofField 2) 16).set (.ofField 3) 7

theorem size_memory : memory.size = 1034 := by
  decide +kernel

theorem directoryEntryAddress_eq {v : UInt32} (h : memory.Fits (tables.directoryEntryAddress v) 4) :
    v.toNat < 4194304 ∧ tables.directoryEntryAddress v = 1030 := by
  have hlt := v.toNat_lt
  have haddr := tables.toNat_directoryEntryAddress v
  rw [show tables.base.toNat = 1030 from rfl] at haddr
  rw [Memory.Fits, size_memory, haddr] at h
  have hfirst : v.toNat < 4194304 := by omega
  refine ⟨hfirst, UInt32.toNat_inj.mp ?_⟩
  show (tables.directoryEntryAddress v).toNat = 1030
  omega

theorem directory_eq {v : UInt32} {d : PageEntry}
    (h : PageTables.readEntry memory (tables.directoryEntryAddress v) = .ok d) : d = ⟨0x401⟩ := by
  have hfirst : PageTables.readEntry memory 1030 = .ok ⟨0x401⟩ := by decide +kernel
  rw [(directoryEntryAddress_eq (PageTables.fits_of_readEntry h)).2, hfirst] at h
  exact (Except.ok.inj h).symm

/-- Two entries of the table are in memory. -/
theorem leafAddress_eq {v : UInt32} (h : memory.Fits (tables.leafAddress ⟨0x401⟩ v) 4) :
    (v.toNat / 4096 % 1024 = 0 ∧ tables.leafAddress ⟨0x401⟩ v = 1024) ∨
      tables.leafAddress ⟨0x401⟩ v = 1028 := by
  have haddr := tables.toNat_leafAddress ⟨0x401⟩ v
  rw [show ((⟨0x401⟩ : PageEntry).frame tables.frameMask).toNat = 1024 from rfl] at haddr
  rw [Memory.Fits, size_memory, haddr] at h
  rcases (show v.toNat / 4096 % 1024 = 0 ∨ v.toNat / 4096 % 1024 = 1 by omega) with hi | hi
  · refine Or.inl ⟨hi, UInt32.toNat_inj.mp ?_⟩
    show (tables.leafAddress ⟨0x401⟩ v).toNat = 1024
    omega
  · refine Or.inr (UInt32.toNat_inj.mp ?_)
    show (tables.leafAddress ⟨0x401⟩ v).toNat = 1028
    omega

/-- The second of them overlaps the directory and is not present. -/
theorem pageNumber_eq_zero_of_walk {v : UInt32} {w : Walk} (h : tables.walk memory v = .ok w) :
    (pageNumber v).toNat = 0 := by
  obtain ⟨hd, -, hleaf, hpresent, -⟩ := PageTables.walk_eq_ok_iff.mp h
  obtain ⟨hfirst, -⟩ := directoryEntryAddress_eq (PageTables.fits_of_readEntry hd)
  rw [directory_eq hd] at hleaf
  rcases leafAddress_eq (PageTables.fits_of_readEntry hleaf) with ⟨hi, -⟩ | haddr
  · rw [toNat_pageNumber]
    omega
  · have hread : PageTables.readEntry memory 1028 = .ok ⟨0x04010000⟩ := by decide +kernel
    rw [haddr, hread] at hleaf
    rw [← Except.ok.inj hleaf] at hpresent
    exact absurd hpresent (by decide)

theorem isIdentity : tables.IsIdentity memory where
  below v hv := by
    rw [size_memory] at hv
    have hpage : pageNumber v = pageNumber 0 := by
      apply UInt32.toNat_inj.mp
      rw [show (pageNumber 0).toNat = 0 from rfl]
      omega
    have hwalk : tables.walk memory 0 = .ok ⟨⟨0x401⟩, ⟨3⟩⟩ := by decide +kernel
    refine ⟨_, (PageTables.walk_eq_ok_congr hpage).mpr hwalk, ?_, rfl⟩
    rw [hpage]
    rfl
  above v w hw := by
    rw [pageNumber_eq_zero_of_walk hw, size_memory]
    decide

theorem footprint_subset : tables.footprint memory ⊆ {i | 1024 ≤ i} := by
  rintro i ⟨v, ⟨hfit, hle, -⟩ | ⟨d, hd, -, hfit, hle, -⟩⟩
  · rw [(directoryEntryAddress_eq hfit).2] at hle
    exact Nat.le_trans (by decide) hle
  · rw [directory_eq hd] at hfit hle
    rcases leafAddress_eq hfit with ⟨-, haddr⟩ | haddr
    · rw [haddr] at hle
      exact hle
    · rw [haddr] at hle
      exact Nat.le_trans (by decide) hle

theorem stores_flat :
    (⟨registers, memory, (), 0⟩ : Machine Memory Unit).stores 2 = [⟨16, .long⟩] := by
  decide +kernel

/-- The store goes to byte 16, below the tables. -/
theorem stores_flat_avoid : ∀ s ∈ (⟨registers, memory, (), 0⟩ : Machine Memory Unit).stores 2,
    s.Avoids (tables.footprint memory) := by
  intro s hs i _ hlt hmem
  rw [stores_flat] at hs
  obtain rfl := List.mem_singleton.mp hs
  have hle : 1024 ≤ i := footprint_subset hmem
  have hlt' : i < 20 := hlt
  omega

end SmallIdentity

/-! ## Identity paging -/

/-- **Identity paging simulates flat memory.**  A processor over a memory, and one with the same
registers and count over the paged memory that identity tables in it make, with an empty buffer.
As long as the stores of the flat run are clear of the footprint, they have equal registers, counts
and memories after every step, and every step answers alike up to `IdentityErrors`.  Batches end
alike in the same sense. -/
theorem paged_simulates_flat {σ τ : Type} [Observer σ] [Observer τ] (t : PageTables) (m : Memory)
    (h : t.IsIdentity m) (registers : Registers) (completed : UInt64) (o : σ) (o' : τ) :
    let flat : Machine Memory σ := ⟨registers, m, o, completed⟩
    let paged : Machine PagedMemory τ := ⟨registers, .ofMemory m t, o', completed⟩
    (∀ n, (∀ s ∈ flat.stores n, s.Avoids (t.footprint m)) →
      (∀ k ≤ n, (flat.after k).snapshot = (paged.after k).snapshot) ∧
      ∀ k < n, Agree (FaultAgree (t.IdentityErrors m)) (flat.answerAt k) (paged.answerAt k)) ∧
    ∀ budget, (∀ s ∈ flat.batchStores budget, s.Avoids (t.footprint m)) →
      BatchAgree (t.IdentityErrors m) (flat.runBatch budget).1 (paged.runBatch budget).1 ∧
      (flat.runBatch budget).2.snapshot = (paged.runBatch budget).2.snapshot := by
  intro flat paged
  have hstart : (identitySimulation σ τ h).Matches flat paged :=
    ⟨rfl, rfl, PagedMemory.coherent_ofMemory m t, rfl, .refl _ m⟩
  constructor
  · intro n hclear
    -- a run that is clear for `n` steps is clear for any fewer
    have hshorter : ∀ k ≤ n, ∀ s ∈ flat.stores k, s.Avoids (t.footprint m) := by
      intro k hk s hs
      exact hclear s (flat.mem_stores hk hs)
    constructor
    · intro k hk
      exact snapshot_eq_of_beneath (hstart.after k (hshorter k hk))
    · intro k hk
      exact hstart.answerAt k (hshorter (k + 1) hk)
  · intro budget hclear
    obtain ⟨hbatch, hend⟩ := hstart.runBatch budget hclear
    exact ⟨hbatch, snapshot_eq_of_beneath hend⟩

/-- A store and a `brk`, flat and paged. -/
theorem small_paged_simulates_flat :
    let flat : Machine Memory Unit := ⟨SmallIdentity.registers, SmallIdentity.memory, (), 0⟩
    let paged : Machine PagedMemory Unit :=
      ⟨SmallIdentity.registers, .ofMemory SmallIdentity.memory SmallIdentity.tables, (), 0⟩
    flat.stores 2 = [⟨16, .long⟩] ∧
    (∀ k ≤ 2, (flat.after k).snapshot = (paged.after k).snapshot) ∧
    ∀ k < 2, Agree (FaultAgree (SmallIdentity.tables.IdentityErrors SmallIdentity.memory))
      (flat.answerAt k) (paged.answerAt k) :=
  ⟨SmallIdentity.stores_flat,
    (paged_simulates_flat SmallIdentity.tables SmallIdentity.memory SmallIdentity.isIdentity
      SmallIdentity.registers 0 () ()).1 2 SmallIdentity.stores_flat_avoid⟩

end Moxie
