/-
# Moxie.Proofs.Paging.Secrecy — bytes that no page reaches cannot be told from outside.

Two machines differ in the contents of some bytes that lie in no page and in no page table.  Running
side by side they cannot be told apart: every step gets the same answers from the memory, reports
the same events, and leaves the same lookaside buffer.  What differed goes on differing, untouched.

The tables that say which bytes a page reaches lie in the memory that the machines write to.  As
long as no writable page reaches the tables, both machines are `Guarded`, and this carries every
fact about where pages lead from the start of the run to its present.  What remains is the present:
two memories that agree wherever a walk or a page leads give the same answer to any one access
(`Twins.read`, `Twins.write`).

The counters of the two units need not stand alike at the start.  They count the same work, so
`Statistics.since` is what is compared.
-/
import Moxie.Proofs.Paging.Protection

namespace Moxie

/-! ## Counting work -/

namespace Statistics

/-- **`now.since start`** — the work counted after the counters stood at `start`. -/
def since (now start : Statistics) : Statistics where
  lookups := now.lookups - start.lookups
  hits := now.hits - start.hits
  misses := now.misses - start.misses
  walks := now.walks - start.walks
  flushes := now.flushes - start.flushes
  invalidations := now.invalidations - start.invalidations

/-- Equal work after equal work is equal work. -/
theorem since_congr {a b c a' b' c' : Statistics} (hfirst : b'.since a' = b.since a)
    (hsecond : c'.since b' = c.since b) : c'.since a' = c.since a := by
  have hsum : ∀ {x y z x' y' z' : UInt64},
      y' - x' = y - x → z' - y' = z - y → z' - x' = z - x := by
    intro x y z x' y' z' h h'
    grind
  simp only [since, mk.injEq] at hfirst hsecond ⊢
  obtain ⟨h₁, h₂, h₃, h₄, h₅, h₆⟩ := hfirst
  obtain ⟨k₁, k₂, k₃, k₄, k₅, k₆⟩ := hsecond
  exact ⟨hsum h₁ k₁, hsum h₂ k₂, hsum h₃ k₃, hsum h₄ k₄, hsum h₅ k₅, hsum h₆ k₆⟩

theorem eq_of_since_eq {start a b : Statistics} (h : a.since start = b.since start) : a = b := by
  obtain ⟨⟩ := a
  obtain ⟨⟩ := b
  simpa [since] using h

end Statistics

/-! ## Units that differ in their counters -/

/-- The units walk the same tables and remember the same entries. -/
structure Mmu.Twins (u u' : Mmu) : Prop where
  tables_eq : u'.tables = u.tables
  tlb_eq : u'.tlb = u.tlb

theorem Mmu.Twins.eq {u u' : Mmu} (h : u.Twins u') (hstats : u'.stats = u.stats) : u' = u := by
  obtain ⟨tables, tlb, stats⟩ := u
  obtain ⟨tables', tlb', stats'⟩ := u'
  rw [Mmu.mk.injEq]
  exact ⟨h.tables_eq, h.tlb_eq, hstats⟩

/-- Units with the same tables and entries do the same for an address whose walk reads the same. -/
theorem Mmu.Twins.resolve {u u' : Mmu} (h : u.Twins u') {m n : Memory} {v : UInt32}
    (hwalk : u.tables.walk n v = u.tables.walk m v) (kind : AccessKind) :
    (u'.resolve n v kind).result = (u.resolve m v kind).result ∧
      (u'.resolve n v kind).events = (u.resolve m v kind).events ∧
      (u.resolve m v kind).state.Twins (u'.resolve n v kind).state ∧
      (u'.resolve n v kind).state.stats.since u'.stats =
        (u.resolve m v kind).state.stats.since u.stats := by
  -- what is counted does not depend on where the counters stood
  have hone : ∀ x : UInt64, x + 1 - x = 1 := by
    intro x
    grind
  obtain ⟨tables, tlb, stats⟩ := u
  obtain ⟨tables', tlb', stats'⟩ := u'
  obtain ⟨rfl, rfl⟩ : tables' = tables ∧ tlb' = tlb := ⟨h.tables_eq, h.tlb_eq⟩
  dsimp only at hwalk
  unfold Mmu.resolve
  dsimp only
  rw [hwalk]
  cases tlb'.lookup (pageNumber v) with
  | some e => exact ⟨rfl, rfl, ⟨rfl, rfl⟩, by simp [Statistics.since, hone]⟩
  | none =>
    cases tables'.walk m v with
    | error e => exact ⟨rfl, rfl, ⟨rfl, rfl⟩, by simp [Statistics.since, hone]⟩
    | ok w => exact ⟨rfl, rfl, ⟨rfl, rfl⟩, by simp [Statistics.since, hone]⟩

/-! ## Accesses of physical memory -/

namespace Memory

variable {s : Set Nat} {m n : Memory}

/-- A read of bytes that two memories share. -/
theorem AgreesOn.read_eq (h : AgreesOn s m n) {w : Width} {addr : UInt32}
    (hin : ∀ k < 4, addr.toNat + k ∈ s) : n.read w addr = m.read w addr := by
  refine read_congr h.size_eq fun i hi => ?_
  obtain ⟨-, hle, hlt⟩ := hi
  have hbytes := w.bytes_le_four
  obtain ⟨k, rfl⟩ := Nat.exists_eq_add_of_le hle
  exact h.byteAt_eq _ (hin k (by omega))

/-- The same write to two memories ends alike and leaves them alike where they were. -/
theorem AgreesOn.write (h : AgreesOn s m n) (w : Width) (addr v : UInt32) :
    (Bus.write n w addr v).result = (Bus.write m w addr v).result ∧
      AgreesOn s (Bus.write m w addr v).state (Bus.write n w addr v).state := by
  dsimp only [Bus.write, Memory.write, storeBytes]
  by_cases hfit : m.Fits addr (LittleEndian.encode w.bytes v).length
  · have hfit' : n.Fits addr (LittleEndian.encode w.bytes v).length := by
      rw [Fits, h.size_eq]
      exact hfit
    rw [if_pos hfit, if_pos hfit']
    refine ⟨rfl, ?_, ?_⟩
    · rw [size_overlay, size_overlay, h.size_eq]
    · intro i hi
      rw [byteAt_overlay hfit', byteAt_overlay hfit, h.byteAt_eq i hi]
  · have hfit' : ¬ n.Fits addr (LittleEndian.encode w.bytes v).length := by
      rw [Fits, h.size_eq]
      exact hfit
    rw [if_neg hfit, if_neg hfit', h.size_eq]
    exact ⟨rfl, h⟩

end Memory

/-! ## Paged memories that differ in unreached bytes -/

namespace PagedMemory

theorem read_eq (p : PagedMemory) (w : Width) (vaddr : UInt32) :
    p.read w vaddr =
      ⟨(p.mmu.resolve p.memory vaddr .read).result.bind fun paddr =>
          (Bus.read p.memory w paddr).result,
        ⟨(p.mmu.resolve p.memory vaddr .read).state, p.memory⟩,
        (p.mmu.resolve p.memory vaddr .read).events⟩ := by
  unfold read
  rw [resolve_eq]
  cases (p.mmu.resolve p.memory vaddr .read).result <;> rfl

theorem write_of_resolve_error {p : PagedMemory} {w : Width} {vaddr v : UInt32} {e : AccessError}
    (h : (p.mmu.resolve p.memory vaddr .write).result = .error e) :
    p.write w vaddr v =
      ⟨.error e, ⟨(p.mmu.resolve p.memory vaddr .write).state, p.memory⟩,
        (p.mmu.resolve p.memory vaddr .write).events⟩ := by
  unfold write
  rw [resolve_eq, h]

theorem write_of_resolve_ok {p : PagedMemory} {w : Width} {vaddr paddr v : UInt32}
    (h : (p.mmu.resolve p.memory vaddr .write).result = .ok paddr) :
    p.write w vaddr v =
      ⟨(Bus.write p.memory w paddr v).result,
        ⟨(p.mmu.resolve p.memory vaddr .write).state, (Bus.write p.memory w paddr v).state⟩,
        (p.mmu.resolve p.memory vaddr .write).events⟩ := by
  unfold write
  rw [resolve_eq, h]
  dsimp only [Bus.write]
  cases p.memory.write w paddr v <;> rfl

/-- **`p.Unreached s`** — no walk reads a byte of `s` and no page leads to one; and no writable page
leads to the page tables. -/
structure Unreached (p : PagedMemory) (s : Set Nat) : Prop where
  footprint : ∀ i ∈ s, i ∉ p.footprint
  reach : ∀ i ∈ s, i ∉ p.reach .read
  tables : ∀ i ∈ p.footprint, i ∉ p.reach .write

/-- What the writable pages reach, some page reaches. -/
theorem reach_write_subset (p : PagedMemory) : p.reach .write ⊆ p.reach .read := by
  rintro i ⟨v, w, hw, -, hi⟩
  exact ⟨v, w, hw, by rintro ⟨⟩, hi⟩

variable {s : Set Nat} {p q b c : PagedMemory}

/-- A coherent memory guards what is unreached together with its tables. -/
theorem Unreached.guarded (h : p.Unreached s) (hcoherent : p.Coherent) :
    Guarded (s ∪ p.footprint) p p where
  coherent := hcoherent
  tables_eq := rfl
  agreesOn := .refl _ _
  footprint_subset := Set.subset_union_right
  unreached := by
    rintro i (hi | hi) hreach
    · exact h.reach i hi (p.reach_write_subset hreach)
    · exact h.tables i hi hreach

theorem Unreached.agreesOn_footprint (h : p.Unreached s)
    (hagree : Memory.AgreesOn {i | i ∉ s} p.memory q.memory) :
    Memory.AgreesOn (p.mmu.tables.footprint p.memory) p.memory q.memory :=
  hagree.mono fun i hi hs => h.footprint i hs hi

/-- What is unreached does not depend on what it holds. -/
theorem Unreached.congr (h : p.Unreached s) (htables : q.mmu.tables = p.mmu.tables)
    (hagree : Memory.AgreesOn {i | i ∉ s} p.memory q.memory) : q.Unreached s := by
  have hfootprint : q.footprint = p.footprint := by
    show q.mmu.tables.footprint q.memory = _
    rw [htables]
    exact PageTables.footprint_congr (h.agreesOn_footprint hagree)
  have hreach : ∀ kind, q.reach kind = p.reach kind := by
    intro kind
    rw [PagedMemory.reach, htables]
    exact PageTables.reach_congr (h.agreesOn_footprint hagree) kind
  refine ⟨?_, ?_, ?_⟩
  · rw [hfootprint]
    exact h.footprint
  · rw [hreach]
    exact h.reach
  · rw [hfootprint, hreach]
    exact h.tables

/-- **`Twins s p q b c`** — runs have led from `p` to `b` and from `q` to `c`, and have done the
same work; the bytes of `s` stayed as they were on either side, and outside `s` the two agree. -/
structure Twins (s : Set Nat) (p q b c : PagedMemory) : Prop where
  unreached : p.Unreached s
  left : Guarded (s ∪ p.footprint) p b
  right : Guarded (s ∪ q.footprint) q c
  mmu : b.mmu.Twins c.mmu
  since_eq : c.mmu.stats.since q.mmu.stats = b.mmu.stats.since p.mmu.stats
  agreesOn : Memory.AgreesOn {i | i ∉ s} b.memory c.memory

namespace Twins

/-- Before the first step. -/
theorem start (hmmu : p.mmu.Twins q.mmu) (hcoherent : p.Coherent) (hs : p.Unreached s)
    (hagree : Memory.AgreesOn {i | i ∉ s} p.memory q.memory) : Twins s p q p q := by
  have hcoherent' : q.Coherent := by
    have htables : p.mmu.tlb.Coherent p.mmu.tables q.memory :=
      Tlb.Coherent.congr hcoherent (hs.agreesOn_footprint hagree)
    rwa [← hmmu.tables_eq, ← hmmu.tlb_eq] at htables
  have hright := (hs.congr hmmu.tables_eq hagree).guarded hcoherent'
  have hself : ∀ a : Statistics, a.since a = {} := by
    intro a
    simp [Statistics.since]
  exact ⟨hs, hs.guarded hcoherent, hright, hmmu, by rw [hself, hself], hagree⟩

/-- A walk reads the same on both sides. -/
theorem walk_eq (h : Twins s p q b c) (v : UInt32) :
    b.mmu.tables.walk c.memory v = b.mmu.tables.walk b.memory v := by
  refine PageTables.walk_congr (h.agreesOn.mono ?_) v
  intro i hi hs
  have hi' : i ∈ b.footprint := hi
  rw [h.left.footprint_eq] at hi'
  exact h.unreached.footprint i hs hi'

/-- Where a read of `b` goes, the two memories agree. -/
theorem not_mem_of_resolve (h : Twins s p q b c) {vaddr paddr : UInt32}
    (hres : (b.mmu.resolve b.memory vaddr .read).result = .ok paddr) {k : Nat} (hk : k < 4) :
    paddr.toNat + k ∉ s := by
  intro hs
  have htranslate : b.mmu.tables.translate b.memory vaddr .read = .ok paddr := by
    rw [← hres]
    exact (h.left.coherent.result_resolve vaddr .read).symm
  have hreach : paddr.toNat + k ∈ b.reach .read := PageTables.mem_reach_of_translate htranslate hk
  rw [reach, h.left.tables_eq, PageTables.reach_congr h.left.agreesOn_footprint] at hreach
  exact h.unreached.reach _ hs hreach

theorem read (h : Twins s p q b c) (w : Width) (vaddr : UInt32) :
    (Bus.read c w vaddr).result = (Bus.read b w vaddr).result ∧
      (Bus.read c w vaddr).events = (Bus.read b w vaddr).events ∧
      Twins s p q (Bus.read b w vaddr).state (Bus.read c w vaddr).state := by
  obtain ⟨hresult, hevents, hmmu, hsince⟩ := h.mmu.resolve (h.walk_eq vaddr) .read
  have hb : Bus.read b w vaddr = _ := b.read_eq w vaddr
  have hc : Bus.read c w vaddr = _ := c.read_eq w vaddr
  refine ⟨?_, ?_, h.unreached, h.left.read w vaddr, h.right.read w vaddr, ?_, ?_, ?_⟩
  · rw [hb, hc, hresult]
    dsimp only
    cases hres : (b.mmu.resolve b.memory vaddr .read).result with
    | error e => rfl
    | ok paddr =>
      have hread : c.memory.read w paddr = b.memory.read w paddr :=
        h.agreesOn.read_eq fun k hk => h.not_mem_of_resolve hres hk
      exact congrArg (Except.mapError AccessError.outOfRange) hread
  · rw [hb, hc]
    exact hevents
  · rw [hb, hc]
    exact hmmu
  · rw [hb, hc]
    exact Statistics.since_congr h.since_eq hsince
  · rw [hb, hc]
    exact h.agreesOn

theorem write (h : Twins s p q b c) (w : Width) (vaddr v : UInt32) :
    (Bus.write c w vaddr v).result = (Bus.write b w vaddr v).result ∧
      (Bus.write c w vaddr v).events = (Bus.write b w vaddr v).events ∧
      Twins s p q (Bus.write b w vaddr v).state (Bus.write c w vaddr v).state := by
  obtain ⟨hresult, hevents, hmmu, hsince⟩ := h.mmu.resolve (h.walk_eq vaddr) .write
  have hleft := h.left.write w vaddr v
  have hright := h.right.write w vaddr v
  cases hres : (b.mmu.resolve b.memory vaddr .write).result with
  | error e =>
    have hb : Bus.write b w vaddr v = _ := write_of_resolve_error hres
    have hc : Bus.write c w vaddr v = _ := write_of_resolve_error (hresult.trans hres)
    rw [hb] at hleft ⊢
    rw [hc] at hright ⊢
    exact ⟨rfl, hevents, h.unreached, hleft, hright, hmmu,
      Statistics.since_congr h.since_eq hsince, h.agreesOn⟩
  | ok paddr =>
    have hb : Bus.write b w vaddr v = _ := write_of_resolve_ok hres
    have hc : Bus.write c w vaddr v = _ := write_of_resolve_ok (hresult.trans hres)
    obtain ⟨hwrite, hagree⟩ := h.agreesOn.write w paddr v
    rw [hb] at hleft ⊢
    rw [hc] at hright ⊢
    exact ⟨hwrite, hevents, h.unreached, hleft, hright, hmmu,
      Statistics.since_congr h.since_eq hsince, hagree⟩

end Twins

end PagedMemory

/-- Machines over twin memories, with observers that have seen the same. -/
def Simulation.secrecy (τ : Type) [Observer τ] (s : Set Nat) (p q : PagedMemory) :
    Simulation PagedMemory τ PagedMemory τ where
  registers := .equal
  World b o c o' := PagedMemory.Twins s p q b c ∧ o' = o
  Admits _ := True
  Errors := Eq
  admits_of_read _ := trivial
  admits_of_write _ := trivial
  notify := by
    rintro b o c _ ⟨h, rfl⟩ e
    exact ⟨h, rfl⟩
  read := by
    rintro b o c _ ⟨h, rfl⟩ w addr _
    obtain ⟨hresult, hevents, hstate⟩ := h.read w addr
    refine ⟨.of_eq (fun _ => rfl) hresult.symm, hstate, ?_⟩
    rw [Reply.report, Reply.report, hevents]
  write := by
    rintro b o c _ ⟨h, rfl⟩ w addr v _
    obtain ⟨hresult, hevents, hstate⟩ := h.write w addr v
    refine ⟨.of_eq (fun _ => rfl) hresult.symm, hstate, ?_⟩
    rw [Reply.report, Reply.report, hevents]

/-! ## A small memory with a secret -/

namespace SmallSecret

open Moxie.Small (tables OnePage)

/-- Sixty-four bytes with the tables of the small memory.  The page starts at byte 16, with a store
of `$r1` where `$r0` points and a `brk`; the eight bytes before it belong to nothing. -/
def blank : Memory where
  row := ⟨#[], #[0x09, 0xF0, 0xFF, 0xFF, 0x13, 0x00, 0x00, 0x00, 0, 0, 0, 0, 0, 0, 0, 0,
    0x23, 0x0B, 0x00, 0x35] ++ Array.replicate 44 0, by decide⟩
  even_size := by decide
  four_le_size := by decide
  size_lt := by decide

/-- The same with a secret in the first of the eight. -/
def memory (secret : UInt8) : Memory :=
  blank.overlay 8 [secret]

/-- The memory behind the tables. -/
def paged (secret : UInt8) : PagedMemory :=
  .ofMemory (memory secret) tables

theorem onePage_memory : OnePage (memory 1) ⟨0x13⟩ where
  size_eq := by decide
  directory_eq := by decide +kernel
  leaf_eq := by decide +kernel

theorem le_of_mem_reach {kind : AccessKind} {i : Nat} (h : i ∈ (paged 1).reach kind) : 16 ≤ i :=
  onePage_memory.frame_le_of_mem_reach (by decide) h

theorem lt_of_mem_footprint {i : Nat} (h : i ∈ (paged 1).footprint) : i < 8 :=
  onePage_memory.footprint_subset h

/-- Nothing leads to the bytes between the tables and the page. -/
theorem unreached : (paged 1).Unreached {i | 8 ≤ i ∧ i < 16} where
  footprint := by
    rintro i ⟨hle, -⟩ hmem
    exact Nat.not_lt.mpr hle (lt_of_mem_footprint hmem)
  reach := by
    rintro i ⟨-, hlt⟩ hmem
    exact Nat.not_lt.mpr (le_of_mem_reach hmem) hlt
  tables := by
    intro i hfootprint hmem
    have hlt := lt_of_mem_footprint hfootprint
    have hle := le_of_mem_reach hmem
    omega

/-- The store goes to byte 16 of the page. -/
theorem stores_machine :
    (⟨Small.machine.registers, paged 1, (), 0⟩ : Machine PagedMemory Unit).stores 2 =
      [⟨32, .long⟩] := by
  decide +kernel

theorem byteAt_memory (secret : UInt8) (i : Nat) :
    (memory secret).byteAt i = if i = 8 then secret else blank.byteAt i := by
  have hfit : 8 + [secret].length ≤ blank.size := show 9 ≤ blank.size by decide
  rw [memory, Memory.byteAt_overlay hfit]
  by_cases hi : i = 8
  · subst hi
    rfl
  · rw [if_neg hi, if_neg]
    simp only [List.length_singleton]
    omega

/-- The secrets are the only difference. -/
theorem agreesOn_memory (a b : UInt8) :
    Memory.AgreesOn {i | i ∉ {i | 8 ≤ i ∧ i < 16}} (memory a) (memory b) where
  size_eq := rfl
  byteAt_eq := by
    intro i hi
    have hne : i ≠ 8 := by
      rintro rfl
      exact hi ⟨by decide, by decide⟩
    rw [byteAt_memory, byteAt_memory, if_neg hne, if_neg hne]

end SmallSecret

/-! ## Runs -/

/-- **What no page reaches cannot be observed.**  Two paged memories have the same tables and
remember the same coherent entries, and differ only in bytes that are unreached.  Machines with the
same registers, observer and count over them stay alike for any number of steps, through all faults:
in the answer of every step, in registers, count, observer and unit, in the work counted, and in all
bytes but those, which stay what they were. -/
theorem Machine.unreached_unobservable {τ : Type} [Observer τ] (p q : PagedMemory) (s : Set Nat)
    (hmmu : p.mmu.Twins q.mmu) (hcoherent : p.Coherent) (hs : p.Unreached s)
    (hagree : Memory.AgreesOn {i | i ∉ s} p.memory q.memory) (registers : Registers) (o : τ)
    (completed : UInt64) (k : Nat) :
    let m : Machine PagedMemory τ := ⟨registers, p, o, completed⟩
    let n : Machine PagedMemory τ := ⟨registers, q, o, completed⟩
    n.answerAt k = m.answerAt k ∧
    (n.after k).registers = (m.after k).registers ∧
    (n.after k).completed = (m.after k).completed ∧
    (n.after k).observer = (m.after k).observer ∧
    (m.after k).bus.mmu.Twins (n.after k).bus.mmu ∧
    (n.after k).bus.mmu.stats.since q.mmu.stats = (m.after k).bus.mmu.stats.since p.mmu.stats ∧
    (q.mmu.stats = p.mmu.stats → (n.after k).bus.mmu = (m.after k).bus.mmu) ∧
    Memory.AgreesOn {i | i ∉ s} (m.after k).bus.memory (n.after k).bus.memory ∧
    ∀ i ∈ s, (m.after k).bus.memory.byteAt i = p.memory.byteAt i ∧
      (n.after k).bus.memory.byteAt i = q.memory.byteAt i := by
  intro m n
  have hstart : (Simulation.secrecy τ s p q).Related m n :=
    ⟨rfl, rfl, .start hmmu hcoherent hs hagree, rfl⟩
  obtain ⟨hregisters, hcompleted, hend, hobserver⟩ := Simulation.after hstart k trivial
  refine ⟨?_, hregisters.symm, hcompleted.symm, hobserver, hend.mmu, hend.since_eq, ?_,
    hend.agreesOn, ?_⟩
  · exact (Simulation.answerAt hstart k trivial).eq_of_faultAgree.symm
  · intro hstats
    -- equal work from equal counters
    have hsince := hend.since_eq
    rw [hstats] at hsince
    exact hend.mmu.eq (Statistics.eq_of_since_eq hsince)
  · intro i hi
    exact ⟨hend.left.agreesOn.byteAt_eq i (Or.inl hi), hend.right.agreesOn.byteAt_eq i (Or.inl hi)⟩

/-- Two secrets, beside a run that stores and stops. -/
theorem Machine.small_unreached_unobservable :
    let m : Machine PagedMemory Unit := ⟨Small.machine.registers, SmallSecret.paged 1, (), 0⟩
    let n : Machine PagedMemory Unit := ⟨Small.machine.registers, SmallSecret.paged 2, (), 0⟩
    m.bus.memory.byteAt 8 ≠ n.bus.memory.byteAt 8 ∧ m.stores 2 = [⟨32, .long⟩] ∧
    n.answerAt 1 = m.answerAt 1 ∧ (n.after 1).bus.mmu = (m.after 1).bus.mmu ∧
    Memory.AgreesOn {i | i ∉ {i | 8 ≤ i ∧ i < 16}} (m.after 1).bus.memory
      (n.after 1).bus.memory := by
  dsimp only
  have hstats : ∀ secret, (SmallSecret.paged secret).mmu.stats = {} := fun _ => rfl
  obtain ⟨hanswer, -, -, -, -, -, hmmu, hagree, -⟩ :=
    Machine.unreached_unobservable (SmallSecret.paged 1) (SmallSecret.paged 2)
      {i | 8 ≤ i ∧ i < 16} ⟨rfl, rfl⟩ (PagedMemory.coherent_ofMemory _ _) SmallSecret.unreached
      (SmallSecret.agreesOn_memory 1 2) Small.machine.registers () 0 1
  have hunit := hmmu ((hstats 2).trans (hstats 1).symm)
  have hsecret : (SmallSecret.memory 1).byteAt 8 ≠ (SmallSecret.memory 2).byteAt 8 := by
    rw [SmallSecret.byteAt_memory, SmallSecret.byteAt_memory]
    decide
  exact ⟨hsecret, SmallSecret.stores_machine, hanswer, hunit, hagree⟩

end Moxie
