/-
# Moxie.Proofs.Machine.Stores — the stores that a run performs, and runs that keep clear of some bytes.


Which bytes a run stores to is not part of a machine, so it is read off a machine whose bus keeps a
record: `Recorded β` answers as `β` does and notes, for every store that was performed, where in
physical memory it went.  `recorded_after` says that the record changes nothing else, so
`m.stores k` is about the run of `m` itself.

Many relations between machines survive every store but those into certain bytes, the page tables
for one.  An `AvoidingSimulation` is such a relation.  It holds along a run as long as the run's
stores keep clear of the bytes, and that is all one has to know of the run.
-/
import Mathlib.Data.Set.Basic
import Moxie.Proofs.Machine.Simulation

namespace Moxie

/-! ## Physical memory behind a bus -/

/-- A bus in front of a physical memory. -/
class PhysicalBus (β : Type) where
  /-- The physical memory behind the bus. -/
  memory : β → Memory
  /-- The physical address of the first byte that a store to an address would change. -/
  target : β → UInt32 → Except AccessError UInt32

instance : PhysicalBus Memory where
  memory m := m
  target _ addr := .ok addr

instance : PhysicalBus PagedMemory where
  memory p := p.memory
  target p vaddr := (p.resolve vaddr .write).result

/-- All of a machine that does not depend on how its bus remembers things. -/
structure Snapshot where
  registers : Registers
  completed : UInt64
  memory : Memory

/-- **`m.snapshot`** — the registers, the count and the physical memory of a machine. -/
def Machine.snapshot {β τ : Type} [PhysicalBus β] (m : Machine β τ) : Snapshot :=
  ⟨m.registers, m.completed, PhysicalBus.memory m.bus⟩

/-! ## Stores -/

/-- A store as physical memory sees it. -/
structure Store where
  /-- The physical address of the first byte. -/
  address : UInt32
  width : Width
  deriving DecidableEq

/-- **`s.Avoids p`** — the store changes no byte of `p`. -/
def Store.Avoids (s : Store) (p : Set Nat) : Prop :=
  ∀ i, s.address.toNat ≤ i → i < s.address.toNat + s.width.bytes → i ∉ p

/-- The stores performed by a write that was answered with `result`: one or none. -/
def PhysicalBus.performed {β : Type} [PhysicalBus β] (b : β) (w : Width) (addr : UInt32)
    (result : Except AccessError Unit) : List Store :=
  match result, target b addr with
  | .ok (), .ok paddr => [⟨paddr, w⟩]
  | _, _ => []

theorem PhysicalBus.performed_ok {β : Type} [PhysicalBus β] {b : β} {w : Width}
    {addr paddr : UInt32} (h : target b addr = .ok paddr) :
    performed b w addr (.ok ()) = [⟨paddr, w⟩] := by
  unfold performed
  rw [h]

/-! ## Keeping a record -/

/-- A bus and the stores that went through it, in order. -/
structure Recorded (β : Type) where
  bus : β
  stores : List Store

section Record

variable {β τ : Type} [Bus β] [PhysicalBus β] [Observer τ]

instance : Bus (Recorded β) where
  size r := Bus.size r.bus
  read r w addr :=
    let reply := Bus.read r.bus w addr
    ⟨reply.result, ⟨reply.state, r.stores⟩, reply.events⟩
  write r w addr v :=
    let reply := Bus.write r.bus w addr v
    ⟨reply.result, ⟨reply.state, r.stores ++ PhysicalBus.performed r.bus w addr reply.result⟩,
      reply.events⟩

namespace Machine

/-- The same machine with an empty record. -/
def recorded (m : Machine β τ) : Machine (Recorded β) τ :=
  ⟨m.registers, ⟨m.bus, []⟩, m.observer, m.completed⟩

/-- **`m.stores k`** — the stores that `m` performs in `k` steps. -/
def stores (m : Machine β τ) (k : Nat) : List Store :=
  (m.recorded.after k).bus.stores

/-- **`m.batchStores budget`** — the stores that `m` performs in a batch. -/
def batchStores (m : Machine β τ) (budget : Nat) : List Store :=
  (m.recorded.runBatch budget).2.bus.stores

end Machine

/-- A machine that keeps a record and one that keeps none. -/
def Simulation.recording (β τ : Type) [Bus β] [PhysicalBus β] [Observer τ] :
    Simulation (Recorded β) τ β τ where
  registers := .equal
  World b o c p := b.bus = c ∧ o = p
  Admits _ := True
  Errors := Eq
  admits_of_read _ := trivial
  admits_of_write _ := trivial
  notify h e := ⟨h.1, by rw [h.2]⟩
  read := by
    rintro b o _ _ ⟨rfl, rfl⟩ w addr _
    exact ⟨.of_eq (fun _ => rfl) rfl, rfl, rfl⟩
  write := by
    rintro b o _ _ ⟨rfl, rfl⟩ w addr v _
    exact ⟨.of_eq (fun _ => rfl) rfl, rfl, rfl⟩

/-- Two machines with records, of which the left one started with `front` in it. -/
def Simulation.resuming (β τ : Type) [Bus β] [PhysicalBus β] [Observer τ] (front : List Store) :
    Simulation (Recorded β) τ (Recorded β) τ where
  registers := .equal
  World b o c p := b = ⟨c.bus, front ++ c.stores⟩ ∧ o = p
  Admits _ := True
  Errors := Eq
  admits_of_read _ := trivial
  admits_of_write _ := trivial
  notify h e := ⟨h.1, by rw [h.2]⟩
  read := by
    rintro _ o c _ ⟨rfl, rfl⟩ w addr _
    exact ⟨.of_eq (fun _ => rfl) rfl, rfl, rfl⟩
  write := by
    rintro _ o c _ ⟨rfl, rfl⟩ w addr v _
    refine ⟨.of_eq (fun _ => rfl) rfl, ?_, rfl⟩
    exact congrArg (Recorded.mk _) (List.append_assoc ..)

namespace Machine

theorem related_recorded_after (m : Machine β τ) (k : Nat) :
    (Simulation.recording β τ).Related (m.recorded.after k) (m.after k) := by
  refine Simulation.after (S := .recording β τ) ?_ k trivial
  exact ⟨rfl, rfl, rfl, rfl⟩

/-- **Keeping a record does not change the run.** -/
theorem recorded_after (m : Machine β τ) (k : Nat) :
    m.recorded.after k =
      ⟨(m.after k).registers, ⟨(m.after k).bus, m.stores k⟩, (m.after k).observer,
        (m.after k).completed⟩ := by
  obtain ⟨hregisters, hcompleted, hbus, hobserver⟩ := m.related_recorded_after k
  rw [← show _ = (m.after k).registers from hregisters, ← hcompleted, ← hbus, ← hobserver]
  rfl

theorem recorded_answerAt (m : Machine β τ) (k : Nat) : m.recorded.answerAt k = m.answerAt k := by
  have h : (Simulation.recording β τ).Related m.recorded m := ⟨rfl, rfl, rfl, rfl⟩
  exact (Simulation.answerAt h k trivial).eq_of_faultAgree

theorem recorded_runBatch (m : Machine β τ) (budget : Nat) :
    m.recorded.runBatch budget =
      ((m.runBatch budget).1,
        ⟨(m.runBatch budget).2.registers, ⟨(m.runBatch budget).2.bus, m.batchStores budget⟩,
          (m.runBatch budget).2.observer, (m.runBatch budget).2.completed⟩) := by
  have h : (Simulation.recording β τ).Related m.recorded m := ⟨rfl, rfl, rfl, rfl⟩
  obtain ⟨hbatch, hregisters, hcompleted, hbus, hobserver⟩ := Simulation.runBatch h budget trivial
  rw [← hbatch.eq, ← show _ = (m.runBatch budget).2.registers from hregisters, ← hcompleted,
    ← hbus, ← hobserver]
  rfl

/-- **Stores add up along a run.** -/
theorem stores_add (m : Machine β τ) (j k : Nat) :
    m.stores (j + k) = m.stores j ++ (m.after j).stores k := by
  have hstart : (Simulation.resuming β τ (m.stores j)).Related (m.recorded.after j)
      (m.after j).recorded := by
    rw [recorded_after]
    exact ⟨rfl, rfl, congrArg (Recorded.mk _) (List.append_nil _).symm, rfl⟩
  have hend := Simulation.after hstart k trivial
  rw [stores, after_add, hend.world.1]
  rfl

theorem stores_succ (m : Machine β τ) (k : Nat) :
    m.stores (k + 1) = m.stores 1 ++ m.next.stores k := by
  rw [Nat.add_comm, stores_add]
  rfl

/-- A longer run performs all stores of a shorter one. -/
theorem mem_stores (m : Machine β τ) {k n : Nat} (hk : k ≤ n) {s : Store} (hs : s ∈ m.stores k) :
    s ∈ m.stores n := by
  obtain ⟨j, rfl⟩ := Nat.exists_eq_add_of_le hk
  rw [stores_add]
  exact List.mem_append_left _ hs

end Machine

end Record

/-! ## Runs that keep clear of some bytes -/

/-- A relation between machines that survives every read, and every write which keeps clear of
`avoided`. -/
structure AvoidingSimulation (β σ γ τ : Type) [Bus β] [PhysicalBus β] [Observer σ] [Bus γ]
    [Observer τ] (avoided : Set Nat) where
  /-- How the left bus and observer stand to the right ones. -/
  World : β → σ → γ → τ → Prop
  /-- Which error on the left answers which on the right. -/
  Errors : AccessError → AccessError → Prop
  notify : ∀ {b o c p}, World b o c p → ∀ e, World b (Observer.observe o e) c (Observer.observe p e)
  read : ∀ {b o c p}, World b o c p → ∀ w addr,
    Agree Errors (Bus.read b w addr).result (Bus.read c w addr).result ∧
      World (Bus.read b w addr).state ((Bus.read b w addr).report o)
        (Bus.read c w addr).state ((Bus.read c w addr).report p)
  write : ∀ {b o c p}, World b o c p → ∀ w addr v,
    (∀ s ∈ PhysicalBus.performed b w addr (Bus.write b w addr v).result, s.Avoids avoided) →
      Agree Errors (Bus.write b w addr v).result (Bus.write c w addr v).result ∧
        World (Bus.write b w addr v).state ((Bus.write b w addr v).report o)
          (Bus.write c w addr v).state ((Bus.write c w addr v).report p)

namespace AvoidingSimulation

variable {β σ γ τ : Type} [Bus β] [PhysicalBus β] [Observer σ] [Bus γ] [Observer τ]
  {avoided : Set Nat}

/-- On machines that keep a record the relation promises something about runs whose record is
clear. -/
def toSimulation (S : AvoidingSimulation β σ γ τ avoided) : Simulation (Recorded β) σ γ τ where
  registers := .equal
  World b o c p := S.World b.bus o c p
  Admits b := ∀ s ∈ b.stores, s.Avoids avoided
  Errors := S.Errors
  admits_of_read h := h
  admits_of_write h s hs := h s (List.mem_append_left _ hs)
  notify h e := S.notify h e
  read h w addr _ := S.read h w addr
  write h w addr v hclear := S.write h w addr v fun s hs => hclear s (List.mem_append_right _ hs)

/-- Two machines with equal registers and counts whose surroundings are related. -/
structure Matches (S : AvoidingSimulation β σ γ τ avoided) (m : Machine β σ) (n : Machine γ τ) :
    Prop where
  registers : m.registers = n.registers
  completed : m.completed = n.completed
  world : S.World m.bus m.observer n.bus n.observer

variable {S : AvoidingSimulation β σ γ τ avoided} {m : Machine β σ} {n : Machine γ τ}

theorem Matches.related (h : S.Matches m n) : S.toSimulation.Related m.recorded n :=
  ⟨h.registers, h.completed, h.world⟩

/-- A run whose stores keep clear of the bytes stays matched. -/
theorem Matches.after (h : S.Matches m n) (k : Nat) (hclear : ∀ s ∈ m.stores k, s.Avoids avoided) :
    S.Matches (m.after k) (n.after k) := by
  have hrel := Simulation.after h.related k hclear
  rw [Machine.recorded_after] at hrel
  exact ⟨hrel.registers, hrel.completed, hrel.world⟩

theorem Matches.answerAt (h : S.Matches m n) (k : Nat)
    (hclear : ∀ s ∈ m.stores (k + 1), s.Avoids avoided) :
    Agree (FaultAgree S.Errors) (m.answerAt k) (n.answerAt k) := by
  have hagree := Simulation.answerAt h.related k hclear
  rwa [Machine.recorded_answerAt] at hagree

theorem Matches.runBatch (h : S.Matches m n) (budget : Nat)
    (hclear : ∀ s ∈ m.batchStores budget, s.Avoids avoided) :
    BatchAgree S.Errors (m.runBatch budget).1 (n.runBatch budget).1 ∧
      S.Matches (m.runBatch budget).2 (n.runBatch budget).2 := by
  obtain ⟨hbatch, hrel⟩ := Simulation.runBatch h.related budget hclear
  rw [Machine.recorded_runBatch] at hbatch hrel
  exact ⟨hbatch, hrel.registers, hrel.completed, hrel.world⟩

end AvoidingSimulation

end Moxie
