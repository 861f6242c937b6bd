/-
# Moxie.Proofs.Paging.Transparency — the lookaside buffer cannot be seen from inside.

A run over a paged memory is compared with the same run over the reference bus, which walks the page
tables on every access.  What is compared is all that a run shows: the answer of every step, errors
included, and after it the registers, the count of completed instructions and the physical memory.
As long as the buffer starts out coherent and no store of the run reaches the footprint of the page
tables, nothing shows a difference.

Between the steps the buffer may be flushed and pages dropped from it.  That does not show either,
which is the same fact once more: both runs are compared with one reference, and maintenance takes a
machine to another one with the same tables and bytes.  So the simulation is set up once for every
bus that answers as the reference does (`Walks`), and used for the reference itself and for a second
paged memory with a different buffer.
-/
import Moxie.Machine.Histogram
import Moxie.Proofs.Paging.Walked

namespace Moxie

/-! ## What a run shows -/

namespace Machine

variable {β τ : Type}

/-- **`m.trace k`** — what `k` steps answer, each with what it leaves. -/
def trace [Bus β] [PhysicalBus β] [Observer τ] (m : Machine β τ) :
    Nat → List (Except Fault Progress × Snapshot)
  | 0 => []
  | k + 1 => (m.answerAt 0, m.next.snapshot) :: m.next.trace k

/-- The same machine over the reference bus. -/
def walked (m : Machine PagedMemory τ) : Machine WalkedMemory τ :=
  ⟨m.registers, m.bus.walked, m.observer, m.completed⟩

end Machine

/-- An observer to which reports of the memory system mean nothing. -/
def Observer.IgnoresPaging (τ : Type) [Observer τ] : Prop :=
  ∀ (o : τ) (e : PagingEvent), observe o (.paging e) = o

theorem Observer.observeAll_paging {τ : Type} [Observer τ] (h : IgnoresPaging τ) (o : τ)
    (events : List PagingEvent) : observeAll o (events.map .paging) = o := by
  induction events with
  | nil => rfl
  | cons e events ih =>
    rw [List.map_cons, observeAll, List.foldl_cons, h o e]
    exact ih

theorem Reply.report_eq_self {β τ α : Type} [Observer τ] (h : Observer.IgnoresPaging τ)
    (r : Reply β α) (o : τ) : r.report o = o :=
  Observer.observeAll_paging h o r.events

/-- Histograms count fetches only. -/
theorem Histogram.ignoresPaging : Observer.IgnoresPaging Histogram :=
  fun _ _ => rfl

/-! ## Buses that answer as the reference does -/

/-- A bus that answers as the reference bus over the same tables and bytes does, while what it
remembers is current; and it stays current while no store reaches the footprint. -/
class Walks (γ : Type) [Bus γ] extends PhysicalBus γ where
  walked : γ → WalkedMemory
  Current : γ → Prop
  memory_walked : ∀ c, (walked c).memory = memory c
  result_read : ∀ {c}, Current c → ∀ w a, (Bus.read c w a).result = ((walked c).read w a).result
  walked_read : ∀ {c}, Current c → ∀ w a, walked (Bus.read c w a).state = walked c
  current_read : ∀ {c}, Current c → ∀ w a, Current (Bus.read c w a).state
  result_write : ∀ {c}, Current c → ∀ w a v,
    (Bus.write c w a v).result = ((walked c).write w a v).result
  walked_write : ∀ {c}, Current c → ∀ w a v,
    walked (Bus.write c w a v).state = ((walked c).write w a v).state
  current_write : ∀ {c}, Current c → ∀ w a v,
    (∀ s ∈ PhysicalBus.performed (walked c) w a ((walked c).write w a v).result,
      s.Avoids (walked c).footprint) →
    Current (Bus.write c w a v).state

instance : Walks WalkedMemory where
  toPhysicalBus := inferInstance
  walked q := q
  Current _ := True
  memory_walked _ := rfl
  result_read _ _ _ := rfl
  walked_read _ w a := WalkedMemory.state_read _ w a
  current_read _ _ _ := trivial
  result_write _ _ _ _ := rfl
  walked_write _ _ _ _ := rfl
  current_write _ _ _ _ _ := trivial

instance : Walks PagedMemory where
  toPhysicalBus := inferInstance
  walked := PagedMemory.walked
  Current := PagedMemory.Coherent
  memory_walked _ := rfl
  result_read h w a := h.result_read w a
  walked_read _ w a := PagedMemory.walked_read _ w a
  current_read h w a := h.read w a
  result_write h w a v := h.result_write w a v
  walked_write h w a v := h.walked_write w a v
  current_write h w a v hclear := h.write w a v (by rwa [h.performed_write])

/-! ## The simulation -/

/-- A coherent paged memory and a bus in order, with the same tables and bytes. -/
structure PagedMemory.Alike {γ : Type} [Bus γ] [Walks γ] (footprint : Set Nat) (p : PagedMemory)
    (c : γ) : Prop where
  coherent : p.Coherent
  current : Walks.Current c
  walked_eq : Walks.walked c = p.walked
  footprint_eq : p.footprint = footprint

namespace PagedMemory.Alike

variable {γ : Type} [Bus γ] [Walks γ] {footprint : Set Nat} {p : PagedMemory} {c : γ}

theorem read (h : p.Alike footprint c) (w : Width) (a : UInt32) :
    (Bus.read p w a).result = (Bus.read c w a).result ∧
      (Bus.read p w a).state.Alike footprint (Bus.read c w a).state := by
  have hwalked : (Bus.read p w a).state.walked = p.walked := p.walked_read w a
  refine ⟨?_, ?_, ?_, ?_, ?_⟩
  · rw [Walks.result_read h.current, h.walked_eq]
    exact h.coherent.result_read w a
  · exact h.coherent.read w a
  · exact Walks.current_read h.current w a
  · rw [Walks.walked_read h.current, h.walked_eq, hwalked]
  · rw [PagedMemory.footprint, hwalked]
    exact h.footprint_eq

theorem write (h : p.Alike footprint c) (w : Width) (a v : UInt32)
    (hclear : ∀ s ∈ PhysicalBus.performed p w a (Bus.write p w a v).result, s.Avoids footprint) :
    (Bus.write p w a v).result = (Bus.write c w a v).result ∧
      (Bus.write p w a v).state.Alike footprint (Bus.write c w a v).state := by
  have hwalked : (Bus.write p w a v).state.walked = (p.walked.write w a v).state :=
    h.coherent.walked_write w a v
  rw [← h.footprint_eq] at hclear
  have hreference : ∀ s ∈ PhysicalBus.performed p.walked w a (p.walked.write w a v).result,
      s.Avoids p.walked.footprint := by
    rw [← h.coherent.performed_write]
    exact hclear
  refine ⟨?_, ?_, ?_, ?_, ?_⟩
  · rw [Walks.result_write h.current, h.walked_eq]
    exact h.coherent.result_write w a v
  · exact h.coherent.write w a v hclear
  · refine Walks.current_write h.current w a v ?_
    rw [h.walked_eq]
    exact hreference
  · rw [Walks.walked_write h.current, h.walked_eq, hwalked]
  · rw [PagedMemory.footprint, hwalked, WalkedMemory.footprint_write hreference]
    exact h.footprint_eq

end PagedMemory.Alike

/-- A paged memory beside any bus that answers as the reference does.  The observers agree when all
that tells the two apart, the reports of walks, means nothing to them. -/
def transparency (γ τ : Type) [Bus γ] [Walks γ] [Observer τ] (footprint : Set Nat) :
    AvoidingSimulation PagedMemory τ γ τ footprint where
  World p o c o' := p.Alike footprint c ∧ (Observer.IgnoresPaging τ → o = o')
  Errors := Eq
  notify h e := ⟨h.1, fun hpaging => by rw [h.2 hpaging]⟩
  read := by
    rintro p o c o' ⟨halike, hobserver⟩ w a
    obtain ⟨hresult, halike'⟩ := halike.read w a
    refine ⟨.of_eq (fun _ => rfl) hresult, halike', ?_⟩
    intro hpaging
    rw [Reply.report_eq_self hpaging, Reply.report_eq_self hpaging]
    exact hobserver hpaging
  write := by
    rintro p o c o' ⟨halike, hobserver⟩ w a v hclear
    obtain ⟨hresult, halike'⟩ := halike.write w a v hclear
    refine ⟨.of_eq (fun _ => rfl) hresult, halike', ?_⟩
    intro hpaging
    rw [Reply.report_eq_self hpaging, Reply.report_eq_self hpaging]
    exact hobserver hpaging

namespace Machine

section Compared

variable {γ τ : Type} [Bus γ] [Walks γ] [Observer τ] {footprint : Set Nat}
  {m : Machine PagedMemory τ} {n : Machine γ τ}

theorem snapshot_eq_of_matches (h : (transparency γ τ footprint).Matches m n) :
    m.snapshot = n.snapshot := by
  have hmemory : PhysicalBus.memory m.bus = PhysicalBus.memory n.bus := by
    rw [← Walks.memory_walked n.bus, h.world.1.walked_eq]
    rfl
  rw [snapshot, snapshot, h.registers, h.completed, hmemory]

/-- One step of two matched machines. -/
theorem matches_next (h : (transparency γ τ footprint).Matches m n)
    (hclear : ∀ s ∈ m.stores 1, s.Avoids footprint) :
    m.answerAt 0 = n.answerAt 0 ∧ (transparency γ τ footprint).Matches m.next n.next :=
  ⟨(h.answerAt 0 hclear).eq_of_faultAgree, h.after 1 hclear⟩

theorem trace_eq_of_matches (h : (transparency γ τ footprint).Matches m n) (k : Nat)
    (hclear : ∀ s ∈ m.stores k, s.Avoids footprint) : m.trace k = n.trace k := by
  induction k generalizing m n with
  | zero => rfl
  | succ k ih =>
    rw [stores_succ] at hclear
    obtain ⟨hanswer, hnext⟩ := matches_next h fun s hs => hclear s (List.mem_append_left _ hs)
    have hrest := ih hnext fun s hs => hclear s (List.mem_append_right _ hs)
    rw [trace, trace, hanswer, snapshot_eq_of_matches hnext, hrest]

end Compared

/-! ## Maintenance between the steps -/

/-- What may be done to a machine from outside: a step, or maintenance of the buffer. -/
inductive Call where
  | step
  | flush
  | invalidate (vaddr : UInt32)
  deriving DecidableEq

variable {τ : Type} [Observer τ]

/-- **`m.maintain f`** — the unit replaced by what `f` makes of it, and the reports of that sent to
the observer. -/
def maintain (m : Machine PagedMemory τ) (f : Mmu → Mmu × List PagingEvent) :
    Machine PagedMemory τ :=
  { m with
    bus := ⟨(f m.bus.mmu).1, m.bus.memory⟩
    observer := Observer.observeAll m.observer ((f m.bus.mmu).2.map .paging) }

/-- The machine after one call. -/
def call (m : Machine PagedMemory τ) : Call → Machine PagedMemory τ
  | .step => m.next
  | .flush => m.maintain Mmu.flush
  | .invalidate vaddr => m.maintain (·.invalidate vaddr)

/-- The machine after some calls. -/
def serve (m : Machine PagedMemory τ) (calls : List Call) : Machine PagedMemory τ :=
  calls.foldl call m

/-- **`m.serveTrace calls`** — what the steps among the calls answer, each with what it leaves. -/
def serveTrace (m : Machine PagedMemory τ) : List Call → List (Except Fault Progress × Snapshot)
  | [] => []
  | .step :: calls => (m.answerAt 0, m.next.snapshot) :: m.next.serveTrace calls
  | c :: calls => (m.call c).serveTrace calls

section Maintained

variable {footprint : Set Nat} {m n : Machine PagedMemory τ}

/-- Maintenance that keeps the tables and coherence keeps a machine matched. -/
theorem matches_maintain (h : (transparency PagedMemory τ footprint).Matches m n)
    {f : Mmu → Mmu × List PagingEvent} (htables : (f n.bus.mmu).1.tables = n.bus.mmu.tables)
    (hcoherent : (f n.bus.mmu).1.Coherent n.bus.memory) :
    (transparency PagedMemory τ footprint).Matches m (n.maintain f) := by
  obtain ⟨hregisters, hcompleted, ⟨hm, hn, hwalked, hfootprint⟩, hobserver⟩ := h
  refine ⟨hregisters, hcompleted, ⟨hm, hcoherent, ?_, hfootprint⟩, ?_⟩
  · rw [← hwalked]
    exact WalkedMemory.ext htables rfl
  · intro hpaging
    rw [maintain, Observer.observeAll_paging hpaging]
    exact hobserver hpaging

/-- A call that is not a step. -/
theorem matches_call (h : (transparency PagedMemory τ footprint).Matches m n) {c : Call}
    (hc : c ≠ .step) : (transparency PagedMemory τ footprint).Matches m (n.call c) := by
  have hn : n.bus.mmu.Coherent n.bus.memory := h.world.1.current
  cases c with
  | step => exact absurd rfl hc
  | flush =>
    exact matches_maintain (f := Mmu.flush) h rfl (Mmu.coherent_flush n.bus.mmu n.bus.memory)
  | invalidate vaddr =>
    exact matches_maintain (f := (·.invalidate vaddr)) h rfl (hn.invalidate vaddr)

/-- **Maintenance does not show**: a maintained machine stays beside one that only steps. -/
theorem matches_serve (h : (transparency PagedMemory τ footprint).Matches m n) (calls : List Call)
    (hclear : ∀ s ∈ m.stores (calls.count .step), s.Avoids footprint) :
    n.serveTrace calls = m.trace (calls.count .step) ∧
      (transparency PagedMemory τ footprint).Matches (m.after (calls.count .step))
        (n.serve calls) := by
  -- a step moves both machines on, maintenance moves the right one only
  induction calls generalizing m n with
  | nil => exact ⟨rfl, h⟩
  | cons c calls ih =>
    by_cases hc : c = .step
    · subst hc
      rw [List.count_cons_self] at hclear ⊢
      rw [stores_succ] at hclear
      obtain ⟨hanswer, hnext⟩ := matches_next h fun s hs => hclear s (List.mem_append_left _ hs)
      obtain ⟨htrace, hlast⟩ := ih hnext fun s hs => hclear s (List.mem_append_right _ hs)
      refine ⟨?_, ?_⟩
      · rw [serveTrace, trace, hanswer, snapshot_eq_of_matches hnext, htrace]
      · rw [Nat.add_comm, after_add]
        exact hlast
    · rw [List.count_cons_of_ne hc] at hclear ⊢
      obtain ⟨htrace, hlast⟩ := ih (matches_call h hc) hclear
      refine ⟨?_, hlast⟩
      rw [← htrace]
      cases c with
      | step => exact absurd rfl hc
      | flush => rfl
      | invalidate vaddr => rfl

end Maintained

theorem matches_self {m : Machine PagedMemory τ} (h : m.bus.Coherent) :
    (transparency PagedMemory τ m.bus.footprint).Matches m m :=
  ⟨rfl, rfl, ⟨h, h, rfl, rfl⟩, fun _ => rfl⟩

theorem matches_walked {m : Machine PagedMemory τ} (h : m.bus.Coherent) :
    (transparency WalkedMemory τ m.bus.footprint).Matches m m.walked :=
  ⟨rfl, rfl, ⟨h, trivial, rfl, rfl⟩, fun _ => rfl⟩

/-- **The lookaside buffer is transparent.**  Take a machine with a coherent buffer and a number of
steps whose stores are clear of the footprint of its page tables.  Its run shows what the run over
the reference bus shows.  It also shows the same with any flushes and invalidations between its
steps, before them or after them: the machine ends with the same registers, count, tables and bytes,
and what an observer has seen differs by reports of the memory system alone. -/
theorem trace_eq_walked_and_serve (m : Machine PagedMemory τ) (n : Nat) (hcoherent : m.bus.Coherent)
    (hclear : ∀ s ∈ m.stores n, s.Avoids m.bus.footprint) :
    m.trace n = m.walked.trace n ∧
    ∀ calls : List Call, calls.count .step = n →
      m.serveTrace calls = m.trace n ∧
      (m.serve calls).snapshot = (m.after n).snapshot ∧
      (m.serve calls).bus.walked = (m.after n).bus.walked ∧
      (Observer.IgnoresPaging τ → (m.serve calls).observer = (m.after n).observer) := by
  refine ⟨trace_eq_of_matches (matches_walked hcoherent) n hclear, ?_⟩
  rintro calls rfl
  obtain ⟨htrace, hlast⟩ := matches_serve (matches_self hcoherent) calls hclear
  refine ⟨htrace, (snapshot_eq_of_matches hlast).symm, hlast.world.1.walked_eq, ?_⟩
  intro hpaging
  exact (hlast.world.2 hpaging).symm

end Machine

namespace Small

/-- The small machine with a histogram of what it fetches. -/
def counting : Machine PagedMemory Histogram :=
  ⟨machine.registers, paged, .empty, 0⟩

theorem stores_counting : counting.stores 2 = [⟨24, .long⟩] := by
  decide +kernel

/-- The store goes to byte 24, far from the tables. -/
theorem stores_counting_avoid : ∀ s ∈ counting.stores 2, s.Avoids paged.footprint := by
  intro s hs i hi _ hmem
  rw [stores_counting] at hs
  obtain rfl := List.mem_singleton.mp hs
  have hlt : i < 8 := footprint_subset hmem
  have hle : 24 ≤ i := hi
  omega

end Small

namespace Machine

/-- A store and a `brk` on the only page there is, with a histogram, which does not see what the
memory system reports. -/
theorem small_trace_eq_walked_and_serve :
    Small.counting.stores 2 = [⟨24, .long⟩] ∧
    Small.counting.trace 2 = Small.counting.walked.trace 2 ∧
    ∀ calls : List Call, calls.count .step = 2 →
      Small.counting.serveTrace calls = Small.counting.trace 2 ∧
      (Small.counting.serve calls).snapshot = (Small.counting.after 2).snapshot ∧
      (Small.counting.serve calls).bus.walked = (Small.counting.after 2).bus.walked ∧
      (Small.counting.serve calls).observer = (Small.counting.after 2).observer := by
  obtain ⟨htrace, hserve⟩ := trace_eq_walked_and_serve Small.counting 2
    (PagedMemory.coherent_ofMemory _ _) Small.stores_counting_avoid
  refine ⟨Small.stores_counting, htrace, ?_⟩
  intro calls hcalls
  obtain ⟨hserved, hsnapshot, hwalked, hobserver⟩ := hserve calls hcalls
  exact ⟨hserved, hsnapshot, hwalked, hobserver Histogram.ignoresPaging⟩

end Machine

end Moxie
