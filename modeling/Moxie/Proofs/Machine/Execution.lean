/-
# Moxie.Proofs.Machine.Execution — a whole run is a batch without a budget.

A run from an address resets the machine and steps until it stops or faults, which may be never.  A
batch after the same reset takes the same steps as long as its budget lasts.  So the run has an
answer exactly when some budget is enough for the batch to end early, the answer is how that batch
ended, and the two machines are the same but for what they reported.

What is reported does not influence a run.  That makes it possible to speak of the events of a
batch: they are what a log with everything in it shows (`batchEvents`), and every other observer has
seen just these (`observer_runBatch`).  A run reports one event more before them and one after.
-/
import Moxie.Machine.Histogram
import Moxie.Proofs.Machine.Batches
import Moxie.Proofs.Machine.Simulation

namespace Moxie

/-! ## The events of a run -/

namespace Log

/-- A log that records everything. -/
def everything : Log where
  verbose := true

theorem events_observeAll {l : Log} (h : l.verbose = true) (events : List Event) :
    (Observer.observeAll l events).verbose = true ∧
      (Observer.observeAll l events).events = l.events ++ events := by
  induction events generalizing l with
  | nil => exact ⟨h, (List.append_nil _).symm⟩
  | cons e events ih =>
    have hfirst : (Observer.observe l e).verbose = true ∧
        (Observer.observe l e).events = l.events ++ [e] := by
      refine ⟨?_, ?_⟩
      · simp [Observer.observe, h]
      · rw [events_observe, h]
        rfl
    obtain ⟨hverbose, hevents⟩ := ih hfirst.1
    refine ⟨hverbose, hevents.trans ?_⟩
    rw [hfirst.2, List.append_assoc]
    rfl

end Log

theorem Observer.observeAll_append {τ : Type} [Observer τ] (o : τ) (front rest : List Event) :
    observeAll o (front ++ rest) = observeAll (observeAll o front) rest :=
  List.foldl_append ..

section Replay

variable {β τ : Type} [Bus β] [Observer τ]

/-- A machine that records everything, and one whose observer, starting with `o`, has seen what is
recorded. -/
def Simulation.replaying (β : Type) {τ : Type} [Bus β] [Observer τ] (o : τ) :
    Simulation β Log β τ where
  registers := .equal
  World b l c p := b = c ∧ l.verbose = true ∧ p = Observer.observeAll o l.events
  Admits _ := True
  Errors := Eq
  admits_of_read _ := trivial
  admits_of_write _ := trivial
  notify := by
    rintro b l _ _ ⟨rfl, hverbose, rfl⟩ e
    obtain ⟨hverbose', hevents⟩ := Log.events_observeAll hverbose [e]
    refine ⟨rfl, hverbose', ?_⟩
    rw [show (Observer.observe l e).events = l.events ++ [e] from hevents,
      Observer.observeAll_append]
    rfl
  read := by
    rintro b l _ _ ⟨rfl, hverbose, rfl⟩ w addr _
    obtain ⟨hverbose', hevents⟩ :=
      Log.events_observeAll hverbose ((Bus.read b w addr).events.map .paging)
    refine ⟨.of_eq (fun _ => rfl) rfl, rfl, hverbose', ?_⟩
    rw [Reply.report, Reply.report, hevents, Observer.observeAll_append]
  write := by
    rintro b l _ _ ⟨rfl, hverbose, rfl⟩ w addr v _
    obtain ⟨hverbose', hevents⟩ :=
      Log.events_observeAll hverbose ((Bus.write b w addr v).events.map .paging)
    refine ⟨.of_eq (fun _ => rfl) rfl, rfl, hverbose', ?_⟩
    rw [Reply.report, Reply.report, hevents, Observer.observeAll_append]

namespace Machine

/-- The same machine with a log in place of its observer. -/
def watched (m : Machine β τ) : Machine β Log :=
  ⟨m.registers, m.bus, .everything, m.completed⟩

/-- **`m.batchEvents budget`** — what the steps of a batch report, in order. -/
def batchEvents (m : Machine β τ) (budget : Nat) : List Event :=
  (m.watched.runBatch budget).2.observer.events

/-- **`m.withObserver o`** — the same machine with another observer. -/
def withObserver {σ : Type} (m : Machine β σ) (o : τ) : Machine β τ :=
  ⟨m.registers, m.bus, o, m.completed⟩

omit [Bus β] [Observer τ] in
theorem eq_withObserver {σ : Type} {m : Machine β σ} {n : Machine β τ} {o : τ}
    (hregisters : m.registers = n.registers) (hbus : m.bus = n.bus)
    (hcompleted : m.completed = n.completed) (hobserver : n.observer = o) :
    n = m.withObserver o := by
  obtain ⟨registers, bus, observer, completed⟩ := n
  dsimp only at hregisters hbus hcompleted hobserver
  rw [withObserver, hregisters, hbus, hcompleted, hobserver]

/-- **A batch, observer aside.**  How it ends and what it leaves is the same under every observer,
and every observer sees the same events. -/
theorem runBatch_eq_watched (m : Machine β τ) (budget : Nat) :
    m.runBatch budget =
      ((m.watched.runBatch budget).1,
        (m.watched.runBatch budget).2.withObserver
          (Observer.observeAll m.observer (m.batchEvents budget))) := by
  have hstart : (Simulation.replaying β m.observer).Related m.watched m :=
    ⟨rfl, rfl, rfl, rfl, rfl⟩
  obtain ⟨hbatch, hregisters, hcompleted, hbus, -, hobserver⟩ :=
    Simulation.runBatch hstart budget trivial
  exact Prod.ext hbatch.eq.symm (eq_withObserver hregisters hbus hcompleted hobserver)

end Machine

end Replay

/-! ## Runs and batches -/

/-- An observer to which only the fetches of instructions and operands mean anything. -/
def Observer.FetchesOnly (τ : Type) [Observer τ] : Prop :=
  ∀ (o : τ) (e : Event), e.isFetch = false → observe o e = o

theorem Observer.fetchesOnly_unit : FetchesOnly Unit :=
  fun _ _ _ => rfl

/-- Histograms count fetches only. -/
theorem Histogram.fetchesOnly : Observer.FetchesOnly Histogram := by
  intro h e he
  cases e with
  | fetched | operand => cases he
  | _ => rfl

/-- **`b.answer`** — what a run says that went as the batch did; nothing if the budget was too
small. -/
def Batch.answer (b : Batch) : Option (Except Fault Unit) :=
  match b.ending with
  | .completed => none
  | .halted => some (.ok ())
  | .faulted f => some (.error f)

namespace Batch

variable {b : Batch}

theorem answer_eq_none_iff : b.answer = none ↔ b.ending = .completed := by
  unfold answer
  cases b.ending <;> simp

theorem ended_of_answer {a : Except Fault Unit} (h : b.answer = some a) :
    b.ending ≠ .completed := by
  intro hend
  rw [answer_eq_none_iff.mpr hend] at h
  cases h

theorem answer_eq_ok_iff : b.answer = some (.ok ()) ↔ b.ending = .halted := by
  unfold answer
  cases b.ending <;> simp

theorem answer_eq_error_iff {f : Fault} : b.answer = some (.error f) ↔ b.ending = .faulted f := by
  unfold answer
  cases b.ending <;> simp

end Batch

namespace Machine

variable {β τ : Type} [Bus β] [Observer τ]

/-- The event that reports the end of a run with this answer. -/
def finalEvent (m : Machine β τ) : Except Fault Unit → Event
  | .ok () => .halted m.registers.ipAddress m.completed
  | .error f => .faulted m.registers.ipAddress m.completed f

/-- The machine after the report of how a run ended, if it did. -/
def finish (m : Machine β τ) : Option (Except Fault Unit) → Machine β τ
  | none => m
  | some a => m.notify (m.finalEvent a)

/-- **A run is a batch that reports its end.** -/
theorem runToEnd_eq (m : Machine β τ) (executed bound : Nat) :
    m.runToEnd bound =
      ((m.runFrom executed bound).1.answer,
        (m.runFrom executed bound).2.finish (m.runFrom executed bound).1.answer) := by
  induction bound generalizing m executed with
  | zero => rfl
  | succ bound ih =>
    rw [runToEnd]
    cases hm : Action.step m with
    | ok progress n =>
      cases progress with
      | running =>
        rw [runFrom_of_running hm]
        exact ih n (executed + 1)
      | halted =>
        rw [runFrom_of_halted hm]
        rfl
    | error f n =>
      rw [runFrom_of_faulted hm]
      rfl

/-- The batches that end early are all the same. -/
theorem runBatch_eq_of_ended {m : Machine β τ} {j k : Nat}
    (hj : (m.runBatch j).1.ending ≠ .completed) (hk : (m.runBatch k).1.ending ≠ .completed) :
    m.runBatch j = m.runBatch k := by
  rcases Nat.le_total j k with hle | hle
  · obtain ⟨d, rfl⟩ := Nat.exists_eq_add_of_le hle
    exact (runBatch_add_of_ended hj d).symm
  · obtain ⟨d, rfl⟩ := Nat.exists_eq_add_of_le hle
    exact runBatch_add_of_ended hk d

theorem batchEvents_eq_of_ended {m : Machine β τ} {j k : Nat}
    (hj : (m.runBatch j).1.ending ≠ .completed) (hk : (m.runBatch k).1.ending ≠ .completed) :
    m.batchEvents j = m.batchEvents k := by
  rw [runBatch_eq_watched] at hj hk
  rw [batchEvents, batchEvents, runBatch_eq_of_ended hj hk]

omit [Observer τ] in
/-- Nothing is reset from an odd address. -/
theorem reset_of_odd {m : Machine β τ} {start : UInt32} (h : start % 2 ≠ 0) :
    Action.reset start m = .error (.unalignedJump start) m :=
  congrFun (if_neg h) m

omit [Observer τ] in
/-- A reset from an even address leaves a running machine with its stack at the end of memory. -/
theorem reset_of_even (m : Machine β τ) {start : UInt32} (h : start % 2 = 0) :
    ∃ r, Action.reset start m = .ok () r ∧ r.registers.sp = Bus.size m.bus - 4 ∧
      r.registers.halted = false ∧ r.observer = m.observer := by
  refine ⟨_, congrFun (if_pos h) m, ?_, rfl, rfl⟩
  show ((m.registers.set .sp _).set .fp _).get .sp = _
  rw [Registers.get_set, Registers.get_set]
  rfl

/-- **A run after a reset, observer aside.**  It is the batch of the machine that was reset, between
two reports. -/
theorem execute_eq {m r : Machine β τ} {start : UInt32} (h : Action.reset start m = .ok () r)
    (hrunning : r.registers.halted = false) (bound : Nat) :
    m.execute bound start =
      ((r.runBatch bound).1.answer,
        ((r.runBatch bound).2.withObserver
          (Observer.observeAll r.observer
            (.started start r.registers.sp :: r.batchEvents bound))).finish
          (r.runBatch bound).1.answer) := by
  -- the machine that runs has seen the first report, and nothing else tells it from `r`
  have hrunning' : (r.notify (.started start r.registers.sp)).registers.halted = false := hrunning
  rw [execute, h]
  dsimp only
  rw [runToEnd_eq _ 0, ← runBatch_of_not_halted hrunning', runBatch_eq_watched,
    runBatch_eq_watched r]
  rfl

/-- A run has an answer when the batch with its bound ends early. -/
theorem execute_eq_some_iff {m r n : Machine β τ} {start : UInt32} {bound : Nat}
    {a : Except Fault Unit} (h : Action.reset start m = .ok () r)
    (hrunning : r.registers.halted = false) :
    m.execute bound start = (some a, n) ↔
      (r.runBatch bound).1.answer = some a ∧
        n = ((r.runBatch bound).2.withObserver
          (Observer.observeAll r.observer
            (.started start r.registers.sp :: r.batchEvents bound))).finish (some a) := by
  rw [execute_eq h hrunning, Prod.mk.injEq]
  constructor
  · rintro ⟨ha, rfl⟩
    exact ⟨ha, by rw [ha]⟩
  · rintro ⟨ha, rfl⟩
    exact ⟨ha, by rw [ha]⟩

omit [Bus β] in
/-- To an observer of fetches the report of the end is nothing. -/
theorem finish_of_fetchesOnly (h : Observer.FetchesOnly τ) (m : Machine β τ)
    (a : Option (Except Fault Unit)) : m.finish a = m := by
  have hnotify : ∀ e : Event, e.isFetch = false → m.notify e = m := by
    intro e he
    rw [notify, h m.observer e he]
  match a with
  | none => rfl
  | some (.ok ()) => exact hnotify _ rfl
  | some (.error f) => exact hnotify _ rfl

/-- Such an observer is left by a batch as if there had been a report of the start. -/
theorem observer_runBatch_of_fetchesOnly (h : Observer.FetchesOnly τ) (m : Machine β τ)
    (budget : Nat) (start sp : UInt32) :
    Observer.observeAll m.observer (.started start sp :: m.batchEvents budget) =
      (m.runBatch budget).2.observer := by
  rw [runBatch_eq_watched m, Observer.observeAll, List.foldl_cons, h _ _ rfl]
  rfl

/-- **A whole run is a batch without a budget.**  From an odd address nothing happens but a fault.
From an even one the run has an answer within some bound exactly when, after the reset, some budget
lets a batch end early.  Every such batch then leaves the machine that the run leaves, observer
aside, and ends as the run answers; and the observer has seen the start, the events of the batch and
one final event. -/
theorem execute_iff_runBatch (m : Machine β τ) (start : UInt32) :
    (start % 2 ≠ 0 → ∀ bound, m.execute bound start = (some (.error (.unalignedJump start)), m)) ∧
    (start % 2 = 0 → ∃ r, Action.reset start m = .ok () r ∧
      ((∃ bound < 2 ^ 64, ∃ a n, m.execute bound start = (some a, n)) ↔
        ∃ k < 2 ^ 64, (r.runBatch k).1.ending ≠ .completed) ∧
      ∀ k, (r.runBatch k).1.ending ≠ .completed →
        ∀ bound a n, m.execute bound start = (some a, n) →
          (a = .ok () ↔ (r.runBatch k).1.ending = .halted) ∧
          (∀ f, a = .error f ↔ (r.runBatch k).1.ending = .faulted f) ∧
          n.registers = (r.runBatch k).2.registers ∧
          n.bus = (r.runBatch k).2.bus ∧
          n.completed = (r.runBatch k).2.completed ∧
          (Observer.FetchesOnly τ → n = (r.runBatch k).2) ∧
          n.observer = Observer.observeAll m.observer
            (.started start (Bus.size m.bus - 4) :: r.batchEvents k ++ [n.finalEvent a])) := by
  constructor
  · intro hodd bound
    rw [execute, reset_of_odd hodd]
  · intro heven
    obtain ⟨r, hreset, hsp, hrunning, hobserver⟩ := m.reset_of_even heven
    have hexecute := execute_eq hreset hrunning
    refine ⟨r, hreset, ⟨?_, ?_⟩, ?_⟩
    · rintro ⟨bound, hbound, a, n, hrun⟩
      obtain ⟨ha, -⟩ := (execute_eq_some_iff hreset hrunning).mp hrun
      exact ⟨bound, hbound, Batch.ended_of_answer ha⟩
    · rintro ⟨k, hk, hended⟩
      obtain ⟨a, ha⟩ := Option.ne_none_iff_exists'.mp (mt Batch.answer_eq_none_iff.mp hended)
      exact ⟨k, hk, a, _, (execute_eq_some_iff hreset hrunning).mpr ⟨ha, rfl⟩⟩
    · intro k hended bound a n hrun
      obtain ⟨ha, hn⟩ := (execute_eq_some_iff hreset hrunning).mp hrun
      -- the bound is as good a budget as `k`
      have hbound := Batch.ended_of_answer ha
      rw [runBatch_eq_of_ended hbound hended] at ha hn
      rw [batchEvents_eq_of_ended hbound hended] at hn
      subst hn
      refine ⟨?_, ?_, rfl, rfl, rfl, ?_, ?_⟩
      · rw [← Batch.answer_eq_ok_iff, ha, Option.some.injEq]
      · intro f
        rw [← Batch.answer_eq_error_iff, ha, Option.some.injEq]
      · intro hfetches
        rw [finish_of_fetchesOnly hfetches, observer_runBatch_of_fetchesOnly hfetches]
        rfl
      · rw [hobserver, hsp, Observer.observeAll_append]
        rfl

/-- An odd start, and a run that stops at its second instruction. -/
theorem sample_execute_iff_runBatch :
    sample.execute 3 1 = (some (.error (.unalignedJump 1)), sample) ∧
    ∃ r, Action.reset 0 sample = .ok () r ∧ (r.runBatch 2).1.ending = .halted ∧
      (∃ bound < 2 ^ 64, ∃ a n, sample.execute bound 0 = (some a, n)) ∧
      ∀ bound a n, sample.execute bound 0 = (some a, n) →
        a = .ok () ∧ n = (r.runBatch 2).2 := by
  obtain ⟨hodd, -⟩ := execute_iff_runBatch sample 1
  obtain ⟨-, heven⟩ := execute_iff_runBatch sample 0
  obtain ⟨r, hreset, hiff, hruns⟩ := heven (by decide)
  have hhalted : (r.runBatch 2).1.ending = .halted := by
    obtain rfl := (EStateM.Result.ok.inj hreset).2
    decide +kernel
  have hended : (r.runBatch 2).1.ending ≠ .completed := by
    rw [hhalted]
    exact nofun
  refine ⟨hodd (by decide) 3, r, hreset, hhalted, hiff.mpr ⟨2, by decide, hended⟩, ?_⟩
  intro bound a n hrun
  obtain ⟨hok, -, -, -, -, hmachine, -⟩ := hruns 2 hended bound a n hrun
  exact ⟨hok.mpr hhalted, hmachine Observer.fetchesOnly_unit⟩

end Machine

end Moxie
