/-
# Moxie.Proofs.Machine.Tracing — the fetches of a run, as its observers see them.

An observer of fetches is told of each instruction word that was fetched and of each 32-bit operand.
That it cannot influence the run is one simulation: the machine beside itself with nobody watching
(`Simulation.unwatched`).

What it is told is said by `Machine.fetches`, which looks at the registers and the bus before a step
and not at the step.  The two are brought together by `Action.Reports`: what an action has such an
observer learn is a function of the machine it starts from.  Nearly every action is silent;
`operand` is the one that is not, and in an instruction with an operand it comes first, on the
machine just behind the instruction word.  So one case analysis over the opcodes (`reports_perform`)
says that the operand reports are those of the opcodes with `immediateWords = 2`, and the run lemma
adds up the steps.
-/
import Moxie.Proofs.Machine.Execution

namespace Moxie

variable {β τ : Type}

section Unwatched

variable [Bus β]

/-! ## Nobody watching -/

/-- A machine that nobody watches, and the same with any observer. -/
def Simulation.unwatched (β τ : Type) [Bus β] [Observer τ] : Simulation β Unit β τ where
  registers := .equal
  World b _ c _ := b = c
  Admits _ := True
  Errors := Eq
  admits_of_read _ := trivial
  admits_of_write _ := trivial
  notify h _ := h
  read := by
    rintro b _ _ _ rfl w addr _
    exact ⟨.of_eq (fun _ => rfl) rfl, rfl⟩
  write := by
    rintro b _ _ _ rfl w addr v _
    exact ⟨.of_eq (fun _ => rfl) rfl, rfl⟩

/-- **An observer changes nothing.**  Step by step the machine answers as it does with nobody
watching, and differs from that machine in its observer only. -/
theorem Machine.eq_unwatched [Observer τ] (m : Machine β τ) (k : Nat) :
    m.answerAt k = (m.withObserver ()).answerAt k ∧
      m.after k = ((m.withObserver ()).after k).withObserver (m.after k).observer := by
  have hstart : (Simulation.unwatched β τ).Related (m.withObserver ()) m := ⟨rfl, rfl, rfl⟩
  obtain ⟨hregisters, hcompleted, hbus⟩ := Simulation.after hstart k trivial
  refine ⟨?_, eq_withObserver hregisters hbus hcompleted rfl⟩
  exact (Simulation.answerAt hstart k trivial).eq_of_faultAgree.symm

/-! ## What a step fetches -/

/-- The 32-bit operand at an address, if it can be fetched. -/
def operandAt (bus : β) (address : UInt32) : List Event :=
  match (Bus.read bus .long address).result with
  | .ok v => [.operand v]
  | .error _ => []

/-- The operand of an instruction that has a 32-bit one; it would stand at `address`. -/
def Instruction.operandFetches (i : Instruction) (bus : β) (address : UInt32) : List Event :=
  match i.opcode with
  | none => []
  | some op => if op.immediateWords = 2 then operandAt bus address else []

/-- **`m.fetches`** — what the next step fetches and reports: the instruction word, if the machine
has not stopped and the word can be fetched, and then its operand. -/
def Machine.fetches (m : Machine β τ) : List Event :=
  if m.registers.halted then []
  else
    let fetch := Bus.read m.bus .short m.registers.ipAddress
    match fetch.result with
    | .error _ => []
    | .ok word =>
      let i := Instruction.decode word.toUInt16
      .fetched i m.registers.ipAddress ::
        i.operandFetches fetch.state (m.registers.advance 1).ipAddress

end Unwatched

/-! ## What an action reports -/

variable [Observer τ]

/-- An observer of fetches does not see the effect. -/
def Effect.Unseen : Effect → Prop
  | .report e => e.isFetch = false
  | _ => True

namespace Action

variable {α γ : Type}

/-- **`Reports x e`** — from a machine `m` on, `x` has an observer of fetches learn `e m`, and that
is all. -/
def Reports (x : Action β τ α) (e : Machine β τ → List Event) : Prop :=
  ∀ m, (x.leaves m).observer = Observer.observeAll m.observer (e m)

/-- Nothing is learnt. -/
def Silent (x : Action β τ α) : Prop :=
  Reports x fun _ => []

/-- What comes after a report may go on, as long as it is silent. -/
theorem observer_leaves_bind {x : Action β τ α} {f : α → Action β τ γ} (hf : ∀ a, Silent (f a))
    (m : Machine β τ) : (leaves (x >>= f) m).observer = (x.leaves m).observer := by
  cases hm : x m with
  | ok a n =>
    rw [leaves_bind_of_ok hm, leaves_of_ok hm, hf a n]
    rfl
  | error f n => rw [leaves_bind_of_error hm, leaves_of_error hm]

theorem Reports.bind {x : Action β τ α} {f : α → Action β τ γ} {e : Machine β τ → List Event}
    (hx : Reports x e) (hf : ∀ a, Silent (f a)) : Reports (x >>= f) e := by
  intro m
  rw [observer_leaves_bind hf, hx m]

/-- Reading the registers is no event. -/
theorem Reports.bindRegisters {f : Registers → Action β τ α} {e : Machine β τ → List Event}
    (h : ∀ s, Reports (f s) e) : Reports (registers >>= f) e :=
  fun m => h m.registers m

/-- Silent actions in sequence are silent. -/
theorem Silent.bind {x : Action β τ α} {f : α → Action β τ γ} (hx : Silent x)
    (hf : ∀ a, Silent (f a)) : Silent (x >>= f) :=
  Reports.bind hx hf

/-! ## Silent actions -/

variable [Bus β] (h : Observer.FetchesOnly τ)

include h

theorem observeAll_paging (o : τ) (events : List PagingEvent) :
    Observer.observeAll o (events.map .paging) = o := by
  induction events with
  | nil => rfl
  | cons e events ih =>
    show Observer.observeAll (Observer.observe o (.paging e)) (events.map .paging) = o
    rw [h o (.paging e) rfl, ih]

/-- What the memory system reports on the way is nothing to an observer of fetches. -/
theorem readBus_of_ok {m : Machine β τ} {w : Width} {addr v : UInt32}
    (hv : (Bus.read m.bus w addr).result = .ok v) :
    readBus w addr m = .ok v { m with bus := (Bus.read m.bus w addr).state } := by
  rw [readBus_apply, Machine.settle, hv, Reply.report, observeAll_paging h]

theorem readBus_of_error {m : Machine β τ} {w : Width} {addr : UInt32} {e : AccessError}
    (he : (Bus.read m.bus w addr).result = .error e) :
    readBus w addr m = .error (.access e) { m with bus := (Bus.read m.bus w addr).state } := by
  rw [readBus_apply, Machine.settle, he, Reply.report, observeAll_paging h]

/-- What an action is made of is silent but for the reports of fetches, so it is silent without
them. -/
theorem MadeOf.silent {x : Action β τ α} (hx : MadeOf Effect.Unseen x) : Silent x := by
  induction hx with
  | pure | fail | registers | move | setRegister | setSpecial | compare => exact fun _ => rfl
  | notify he => exact fun m => h m.observer _ he
  | readBus w addr =>
    intro m
    cases hread : (Bus.read m.bus w addr).result with
    | ok v => rw [leaves_of_ok (readBus_of_ok h hread)]; rfl
    | error e => rw [leaves_of_error (readBus_of_error h hread)]; rfl
  | writeBus _ w addr v =>
    intro m
    rw [leaves, writeBus_apply, Machine.settle]
    cases (Bus.write m.bus w addr v).result <;> exact observeAll_paging h m.observer _
  | bind _ _ ihx ihg => exact ihx.bind ihg

/-! ## Instructions -/

/-- An instruction without a 32-bit operand is silent. -/
theorem silent_perform {op : Opcode} (hop : op.immediateWords ≠ 2) (i : Instruction)
    (address : UInt32) : Silent (perform op i address : Action β τ Unit) := by
  refine MadeOf.silent h ((MadeOf.perform op i address).mono fun e he => ?_)
  cases e with
  | general | special | comparison | write | raise => trivial
  | report e =>
    cases e with
    | operand v => exact absurd he hop
    | interrupted => rfl
    | _ => exact False.elim he

/-- An operand is reported as soon as it was fetched, whatever the instruction then does with it. -/
theorem reports_operand :
    Reports (operand : Action β τ UInt32) fun m => operandAt m.bus m.registers.ipAddress := by
  intro m
  show (leaves (readBus .long m.registers.ipAddress >>= _) m).observer =
    Observer.observeAll m.observer (operandAt m.bus m.registers.ipAddress)
  unfold operandAt
  cases hread : (Bus.read m.bus .long m.registers.ipAddress).result with
  | ok v =>
    rw [leaves_bind_of_ok (readBus_of_ok h hread)]
    rfl
  | error e =>
    rw [leaves_bind_of_error (readBus_of_error h hread)]
    rfl

/-- An instruction with a 32-bit operand fetches it first of all and is silent then. -/
theorem reports_perform {op : Opcode} (hop : op.immediateWords = 2) (i : Instruction)
    (address : UInt32) :
    Reports (perform op i address : Action β τ Unit) fun m =>
      operandAt m.bus m.registers.ipAddress := by
  refine .bindRegisters fun s => ?_
  cases op with
  | jmpa => exact .bind (reports_operand h) fun target => MadeOf.silent h (.jump trivial)
  | jsra =>
    refine .bind (reports_operand h) fun target => MadeOf.silent h ?_
    exact .call trivial trivial trivial trivial
  | loadImmediate w =>
    exact .bind (reports_operand h) fun v => MadeOf.silent h (.setRegister trivial _)
  | swi =>
    exact .bind (reports_operand h) fun number => MadeOf.silent h (.interrupt trivial rfl trivial)
  | load m w =>
    cases m with
    | absolute =>
      refine .bind (reports_operand h) fun addr => MadeOf.silent h ?_
      exact .bind (.readBus w addr) fun v => .setRegister trivial v
    | indirect | offset => exact nomatch hop
  | store m w =>
    cases m with
    | absolute =>
      refine .bind (reports_operand h) fun addr => MadeOf.silent h ?_
      exact .writeBus trivial w addr _
    | indirect | offset => exact nomatch hop
  | _ => exact nomatch hop

theorem reports_execute (i : Instruction) (address : UInt32) :
    Reports (execute i address : Action β τ Progress) fun m =>
      i.operandFetches m.bus m.registers.ipAddress := by
  unfold execute Instruction.operandFetches
  cases i.opcode with
  | none => exact MadeOf.silent h (.fail trivial)
  | some op =>
    by_cases hop : op.immediateWords = 2
    · simp only [if_pos hop]
      exact .bind (reports_perform h hop i address) fun _ => MadeOf.silent h (.pure _)
    · simp only [if_neg hop]
      exact .bind (silent_perform h hop i address) fun _ => MadeOf.silent h (.pure _)

/-- A machine that has not stopped reports the word first, and then what the instruction fetches. -/
theorem observer_attempt {m : Machine β τ} (hrunning : m.registers.halted = false) :
    (leaves (attempt m.registers.ipAddress) m).observer =
      Observer.observeAll m.observer m.fetches := by
  show (leaves (readBus .short m.registers.ipAddress >>= _) m).observer = _
  cases hread : (Bus.read m.bus .short m.registers.ipAddress).result with
  | ok word =>
    rw [leaves_bind_of_ok (readBus_of_ok h hread)]
    simp only [Machine.fetches, hrunning, hread]
    -- the instruction is executed on the machine that has reported the word
    let n : Machine β τ :=
      ⟨m.registers.advance 1, (Bus.read m.bus .short m.registers.ipAddress).state,
        Observer.observe m.observer (.fetched (.decode word.toUInt16) m.registers.ipAddress),
        m.completed⟩
    exact reports_execute h (.decode word.toUInt16) m.registers.ipAddress n
  | error e =>
    rw [leaves_bind_of_error (readBus_of_error h hread)]
    simp only [Machine.fetches, hrunning, hread]
    rfl

/-- **A step reports what it fetches.** -/
theorem reports_step : Reports (step : Action β τ Progress) Machine.fetches := by
  intro m
  cases hhalted : m.registers.halted with
  | true =>
    rw [leaves_of_ok (Machine.step_of_halted hhalted), Machine.fetches, if_pos hhalted]
    rfl
  | false =>
    have hconclude : ∀ progress, Silent (conclude progress : Action β τ Progress) :=
      fun progress m => rfl
    have hstep : step.leaves m = leaves (attempt m.registers.ipAddress >>= conclude) m := by
      rw [leaves, leaves, step_apply, hhalted]
      rfl
    rw [hstep, observer_leaves_bind hconclude]
    exact observer_attempt h hhalted

end Action

/-! ## Runs -/

namespace Machine

/-- **`m.fetchesUpTo k`** — what the first `k` steps fetch, in order. -/
def fetchesUpTo [Bus β] (m : Machine β τ) (k : Nat) : List Event :=
  (List.range k).flatMap fun j => (m.after j).fetches

variable [Bus β]

/-- **A run reports what its steps fetch.** -/
theorem observer_after (h : Observer.FetchesOnly τ) (m : Machine β τ) (k : Nat) :
    (m.after k).observer = Observer.observeAll m.observer (m.fetchesUpTo k) := by
  induction k with
  | zero => rfl
  | succ k ih =>
    rw [fetchesUpTo, List.range_succ, List.flatMap_append, Observer.observeAll_append,
      List.flatMap_singleton]
    show (Action.step.leaves (m.after k)).observer = _
    rw [Action.reports_step h, ih]
    rfl

/-- With nobody watching the steps fetch the same. -/
theorem fetchesUpTo_unwatched (m : Machine β τ) (k : Nat) :
    (m.withObserver ()).fetchesUpTo k = m.fetchesUpTo k := by
  unfold fetchesUpTo
  congr 1
  funext j
  rw [(m.eq_unwatched j).2]
  rfl

end Machine

/-! ## The record of a run -/

/-- The observer that writes down each fetch. -/
structure Trace where
  /-- What was written down, in order. -/
  calls : List Event
  deriving DecidableEq

namespace Trace

instance : Observer Trace where
  observe t e := if e.isFetch then ⟨t.calls ++ [e]⟩ else t

theorem fetchesOnly : Observer.FetchesOnly Trace := by
  intro t e he
  show (if e.isFetch then _ else t) = t
  rw [he]
  rfl

/-- Fetches are written down one by one. -/
theorem observeAll_eq (t : Trace) {events : List Event} (h : ∀ e ∈ events, e.isFetch = true) :
    Observer.observeAll t events = ⟨t.calls ++ events⟩ := by
  induction events generalizing t with
  | nil => rw [List.append_nil]; rfl
  | cons e events ih =>
    have hfirst : Observer.observe t e = ⟨t.calls ++ [e]⟩ := if_pos (h e List.mem_cons_self)
    show Observer.observeAll (Observer.observe t e) events = _
    rw [hfirst, ih _ fun e' he' => h e' (List.mem_cons_of_mem _ he'), List.append_assoc]
    rfl

end Trace

theorem isFetch_of_mem_operandFetches [Bus β] {i : Instruction} {bus : β} {address : UInt32}
    {e : Event} (h : e ∈ i.operandFetches bus address) : e.isFetch = true := by
  unfold Instruction.operandFetches operandAt at h
  split at h
  · exact absurd h List.not_mem_nil
  · split at h
    · split at h
      · rw [List.mem_singleton.mp h]
        rfl
      · exact absurd h List.not_mem_nil
    · exact absurd h List.not_mem_nil

omit [Observer τ] in
theorem Machine.isFetch_of_mem_fetches [Bus β] {m : Machine β τ} {e : Event}
    (h : e ∈ m.fetches) : e.isFetch = true := by
  unfold Machine.fetches at h
  split at h
  · exact absurd h List.not_mem_nil
  · dsimp only at h
    split at h
    · exact absurd h List.not_mem_nil
    · rcases List.mem_cons.mp h with rfl | hoperand
      · rfl
      · exact isFetch_of_mem_operandFetches hoperand

/-- **The trace is the run.**  Whatever observes a machine, each of its steps answers as with nobody
watching, and the machine it leaves differs from that one in the observer only.  An observer of
fetches is told, step by step and in order, what the steps of the unwatched machine fetch, and one
that writes this down has written just that. -/
theorem Machine.trace_eq_run [Bus β] (m : Machine β τ) (k : Nat) :
    let plain := m.withObserver ()
    m.answerAt k = plain.answerAt k ∧
      m.after k = (plain.after k).withObserver (m.after k).observer ∧
      (Observer.FetchesOnly τ →
        (m.after k).observer = Observer.observeAll m.observer (plain.fetchesUpTo k)) ∧
      ((m.withObserver (⟨[]⟩ : Trace)).after k).observer.calls = plain.fetchesUpTo k := by
  intro plain
  rcases m.eq_unwatched k with ⟨hanswer, hafter⟩
  refine ⟨hanswer, hafter, ?_, ?_⟩
  · intro h
    rw [observer_after h, fetchesUpTo_unwatched]
  · have hfetch : ∀ e ∈ plain.fetchesUpTo k, e.isFetch = true := by
      intro e he
      rcases List.mem_flatMap.mp he with ⟨j, _, hj⟩
      exact isFetch_of_mem_fetches hj
    rw [observer_after Trace.fetchesOnly, ← fetchesUpTo_unwatched]
    show (Observer.observeAll (⟨[]⟩ : Trace) (plain.fetchesUpTo k)).calls = _
    rw [Trace.observeAll_eq _ hfetch]
    rfl

/-- A machine over eight bytes that counts: a load of an operand, and a jump to an operand that lies
beyond them. -/
def Machine.counting : Machine Memory Histogram where
  registers := .initial
  bus := ⟨⟨#[], #[0x20, 0x01, 0x2A, 0x00, 0x00, 0x00, 0x00, 0x1A], by decide⟩,
    by decide, by decide, by decide⟩
  observer := .empty
  completed := 0

/-- Of the second instruction only the word is counted, and of a third one nothing. -/
theorem Machine.counting_trace_eq_run :
    Observer.FetchesOnly Histogram ∧
      (counting.after 3).observer = Observer.observeAll .empty
        [.fetched (.decode 0x0120) 0, .operand 42, .fetched (.decode 0x1A00) 6] := by
  obtain ⟨-, -, hobserver, -⟩ := trace_eq_run counting 3
  refine ⟨Histogram.fetchesOnly, (hobserver Histogram.fetchesOnly).trans ?_⟩
  have hfetches : (counting.withObserver ()).fetchesUpTo 3 =
      [.fetched (.decode 0x0120) 0, .operand 42, .fetched (.decode 0x1A00) 6] := by
    decide +kernel
  rw [hfetches]
  rfl

end Moxie
