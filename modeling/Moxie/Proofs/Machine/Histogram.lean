/-
# Moxie.Proofs.Machine.Histogram — the histogram of a run and its counter say the same.

Three books are kept of a run.  The machine counts the instructions it completes, the histogram
counts the words and operands it is told of, and the table of opcodes says which words have an
operand.  A step that goes through is entered in all of them, but a step may fail on the way: before
its word is fetched, at a word that is no instruction, before its operand is fetched, or after that.
`Machine.Course` lists the ways, with what the step fetches in each and what it answers, and how the
books differ in each case is read off the list (`Course.any_isWord`, `Course.countP_isIllegal`,
`Course.countP_announcesOperand`).

A run has any number of steps, with resets between them.  The histogram has seen what its steps
fetch (`observer_play`) and the counter has counted those that completed (`completed_play`), so the
balance of single steps adds up to that of the run, as long as no counter overflows.
-/
import Moxie.Proofs.Counting
import Moxie.Proofs.Machine.Faults
import Moxie.Proofs.Machine.Tracing

namespace Moxie

/-! ## Kinds of fetches -/

namespace Event

/-- An instruction word was fetched. -/
def isWord : Event → Bool
  | .fetched .. => true
  | _ => false

/-- A word was fetched that is no instruction. -/
def isIllegal : Event → Bool
  | .fetched i _ => i.opcode.isNone
  | _ => false

/-- An operand was fetched. -/
def isOperand : Event → Bool
  | .operand _ => true
  | _ => false

/-- **`e.isOpcode op`** — the word of an `op` was fetched. -/
def isOpcode (op : Opcode) : Event → Bool
  | .fetched i _ => i.opcode = some op
  | _ => false

/-- A word was fetched whose instruction has a 32-bit operand. -/
def announcesOperand : Event → Bool
  | .fetched i _ => i.opcode.any (·.immediateWords = 2)
  | _ => false

theorem isFetch_of_isWord {e : Event} (h : e.isWord = true) : e.isFetch = true := by
  cases e with
  | fetched => rfl
  | _ => cases h

theorem isFetch_of_isOperand {e : Event} (h : e.isOperand = true) : e.isFetch = true := by
  cases e with
  | operand => rfl
  | _ => cases h

theorem isWord_of_isIllegal {e : Event} (h : e.isIllegal = true) : e.isWord = true := by
  cases e with
  | fetched => rfl
  | _ => cases h

theorem isWord_of_isOpcode {op : Opcode} {e : Event} (h : e.isOpcode op = true) :
    e.isWord = true := by
  cases e with
  | fetched => rfl
  | _ => cases h

/-- A word is of one opcode at most. -/
theorem pairwise_isOpcode :
    Opcode.all.Pairwise fun op q => ∀ e : Event, e.isOpcode op = true → e.isOpcode q = false := by
  refine Opcode.pairwise_all.imp fun {op q} hlt e hop => ?_
  cases e with
  | fetched i address =>
    have hi : i.opcode = some op := of_decide_eq_true hop
    refine decide_eq_false fun hq => ?_
    cases hi.symm.trans hq
    simp at hlt
  | _ => cases hop

/-- A word is of some opcode or is no instruction. -/
theorem toNat_isWord (e : Event) :
    e.isWord.toNat = (Opcode.all.any (e.isOpcode ·)).toNat + e.isIllegal.toNat := by
  cases e with
  | fetched i address =>
    cases hop : i.opcode with
    | none => simp [isWord, isOpcode, isIllegal, hop]
    | some op =>
      have hany : (Opcode.all.any fun q => (fetched i address).isOpcode q) = true :=
        List.any_eq_true.mpr ⟨op, Opcode.mem_all op, decide_eq_true hop⟩
      simp [isWord, isIllegal, hop, hany]
  | _ => rfl

end Event

/-- The answer is the fault of a word that is no instruction. -/
def isIllegalOpcode {α : Type} : Except Fault α → Bool
  | .error (.illegalOpcode ..) => true
  | _ => false

/-- No operation has this fault. -/
theorem isIllegalOpcode_eq_false {α : Type} {op : Opcode} {r : Except Fault α}
    (h : ∀ f, r = .error f → op.canRaise f) : isIllegalOpcode r = false := by
  cases r with
  | ok a => rfl
  | error f =>
    cases f with
    | illegalOpcode word address => exact absurd (h _ rfl) Bool.false_ne_true
    | _ => rfl

/-! ## What a histogram has counted -/

namespace Histogram

/-- **`h.announced`** — how many of the counted words have a 32-bit operand, by the table of
opcodes.
-/
def announced (h : Histogram) : Nat :=
  ((Opcode.all.filter fun op => op.immediateWords = 2).map
    fun op => (h.count op).toNat).foldr (· + ·) 0

/-- The sum of the counts does not change when those that are zero are left out. -/
theorem total_eq (h : Histogram) :
    h.total = (Opcode.all.map h.count).foldr (· + ·) 0 + h.illegal := by
  have hsum : ∀ ops : List Opcode,
      (((ops.map fun op => (op, h.count op)).filter fun entry => entry.2 != 0).map (·.2)).foldr
        (· + ·) 0 = (ops.map h.count).foldr (· + ·) 0 := by
    intro ops
    induction ops with
    | nil => rfl
    | cons op ops ih =>
      simp only [List.map_cons, List.filter_cons, List.foldr_cons]
      by_cases hop : h.count op = 0
      · simp [hop, ih]
      · simp [hop, ih]
  exact congrArg (· + h.illegal) (hsum Opcode.all)

/-- Raising one of several counts raises their sum. -/
theorem foldr_count_addInstruction {h : Histogram} {i : Instruction} {op : Opcode}
    (hi : i.opcode = some op) {ops : List Opcode} (hops : ops.Nodup) :
    (ops.map (h.addInstruction i).count).foldr (· + ·) 0 =
      (ops.map h.count).foldr (· + ·) 0 + if op ∈ ops then 1 else 0 := by
  induction ops with
  | nil => simp
  | cons q ops ih =>
    obtain ⟨hq, hrest⟩ := List.nodup_cons.mp hops
    rw [List.map_cons, List.foldr_cons, ih hrest, count_addInstruction, hi, List.map_cons,
      List.foldr_cons]
    by_cases hop : op = q
    · -- the opcode does not come again, so its count is raised just here
      subst hop
      rw [if_pos rfl, if_neg hq, if_pos List.mem_cons_self, UInt64.add_zero, UInt64.add_assoc,
        UInt64.add_assoc, UInt64.add_comm 1]
    · simp [hop, UInt64.add_assoc]

/-- Every fetched word adds one to the total. -/
theorem total_observe (h : Histogram) (e : Event) :
    (Observer.observe h e).total = h.total + UInt64.ofNat e.isWord.toNat := by
  cases e with
  | fetched i address =>
    show (h.addInstruction i).total = h.total + 1
    rw [total_eq, total_eq]
    cases hi : i.opcode with
    | none =>
      have hadd : h.addInstruction i = { h with illegal := h.illegal + 1 } := by
        rw [addInstruction, hi]
      rw [hadd]
      exact (UInt64.add_assoc ..).symm
    | some op =>
      have hillegal : (h.addInstruction i).illegal = h.illegal := by
        rw [addInstruction, hi]
      rw [foldr_count_addInstruction hi Opcode.nodup_all, if_pos (Opcode.mem_all op), hillegal]
      simp only [UInt64.add_assoc, UInt64.add_comm 1]
  | _ => exact (UInt64.add_zero _).symm

theorem illegal_observe (h : Histogram) (e : Event) :
    (Observer.observe h e).illegal = h.illegal + UInt64.ofNat e.isIllegal.toNat := by
  cases e with
  | fetched i address =>
    show (h.addInstruction i).illegal = _ + UInt64.ofNat i.opcode.isNone.toNat
    rw [addInstruction]
    cases i.opcode with
    | none => rfl
    | some op => exact (UInt64.add_zero _).symm
  | _ => exact (UInt64.add_zero _).symm

theorem immediates_observe (h : Histogram) (e : Event) :
    (Observer.observe h e).immediates = h.immediates + UInt64.ofNat e.isOperand.toNat := by
  cases e with
  | fetched i address =>
    show (h.addInstruction i).immediates = h.immediates + 0
    rw [addInstruction, UInt64.add_zero]
    cases i.opcode <;> rfl
  | operand v => rfl
  | _ => exact (UInt64.add_zero _).symm

theorem count_observe (op : Opcode) (h : Histogram) (e : Event) :
    (Observer.observe h e).count op = h.count op + UInt64.ofNat (e.isOpcode op).toNat := by
  cases e with
  | fetched i address =>
    show (h.addInstruction i).count op = _ + UInt64.ofNat (decide (i.opcode = some op)).toNat
    rw [count_addInstruction]
    by_cases hi : i.opcode = some op
    · rw [if_pos hi, decide_eq_true hi]
      rfl
    · rw [if_neg hi, decide_eq_false hi]
      exact (UInt64.add_zero _).symm
  | _ => exact (UInt64.add_zero _).symm

/-- What goes up by one with each event of some kind goes up by their number, modulo its width. -/
theorem observeAll_eq_add {f : Histogram → UInt64} {mark : Event → Bool}
    (h : ∀ t e, f (Observer.observe t e) = f t + UInt64.ofNat (mark e).toNat) (t : Histogram)
    (events : List Event) :
    f (Observer.observeAll t events) = f t + UInt64.ofNat (events.countP mark) := by
  induction events generalizing t with
  | nil => exact (UInt64.add_zero _).symm
  | cons e events ih =>
    show f (Observer.observeAll (Observer.observe t e) events) = _
    rw [ih, h, List.countP_cons, UInt64.add_assoc, ← UInt64.ofNat_add, Nat.add_comm]
    cases mark e <;> rfl

/-- **From nothing on it counts these events**, if they are not too many. -/
theorem toNat_observeAll {f : Histogram → UInt64} {mark : Event → Bool} (hempty : f .empty = 0)
    (h : ∀ t e, f (Observer.observe t e) = f t + UInt64.ofNat (mark e).toNat) {events : List Event}
    (hbound : events.countP mark < UInt64.size) :
    (f (Observer.observeAll .empty events)).toNat = events.countP mark := by
  rw [observeAll_eq_add h, hempty, UInt64.zero_add, UInt64.toNat_ofNat_of_lt' hbound]

end Histogram

/-! ## The course of a step -/

section Operands

variable {β τ : Type} [Bus β]

/-- **`i.lacksOperand bus address`** — the instruction has a 32-bit operand, and its fetch from
`address` fails. -/
def Instruction.lacksOperand (i : Instruction) (bus : β) (address : UInt32) : Bool :=
  i.opcode.any (·.immediateWords = 2) && !(Bus.read bus .long address).result.isOk

/-- **`m.lacksOperand`** — the next step fetches an instruction word, and then fails to fetch its
32-bit operand. -/
def Machine.lacksOperand (m : Machine β τ) : Bool :=
  if m.registers.halted then false
  else
    let fetch := Bus.read m.bus .short m.registers.ipAddress
    match fetch.result with
    | .error _ => false
    | .ok word =>
      (Instruction.decode word.toUInt16).lacksOperand fetch.state (m.registers.advance 1).ipAddress

end Operands

namespace Machine

variable {β τ : Type} {m : Machine β τ}

/-- **`m.Course events lacks r`** — a step of `m` may fetch `events`, lack its operand or not, and
answer `r`. -/
inductive Course (m : Machine β τ) : List Event → Bool → Except Fault Progress → Prop where
  /-- The machine has stopped before. -/
  | stopped (h : m.registers.halted = true) : Course m [] false (.ok .halted)
  /-- There is no word. -/
  | noWord {e : AccessError} (h : m.registers.halted = false) :
      Course m [] false (.error (.access e))
  /-- The word is no instruction. -/
  | illegal {i : Instruction} {address : UInt32} (h : m.registers.halted = false)
      (hop : i.opcode = none) :
      Course m [.fetched i address] false (.error (.illegalOpcode i.word address))
  /-- The instruction has a 32-bit operand, but there is none. -/
  | noOperand {i : Instruction} {op : Opcode} {address : UInt32} {e : AccessError}
      (h : m.registers.halted = false) (hop : i.opcode = some op) (hwords : op.immediateWords = 2) :
      Course m [.fetched i address] true (.error (.access e))
  /-- The operation is performed with its operand. -/
  | withOperand {i : Instruction} {op : Opcode} {address v : UInt32} {r : Except Fault Progress}
      (h : m.registers.halted = false) (hop : i.opcode = some op) (hwords : op.immediateWords = 2)
      (hr : ∀ f, r = .error f → op.canRaise f) :
      Course m [.fetched i address, .operand v] false r
  /-- The operation is performed without one. -/
  | withoutOperand {i : Instruction} {op : Opcode} {address : UInt32} {r : Except Fault Progress}
      (h : m.registers.halted = false) (hop : i.opcode = some op) (hwords : op.immediateWords ≠ 2)
      (hr : ∀ f, r = .error f → op.canRaise f) :
      Course m [.fetched i address] false r

end Machine

namespace Action

variable {β τ : Type} [Observer τ] {m n : Machine β τ}

/-- A machine that has not stopped answers what its attempt at an instruction answers. -/
theorem answer_step [Bus β] (h : m.registers.halted = false) :
    step.answer m = (attempt m.registers.ipAddress).answer m := by
  have hstep : step m = (attempt m.registers.ipAddress >>= conclude) m := by
    rw [step_apply, h]
    rfl
  rw [answer, answer, hstep, bind_apply]
  cases attempt m.registers.ipAddress m <;> rfl

variable [Bus β]

/-- The faults of an instruction are such as its operation can raise. -/
theorem canRaise_of_answer {i : Instruction} {op : Opcode} (hop : i.opcode = some op)
    {address : UInt32} {f : Fault}
    (h : (execute i address : Action β τ Progress).answer m = .error f) :
    op.canRaise f := by
  cases hperform : perform op i address m with
  | ok _ k =>
    rw [answer_of_ok (execute_of_perform_ok hop hperform)] at h
    cases h
  | error e k =>
    rw [answer_of_error (execute_of_perform_error hop hperform)] at h
    cases h
    exact FaultsIn.perform op i address m f k hperform

end Action

namespace Machine

variable {β τ : Type} [Bus β] [Observer τ] {m k : Machine β τ}

/-- An instruction is executed on the machine `k` behind its word. -/
theorem course_execute (hfetch : Observer.FetchesOnly τ) (h : m.registers.halted = false)
    (i : Instruction) (address : UInt32) :
    m.Course (.fetched i address :: i.operandFetches k.bus k.registers.ipAddress)
      (i.lacksOperand k.bus k.registers.ipAddress) ((Action.execute i address).answer k) := by
  rw [Instruction.operandFetches, Instruction.lacksOperand]
  cases hop : i.opcode with
  | none =>
    have hanswer : (Action.execute i address).answer k =
        .error (.illegalOpcode i.word address) := by
      rw [Action.answer, Action.execute, hop]
      rfl
    rw [hanswer]
    exact .illegal h hop
  | some op =>
    have hr : ∀ f, (Action.execute i address).answer k = .error f → op.canRaise f :=
      fun f => Action.canRaise_of_answer hop
    by_cases hwords : op.immediateWords = 2
    · simp only [Option.any_some, hwords, decide_true, Bool.true_and, if_true, operandAt]
      cases hread : (Bus.read k.bus .long k.registers.ipAddress).result with
      | ok v => exact .withOperand h hop hwords hr
      | error e =>
        -- the operand comes first, and its fetch fails
        have hoperand : Action.operand k = .error (.access e)
            { k with bus := (Bus.read k.bus .long k.registers.ipAddress).state } :=
          (Action.bind_of_ok rfl).trans
            (Action.bind_of_error (Action.readBus_of_error hfetch hread))
        have hperform := Action.perform_of_operand_error hwords hoperand i address
        rw [Action.answer_of_error (Action.execute_of_perform_error hop hperform)]
        exact .noOperand h hop hwords
    · simp only [Option.any_some, hwords, decide_false, Bool.false_and, if_false]
      exact .withoutOperand h hop hwords hr

/-- **Every step takes one of the courses.** -/
theorem course (hfetch : Observer.FetchesOnly τ) (m : Machine β τ) :
    m.Course m.fetches m.lacksOperand (Action.step.answer m) := by
  cases h : m.registers.halted with
  | true =>
    rw [fetches, if_pos h, lacksOperand, if_pos h, Action.answer_of_ok (step_of_halted h)]
    exact .stopped h
  | false =>
    rw [Action.answer_step h]
    cases hread : (Bus.read m.bus .short m.registers.ipAddress).result with
    | error e =>
      have hattempt : (Action.attempt m.registers.ipAddress).answer m = .error (.access e) :=
        Action.answer_of_error (Action.bind_of_error (Action.readBus_of_error hfetch hread))
      rw [hattempt]
      simp only [fetches, lacksOperand, h, hread]
      exact .noWord h
    | ok word =>
      have hattempt : (Action.attempt m.registers.ipAddress).answer m = _ :=
        Action.answer_bind_of_ok (Action.readBus_of_ok hfetch hread)
      rw [hattempt]
      simp only [fetches, lacksOperand, h, hread]
      let k : Machine β τ :=
        ⟨m.registers.advance 1, (Bus.read m.bus .short m.registers.ipAddress).state,
          Observer.observe m.observer (.fetched (.decode word.toUInt16) m.registers.ipAddress),
          m.completed⟩
      exact course_execute (k := k) hfetch h (.decode word.toUInt16) m.registers.ipAddress

/-! ## The balance of a step -/

/-- The step is completed. -/
def completes (m : Machine β τ) : Bool :=
  !m.registers.halted && (Action.step.answer m).isOk

/-- The step faults after it has fetched its word. -/
def faultsLate (m : Machine β τ) : Bool :=
  m.fetches.any Event.isWord && !(Action.step.answer m).isOk

/-- The step faults at a word that is no instruction. -/
def faultsIllegal (m : Machine β τ) : Bool :=
  isIllegalOpcode (Action.step.answer m)

namespace Course

variable {events : List Event} {lacks : Bool} {r : Except Fault Progress}

omit [Bus β] [Observer τ]

/-- A step fetches one word at most. -/
theorem countP_isWord (h : m.Course events lacks r) :
    events.countP Event.isWord = (events.any Event.isWord).toNat := by
  cases h <;> rfl

/-- A step that fetches a word is completed or faults after it, and only such a step is
completed. -/
theorem any_isWord (h : m.Course events lacks r) :
    (events.any Event.isWord).toNat =
      (!m.registers.halted && r.isOk).toNat + (events.any Event.isWord && !r.isOk).toNat := by
  cases h with
  | stopped h | noWord h | illegal h | noOperand h => rw [h]; rfl
  | withOperand h | withoutOperand h =>
    rw [h]
    cases r <;> rfl

/-- A word that is no instruction is a fault of its own kind, and no other step has this fault. -/
theorem countP_isIllegal (h : m.Course events lacks r) :
    events.countP Event.isIllegal = (isIllegalOpcode r).toNat := by
  cases h with
  | stopped | noWord => rfl
  | illegal _ hop => simp [Event.isIllegal, isIllegalOpcode, hop]
  | noOperand _ hop => simp [Event.isIllegal, isIllegalOpcode, hop]
  | withOperand _ hop _ hr | withoutOperand _ hop _ hr =>
    rw [isIllegalOpcode_eq_false hr]
    simp [Event.isIllegal, hop]

/-- The operand of an instruction with one is fetched or lacking. -/
theorem countP_announcesOperand (h : m.Course events lacks r) :
    events.countP Event.announcesOperand = events.countP Event.isOperand + lacks.toNat := by
  cases h with
  | stopped | noWord => rfl
  | illegal _ hop => simp [Event.announcesOperand, Event.isOperand, hop]
  | noOperand _ hop hwords | withOperand _ hop hwords =>
    simp [Event.announcesOperand, Event.isOperand, hop, hwords]
  | withoutOperand _ hop hwords => simp [Event.announcesOperand, Event.isOperand, hop, hwords]

/-- A lacking operand is a fault. -/
theorem lacks_eq_false (h : m.Course events lacks r) (hr : r.isOk = true) : lacks = false := by
  cases h with
  | noOperand => cases hr
  | _ => rfl

end Course

/-! ## Runs -/

/-- A reset is neither seen nor counted, whether or not it is refused. -/
theorem turn_reset (m : Machine β τ) (start : UInt32) :
    (m.turn (.reset start)).observer = m.observer ∧
      (m.turn (.reset start)).completed = m.completed := by
  by_cases heven : start % 2 = 0
  · have h : (Action.reset start : Action β τ Unit) = _ := if_pos heven
    rw [turn, h]
    exact ⟨rfl, rfl⟩
  · have h : (Action.reset start : Action β τ Unit) = _ := if_neg heven
    rw [turn, h]
    exact ⟨rfl, rfl⟩

/-- **What a run with resets fetches is what its steps fetch.** -/
theorem observer_play (hfetch : Observer.FetchesOnly τ) (m : Machine β τ) (turns : List Turn) :
    (m.play turns).observer =
      Observer.observeAll m.observer ((m.stepsIn turns).flatMap Machine.fetches) := by
  induction turns generalizing m with
  | nil => rfl
  | cons t turns ih =>
    show ((m.turn t).play turns).observer = _
    rw [ih]
    cases t with
    | step =>
      rw [stepsIn, List.flatMap_cons, Observer.observeAll_append, ← Action.reports_step hfetch m]
      rfl
    | reset start =>
      rw [stepsIn, (m.turn_reset start).1]

theorem completed_next (m : Machine β τ) :
    m.next.completed = m.completed + UInt64.ofNat m.completes.toNat := by
  have h := m.stepped
  rw [next, completes, Action.leaves, Action.answer]
  generalize Action.step m = r at h
  cases h with
  | stopped h => simp [h]
  | running h _ hcount => simp [h, hcount]
  | halted h _ hcount => simp [h, hcount]
  | faulted h _ hcount => simp [hcount]

/-- **The counter of a run with resets.** -/
theorem completed_play (m : Machine β τ) (turns : List Turn) :
    (m.play turns).completed =
      m.completed + UInt64.ofNat ((m.stepsIn turns).countP Machine.completes) := by
  induction turns generalizing m with
  | nil => exact (UInt64.add_zero _).symm
  | cons t turns ih =>
    show ((m.turn t).play turns).completed = _
    rw [ih]
    cases t with
    | step =>
      rw [stepsIn, List.countP_cons, turn, completed_next, UInt64.add_assoc, ← UInt64.ofNat_add,
        Nat.add_comm]
      cases m.completes <;> rfl
    | reset start =>
      rw [stepsIn, (m.turn_reset start).2]

end Machine

/-! ## The histogram of a run -/

/-- The words with a 32-bit operand are those of the opcodes that the table gives one. -/
theorem Event.any_isOpcode (e : Event) :
    (Opcode.all.filter fun op => op.immediateWords = 2).any (e.isOpcode ·) =
      e.announcesOperand := by
  cases e with
  | fetched i address =>
    rw [Bool.eq_iff_iff, List.any_filter, List.any_eq_true]
    cases hop : i.opcode with
    | none => simp [isOpcode, announcesOperand, hop]
    | some op => simp [isOpcode, announcesOperand, hop, Opcode.mem_all]
  | _ => simp [isOpcode, announcesOperand]

namespace Histogram

/-- The count of an opcode is the number of its words. -/
theorem toNat_count_observeAll {op : Opcode} {events : List Event}
    (hbound : events.countP (Event.isOpcode op) < UInt64.size) :
    ((Observer.observeAll empty events).count op).toNat = events.countP (Event.isOpcode op) := by
  refine toNat_observeAll (f := (·.count op)) ?_ (count_observe op) hbound
  simp [count, empty]

/-- **What the counts of opcodes announce is what was fetched with an operand.** -/
theorem announced_observeAll {events : List Event}
    (hbound : ∀ op, events.countP (Event.isOpcode op) < UInt64.size) :
    (Observer.observeAll Histogram.empty events).announced =
      events.countP Event.announcesOperand := by
  rw [announced]
  simp only [toNat_count_observeAll (hbound _)]
  rw [foldr_countP_eq (Event.pairwise_isOpcode.filter _)]
  exact List.countP_congr fun e _ => by rw [e.any_isOpcode]

/-- **The books of a histogram**, as long as none of them overflows. -/
theorem books_observeAll {events : List Event} (hwords : events.countP Event.isWord < UInt64.size)
    (hoperands : events.countP Event.isOperand < UInt64.size) :
    let h := Observer.observeAll Histogram.empty events
    h.total.toNat = events.countP Event.isWord ∧
      h.illegal.toNat = events.countP Event.isIllegal ∧
      h.immediates.toNat = events.countP Event.isOperand ∧
      h.announced = events.countP Event.announcesOperand := by
  -- the other kinds are kinds of words
  have hkind : ∀ mark : Event → Bool, (∀ e, mark e = true → e.isWord = true) →
      events.countP mark < UInt64.size :=
    fun mark h => Nat.lt_of_le_of_lt (List.countP_mono_left fun e _ => h e) hwords
  exact ⟨toNat_observeAll rfl total_observe hwords,
    toNat_observeAll rfl illegal_observe (hkind _ fun _ => Event.isWord_of_isIllegal),
    toNat_observeAll rfl immediates_observe hoperands,
    announced_observeAll fun _ => hkind _ fun _ => Event.isWord_of_isOpcode⟩

end Histogram

namespace Machine

section Steps

variable {β τ : Type} [Bus β] [Observer τ] (hfetch : Observer.FetchesOnly τ)
  (steps : List (Machine β τ))

include hfetch

/-- The words that some steps fetch are those of the steps that fetch one. -/
theorem countP_isWord_steps : (steps.flatMap Machine.fetches).countP Event.isWord =
    steps.countP fun s => s.fetches.any Event.isWord :=
  countP_flatMap_eq (fun s => (s.course hfetch).countP_isWord) steps

theorem countP_any_isWord_steps : (steps.countP fun s => s.fetches.any Event.isWord) =
    steps.countP completes + steps.countP faultsLate :=
  countP_eq_add (fun s => (s.course hfetch).any_isWord) steps

theorem countP_isIllegal_steps :
    (steps.flatMap Machine.fetches).countP Event.isIllegal = steps.countP faultsIllegal :=
  countP_flatMap_eq (fun s => (s.course hfetch).countP_isIllegal) steps

theorem countP_announcesOperand_steps :
    (steps.flatMap Machine.fetches).countP Event.announcesOperand =
      (steps.flatMap Machine.fetches).countP Event.isOperand + steps.countP lacksOperand :=
  countP_flatMap_eq_add (fun s => (s.course hfetch).countP_announcesOperand) steps

/-- Steps fetch an operand at most each. -/
theorem countP_isOperand_steps_le :
    (steps.flatMap Machine.fetches).countP Event.isOperand ≤ steps.length := by
  -- an operand is announced by a word, and no step fetches two of these
  have hannounced := countP_announcesOperand_steps hfetch steps
  have hwords : (steps.flatMap Machine.fetches).countP Event.announcesOperand ≤
      (steps.flatMap Machine.fetches).countP Event.isWord := by
    refine List.countP_mono_left fun e _ he => ?_
    cases e with
    | fetched => rfl
    | _ => cases he
  have hsteps := countP_isWord_steps hfetch steps
  have hle : (steps.countP fun s => s.fetches.any Event.isWord) ≤ steps.length :=
    List.countP_le_length
  omega

/-- Where no step faults, none faults late. -/
theorem countP_faults_of_ok (hok : ∀ s ∈ steps, (Action.step.answer s).isOk) :
    steps.countP faultsLate = 0 ∧ steps.countP lacksOperand = 0 := by
  constructor
  · refine List.countP_eq_zero.mpr fun s hs => ?_
    rw [faultsLate, hok s hs, Bool.not_true, Bool.and_false]
    exact Bool.false_ne_true
  · refine List.countP_eq_zero.mpr fun s hs => ?_
    rw [(s.course hfetch).lacks_eq_false (hok s hs)]
    exact Bool.false_ne_true

end Steps

variable {β : Type} [Bus β]

/-- **The histogram of a run and its counter.**  On any bus, let a machine with an empty histogram
and a counter at zero make fewer than `2 ^ 64` steps, going on after faults and with resets in
between.  The total of the histogram is the count of completed instructions and of the steps that
faulted behind their word; its illegal words are the faults of that kind; and its operands, with
those that could not be fetched, are as many as the counts of the opcodes announce.  If no step
faulted, the total is the count of completed instructions, and the operands follow from the
counts. -/
theorem histogram_of_play (m : Machine β Histogram) (hobserver : m.observer = .empty)
    (hcompleted : m.completed = 0) (turns : List Turn)
    (hbound : (m.stepsIn turns).length < UInt64.size) :
    let n := m.play turns
    let steps := m.stepsIn turns
    n.observer.total.toNat = n.completed.toNat + steps.countP faultsLate ∧
      n.observer.illegal.toNat = steps.countP faultsIllegal ∧
      n.observer.immediates.toNat + steps.countP lacksOperand = n.observer.announced ∧
      ((∀ s ∈ steps, (Action.step.answer s).isOk) →
        n.observer.total = n.completed ∧ n.observer.immediates.toNat = n.observer.announced) := by
  intro n steps
  have hfetch := Histogram.fetchesOnly
  have hle : ∀ p : Machine β Histogram → Bool, steps.countP p < UInt64.size :=
    fun p => Nat.lt_of_le_of_lt List.countP_le_length hbound
  have hcount : n.completed.toNat = steps.countP completes := by
    have h : n.completed = m.completed + UInt64.ofNat (steps.countP completes) :=
      completed_play m turns
    rw [h, hcompleted, UInt64.zero_add, UInt64.toNat_ofNat_of_lt' (hle _)]
  have hobserved : n.observer = Observer.observeAll .empty (steps.flatMap Machine.fetches) :=
    (observer_play hfetch m turns).trans (by rw [hobserver])
  have hwords := countP_isWord_steps hfetch steps
  obtain ⟨htotal, hillegal, himmediates, hannounced⟩ := Histogram.books_observeAll
    (hwords ▸ hle _) (Nat.lt_of_le_of_lt (countP_isOperand_steps_le hfetch steps) hbound)
  rw [← hobserved] at htotal hillegal himmediates hannounced
  have hsplit := countP_any_isWord_steps hfetch steps
  have hbalance := countP_announcesOperand_steps hfetch steps
  rw [countP_isIllegal_steps hfetch] at hillegal
  refine ⟨by omega, hillegal, by omega, fun hok => ?_⟩
  obtain ⟨hlate, hlacks⟩ := countP_faults_of_ok hfetch steps hok
  exact ⟨UInt64.toNat_inj.mp (by omega), by omega⟩

/-- A machine over ten bytes that counts: a load of an operand, a word that is no instruction, and a
jump whose operand lies beyond the end. -/
def tallying : Machine Memory Histogram where
  registers := .initial
  bus := ⟨⟨#[], #[0x20, 0x01, 0x2A, 0x00, 0x00, 0x00, 0x00, 0x00, 0x00, 0x1A], by decide⟩,
    by decide, by decide, by decide⟩
  observer := .empty
  completed := 0

/-- It loads, faults at the word, at the operand and at the end, and loads again after a reset. -/
theorem tallying_histogram :
    let turns : List Turn := [.step, .step, .step, .step, .reset 0, .step]
    let n := tallying.play turns
    tallying.observer = .empty ∧ tallying.completed = 0 ∧
      (tallying.stepsIn turns).length < UInt64.size ∧
      n.observer.total.toNat = n.completed.toNat + 2 ∧ n.observer.illegal.toNat = 1 ∧
      n.observer.immediates.toNat + 1 = n.observer.announced := by
  intro turns n
  have hbound : (tallying.stepsIn turns).length < UInt64.size := by decide
  have hlate : (tallying.stepsIn turns).countP faultsLate = 2 := by decide +kernel
  have hillegal : (tallying.stepsIn turns).countP faultsIllegal = 1 := by decide +kernel
  have hlacks : (tallying.stepsIn turns).countP lacksOperand = 1 := by decide +kernel
  obtain ⟨htotal, hillegals, hoperands, -⟩ := histogram_of_play tallying rfl rfl turns hbound
  rw [hlate] at htotal
  rw [hillegal] at hillegals
  rw [hlacks] at hoperands
  exact ⟨rfl, rfl, hbound, htotal, hillegals, hoperands⟩

end Machine

end Moxie
