/-
# Moxie.Proofs.Machine.Simulation — what it takes for two machines to run alike.

A processor touches its surroundings in four ways only: it reads its registers, changes them, uses
the bus, and reports to the observer.  So two machines, over different buses and with different
observers, stay in step as soon as a relation between them survives each of those four.  A
`Simulation` is such a relation with the proofs that it does; `Simulation.step` carries it through
every instruction, and `Simulation.after` and `Simulation.runBatch` through runs of any length.

Two generalities are paid for once here and used by every instance.

- **Promises about good runs only.**  A simulation may say nothing about runs whose left bus ends up
  outside `Admits`.  What makes this sound is that a bus outside `Admits` never comes back
  (`admits_of_read`, `admits_of_write`): a run that ends well was well all along.
- **Errors of different kinds.**  Two failing accesses answer each other when `Errors` says so; a
  fault that does not come from the bus must be the same on both sides (`FaultAgree`).
-/
import Moxie.Proofs.Machine.Steps

namespace Moxie

/-! ## Answers that correspond -/

/-- Both succeed with the same value, or both fail with errors that `E` relates. -/
inductive Agree {ε α : Type} (E : ε → ε → Prop) : Except ε α → Except ε α → Prop where
  | ok (a : α) : Agree E (.ok a) (.ok a)
  | error {e f : ε} (h : E e f) : Agree E (.error e) (.error f)

/-- The same fault, or two failed accesses whose errors `E` relates. -/
inductive FaultAgree (E : AccessError → AccessError → Prop) : Fault → Fault → Prop where
  | refl (f : Fault) : FaultAgree E f f
  | access {e e' : AccessError} (h : E e e') : FaultAgree E (.access e) (.access e')

/-- The same way for a batch to end, up to corresponding faults. -/
inductive EndAgree (E : AccessError → AccessError → Prop) : BatchEnd → BatchEnd → Prop where
  | completed : EndAgree E .completed .completed
  | halted : EndAgree E .halted .halted
  | faulted {f g : Fault} (h : FaultAgree E f g) : EndAgree E (.faulted f) (.faulted g)

/-- Batches that executed equally many instructions and ended in the same way. -/
structure BatchAgree (E : AccessError → AccessError → Prop) (x y : Batch) : Prop where
  executed : x.executed = y.executed
  ending : EndAgree E x.ending y.ending

theorem Agree.of_eq {ε α : Type} {E : ε → ε → Prop} (hE : ∀ e, E e e) {x y : Except ε α}
    (h : x = y) : Agree E x y := by
  subst h
  cases x with
  | ok a => exact .ok a
  | error e => exact .error (hE e)

theorem FaultAgree.eq {f g : Fault} (h : FaultAgree Eq f g) : f = g := by
  cases h with
  | refl f => rfl
  | access h => rw [h]

theorem Agree.eq_of_faultAgree {α : Type} {x y : Except Fault α} (h : Agree (FaultAgree Eq) x y) :
    x = y := by
  cases h with
  | ok a => rfl
  | error h => rw [h.eq]

theorem EndAgree.eq {x y : BatchEnd} (h : EndAgree Eq x y) : x = y := by
  cases h with
  | completed => rfl
  | halted => rfl
  | faulted hf => rw [hf.eq]

theorem BatchAgree.eq {x y : Batch} (h : BatchAgree Eq x y) : x = y := by
  obtain ⟨executed, ending⟩ := x
  obtain ⟨executed', ending'⟩ := y
  rw [Batch.mk.injEq]
  exact ⟨h.executed, h.ending.eq⟩

/-! ## Register states that instructions do not tell apart -/

/-- A relation between register states that agrees on all that instructions read and survives all
that they change.  The instruction pointer is read as a byte address only. -/
structure RegisterRelation where
  Holds : Registers → Registers → Prop
  refl : ∀ s, Holds s s
  get : ∀ {s t}, Holds s t → ∀ r, s.get r = t.get r
  getSpecial : ∀ {s t}, Holds s t → ∀ i, s.getSpecial i = t.getSpecial i
  ipAddress : ∀ {s t}, Holds s t → s.ipAddress = t.ipAddress
  comparison : ∀ {s t}, Holds s t → s.comparison = t.comparison
  halted : ∀ {s t}, Holds s t → s.halted = t.halted
  set : ∀ {s t}, Holds s t → ∀ r v, Holds (s.set r v) (t.set r v)
  setSpecial : ∀ {s t}, Holds s t → ∀ i v, Holds (s.setSpecial i v) (t.setSpecial i v)
  advance : ∀ {s t}, Holds s t → ∀ words, Holds (s.advance words) (t.advance words)
  goto : ∀ {s t}, Holds s t → ∀ ip, Holds { s with ip } { t with ip }
  compare : ∀ {s t}, Holds s t → ∀ c, Holds { s with comparison := c } { t with comparison := c }
  halt : ∀ {s t}, Holds s t → Holds { s with halted := true } { t with halted := true }

/-- Equality of register states. -/
def RegisterRelation.equal : RegisterRelation where
  Holds := Eq
  refl _ := rfl
  get h _ := by rw [h]
  getSpecial h _ := by rw [h]
  ipAddress h := by rw [h]
  comparison h := by rw [h]
  halted h := by rw [h]
  set h _ _ := by rw [h]
  setSpecial h _ _ := by rw [h]
  advance h _ := by rw [h]
  goto h _ := by rw [h]
  compare h _ := by rw [h]
  halt h := by rw [h]

/-! ## Simulations -/

/-- **`r.report o`** — the observer `o` once it has seen the events of a reply. -/
def Reply.report {β τ α : Type} [Observer τ] (r : Reply β α) (o : τ) : τ :=
  Observer.observeAll o (r.events.map .paging)

/-- **`m.settle r`** — how an access that got the reply `r` ends on `m`. -/
def Machine.settle {β τ α : Type} [Observer τ] (m : Machine β τ) (r : Reply β α) :
    EStateM.Result Fault (Machine β τ) α :=
  match r.result with
  | .ok v => .ok v { m with bus := r.state, observer := r.report m.observer }
  | .error e => .error (.access e) { m with bus := r.state, observer := r.report m.observer }

theorem Action.readBus_apply {β τ : Type} [Bus β] [Observer τ] (w : Width) (addr : UInt32)
    (m : Machine β τ) : readBus w addr m = m.settle (Bus.read m.bus w addr) := by
  obtain ⟨registers, bus, observer, n⟩ := m
  simp only [readBus, Machine.settle]
  rcases Bus.read bus w addr with ⟨e | v, bus', events⟩ <;> rfl

theorem Action.writeBus_apply {β τ : Type} [Bus β] [Observer τ] (w : Width) (addr v : UInt32)
    (m : Machine β τ) : writeBus w addr v m = m.settle (Bus.write m.bus w addr v) := by
  obtain ⟨registers, bus, observer, n⟩ := m
  simp only [writeBus, Machine.settle]
  rcases Bus.write bus w addr v with ⟨e | ⟨⟩, bus', events⟩ <;> rfl

/-- A relation between machines that a processor cannot break. -/
structure Simulation (β σ γ τ : Type) [Bus β] [Observer σ] [Bus γ] [Observer τ] where
  registers : RegisterRelation
  /-- How the left bus and observer stand to the right ones. -/
  World : β → σ → γ → τ → Prop
  /-- The left buses about which something is promised. -/
  Admits : β → Prop
  /-- Which error on the left answers which on the right. -/
  Errors : AccessError → AccessError → Prop
  admits_of_read : ∀ {b w addr}, Admits (Bus.read b w addr).state → Admits b
  admits_of_write : ∀ {b w addr v}, Admits (Bus.write b w addr v).state → Admits b
  notify : ∀ {b o c p}, World b o c p → ∀ e, World b (Observer.observe o e) c (Observer.observe p e)
  read : ∀ {b o c p}, World b o c p → ∀ w addr, Admits (Bus.read b w addr).state →
    Agree Errors (Bus.read b w addr).result (Bus.read c w addr).result ∧
      World (Bus.read b w addr).state ((Bus.read b w addr).report o)
        (Bus.read c w addr).state ((Bus.read c w addr).report p)
  write : ∀ {b o c p}, World b o c p → ∀ w addr v, Admits (Bus.write b w addr v).state →
    Agree Errors (Bus.write b w addr v).result (Bus.write c w addr v).result ∧
      World (Bus.write b w addr v).state ((Bus.write b w addr v).report o)
        (Bus.write c w addr v).state ((Bus.write c w addr v).report p)

namespace Simulation

variable {β σ γ τ : Type} [Bus β] [Observer σ] [Bus γ] [Observer τ]

/-- Two machines of which every part is related to its counterpart. -/
structure Related (S : Simulation β σ γ τ) (m : Machine β σ) (n : Machine γ τ) : Prop where
  registers : S.registers.Holds m.registers n.registers
  completed : m.completed = n.completed
  world : S.World m.bus m.observer n.bus n.observer

/-- Two actions that ended alike and left related machines. -/
inductive Answers (S : Simulation β σ γ τ) {α : Type} :
    EStateM.Result Fault (Machine β σ) α → EStateM.Result Fault (Machine γ τ) α → Prop where
  | ok (a : α) {m : Machine β σ} {n : Machine γ τ} (h : S.Related m n) :
      Answers S (.ok a m) (.ok a n)
  | error {f g : Fault} (hf : FaultAgree S.Errors f g) {m : Machine β σ} {n : Machine γ τ}
      (h : S.Related m n) : Answers S (.error f m) (.error g n)

/-- **`S.Simulates x y`** — on related machines `x` and `y` end alike, provided the left bus is
still admitted when `x` has ended; and `x` does not repair a bus that is not. -/
structure Simulates (S : Simulation β σ γ τ) {α : Type} (x : Action β σ α) (y : Action γ τ α) :
    Prop where
  admits_of : ∀ {m}, S.Admits (x.leaves m).bus → S.Admits m.bus
  answers : ∀ {m n}, S.Related m n → S.Admits (x.leaves m).bus → S.Answers (x m) (y n)

variable {S : Simulation β σ γ τ} {α δ : Type}

theorem Answers.of_ok {a : α} {m : Machine β σ} {r : EStateM.Result Fault (Machine γ τ) α}
    (h : S.Answers (.ok a m) r) : ∃ n, r = .ok a n ∧ S.Related m n := by
  cases h with
  | ok _ h => exact ⟨_, rfl, h⟩

theorem Answers.of_error {f : Fault} {m : Machine β σ} {r : EStateM.Result Fault (Machine γ τ) α}
    (h : S.Answers (.error f m) r) :
    ∃ g n, r = .error g n ∧ FaultAgree S.Errors f g ∧ S.Related m n := by
  cases h with
  | error hf h => exact ⟨_, _, rfl, hf, h⟩

namespace Simulates

/-! ## The parts that instructions are made of -/

theorem pure (a : α) : S.Simulates (Pure.pure a) (Pure.pure a) where
  admits_of h := h
  answers h _ := .ok a h

theorem fail (f : Fault) : S.Simulates (Action.fail f : Action β σ α) (Action.fail f) where
  admits_of h := h
  answers h _ := .error (.refl f) h

/-- Sequencing.  The first action is judged at the end of the second one, which is why an action
must not repair a bus. -/
theorem bind {x : Action β σ α} {y : Action γ τ α} {f : α → Action β σ δ} {g : α → Action γ τ δ}
    (hx : S.Simulates x y) (hf : ∀ a, S.Simulates (f a) (g a)) :
    S.Simulates (x >>= f) (y >>= g) where
  admits_of {m} h := by
    refine hx.admits_of ?_
    cases hm : x m with
    | ok a m' =>
      rw [Action.leaves_bind_of_ok hm] at h
      rw [Action.leaves_of_ok hm]
      exact (hf a).admits_of h
    | error e m' =>
      rw [Action.leaves_bind_of_error hm] at h
      rwa [Action.leaves_of_error hm]
  answers {m n} hmn h := by
    rw [Action.bind_apply, Action.bind_apply]
    have hans := hx.answers hmn
    cases hm : x m with
    | ok a m' =>
      -- the bus is admitted after `f a`, hence already after `x`
      rw [Action.leaves_bind_of_ok hm] at h
      rw [hm, Action.leaves_of_ok hm] at hans
      obtain ⟨n', hn, hrel⟩ := (hans ((hf a).admits_of h)).of_ok
      rw [hn]
      exact (hf a).answers hrel h
    | error e m' =>
      rw [Action.leaves_bind_of_error hm] at h
      rw [hm, Action.leaves_of_error hm] at hans
      obtain ⟨e', n', hn, hf, hrel⟩ := (hans h).of_error
      rw [hn]
      exact .error hf hrel

/-- Reading the registers is the one place where the two sides see different values. -/
theorem bindRegisters {f : Registers → Action β σ α} {g : Registers → Action γ τ α}
    (h : ∀ {s t}, S.registers.Holds s t → S.Simulates (f s) (g t)) :
    S.Simulates (Action.registers >>= f) (Action.registers >>= g) where
  admits_of {m} hm := (h (S.registers.refl m.registers)).admits_of hm
  answers hmn hm := (h hmn.registers).answers hmn hm

theorem updateRegisters {f : Registers → Registers}
    (h : ∀ {s t}, S.registers.Holds s t → S.registers.Holds (f s) (f t)) :
    S.Simulates (Action.updateRegisters f) (Action.updateRegisters f) where
  admits_of hm := hm
  answers hmn _ := .ok () ⟨h hmn.registers, hmn.completed, hmn.world⟩

theorem setRegister (r : Register) (v : UInt32) :
    S.Simulates (Action.setRegister r v) (Action.setRegister r v) :=
  updateRegisters fun h => S.registers.set h r v

theorem advance (words : UInt32) : S.Simulates (Action.advance words) (Action.advance words) :=
  updateRegisters fun h => S.registers.advance h words

theorem goto (target : UInt32) : S.Simulates (Action.goto target) (Action.goto target) :=
  updateRegisters fun h => S.registers.goto h (target / 2)

theorem complete : S.Simulates Action.complete Action.complete where
  admits_of hm := hm
  answers hmn _ := .ok () ⟨hmn.registers, by rw [hmn.completed], hmn.world⟩

theorem notify (e : Event) : S.Simulates (Action.notify e) (Action.notify e) where
  admits_of hm := hm
  answers hmn _ := .ok () ⟨hmn.registers, hmn.completed, S.notify hmn.world e⟩

/-- Two accesses that settle with replies which agree. -/
theorem ofReply {x : Action β σ α} {y : Action γ τ α} {r : β → Reply β α} {q : γ → Reply γ α}
    (hx : ∀ m, x m = m.settle (r m.bus)) (hy : ∀ n, y n = n.settle (q n.bus))
    (hadmits : ∀ {b}, S.Admits (r b).state → S.Admits b)
    (hagree : ∀ {b o c p}, S.World b o c p → S.Admits (r b).state →
      Agree S.Errors (r b).result (q c).result ∧
        S.World (r b).state ((r b).report o) (q c).state ((q c).report p)) :
    S.Simulates x y := by
  have hbus : ∀ m, (x.leaves m).bus = (r m.bus).state := by
    intro m
    rw [Action.leaves, hx, Machine.settle]
    cases (r m.bus).result <;> rfl
  refine ⟨fun {m} hm => hadmits (by rwa [hbus] at hm), fun {m n} hmn hm => ?_⟩
  rw [hbus] at hm
  obtain ⟨hres, hworld⟩ := hagree hmn.world hm
  rw [hx, hy, Machine.settle, Machine.settle]
  generalize (r m.bus).result = left at hres
  generalize (q n.bus).result = right at hres
  cases hres with
  | ok v => exact .ok v ⟨hmn.registers, hmn.completed, hworld⟩
  | error he => exact .error (.access he) ⟨hmn.registers, hmn.completed, hworld⟩

theorem readBus (w : Width) (addr : UInt32) :
    S.Simulates (Action.readBus w addr) (Action.readBus w addr) :=
  ofReply (Action.readBus_apply w addr) (Action.readBus_apply w addr) S.admits_of_read
    fun h => S.read h w addr

theorem writeBus (w : Width) (addr v : UInt32) :
    S.Simulates (Action.writeBus w addr v) (Action.writeBus w addr v) :=
  ofReply (Action.writeBus_apply w addr v) (Action.writeBus_apply w addr v) S.admits_of_write
    fun h => S.write h w addr v

/-! ## Operands, stack and control -/

theorem operand : S.Simulates Action.operand Action.operand := by
  refine bindRegisters fun hs => ?_
  rw [S.registers.ipAddress hs]
  refine bind (readBus _ _) fun v => ?_
  refine bind (advance _) fun _ => ?_
  exact bind (notify _) fun _ => pure v

theorem displacement : S.Simulates Action.displacement Action.displacement := by
  refine bindRegisters fun hs => ?_
  rw [S.registers.ipAddress hs]
  refine bind (readBus _ _) fun v => ?_
  exact bind (advance _) fun _ => pure _

theorem effectiveAddress (m : Mode) (base : UInt32) :
    S.Simulates (Action.effectiveAddress m base) (Action.effectiveAddress m base) := by
  cases m with
  | indirect => exact pure base
  | absolute => exact operand
  | offset => exact bind displacement fun d => pure (base + d)

theorem push (v : UInt32) : S.Simulates (Action.push v) (Action.push v) := by
  refine bindRegisters fun hs => ?_
  rw [Registers.sp, Registers.sp, S.registers.get hs]
  exact bind (writeBus _ _ _) fun _ => setRegister _ _

theorem pop : S.Simulates Action.pop Action.pop := by
  refine bindRegisters fun hs => ?_
  rw [Registers.sp, Registers.sp, S.registers.get hs]
  refine bind (readBus _ _) fun v => ?_
  exact bind (setRegister _ _) fun _ => pure v

theorem requireAligned (target : UInt32) :
    S.Simulates (Action.requireAligned target) (Action.requireAligned target) := by
  unfold Action.requireAligned
  by_cases h : target % 2 = 0
  · rw [if_pos h, if_pos h]
    exact pure ()
  · rw [if_neg h, if_neg h]
    exact fail _

theorem jump (target : UInt32) : S.Simulates (Action.jump target) (Action.jump target) :=
  bind (requireAligned target) fun _ => goto target

theorem call (target : UInt32) : S.Simulates (Action.call target) (Action.call target) := by
  refine bind (requireAligned target) fun _ => ?_
  refine bindRegisters fun hs => ?_
  rw [S.registers.ipAddress hs, Registers.fp, Registers.fp, S.registers.get hs]
  refine bind (push _) fun _ => bind (push _) fun _ => bind (push _) fun _ => ?_
  refine bindRegisters fun hs => ?_
  rw [Registers.sp, Registers.sp, S.registers.get hs]
  exact bind (setRegister _ _) fun _ => goto target

theorem ret : S.Simulates Action.ret Action.ret := by
  refine bindRegisters fun hs => ?_
  rw [Registers.fp, Registers.fp, S.registers.get hs]
  refine bind (setRegister _ _) fun _ => bind pop fun fp => ?_
  refine bind (setRegister _ _) fun _ => bind pop fun address => ?_
  exact bind (goto address) fun _ => bind pop fun _ => pure ()

theorem specialIndex (v : UInt32) :
    S.Simulates (Action.specialIndex v) (Action.specialIndex v) := by
  unfold Action.specialIndex
  by_cases h : v.toNat < 10
  · rw [dif_pos h, dif_pos h]
    exact pure _
  · rw [dif_neg h, dif_neg h]
    exact fail _

theorem interrupt (number address : UInt32) :
    S.Simulates (Action.interrupt number address) (Action.interrupt number address) := by
  refine bind (updateRegisters fun h => ?_) fun _ => bind (notify _) fun _ => fail _
  exact S.registers.setSpecial (S.registers.setSpecial h _ _) _ _

/-! ## Instructions -/

theorem perform (op : Opcode) (i : Instruction) (address : UInt32) :
    S.Simulates (Action.perform op i address) (Action.perform op i address) := by
  refine bindRegisters fun {s t} hs => ?_
  -- from here on both sides name the registers of the right machine only
  simp only [S.registers.get hs, S.registers.getSpecial hs, S.registers.comparison hs]
  cases op with
  | nop | brk => exact pure ()
  | compute c =>
    dsimp only
    cases c.eval (t.get i.a) (t.get i.b) with
    | none => exact fail _
    | some v => exact setRegister _ v
  | inc | dec => exact setRegister _ _
  | cmp => exact updateRegisters fun h => S.registers.compare h _
  | branch r =>
    dsimp only
    by_cases h : t.comparison.satisfies r = true
    · rw [if_pos h, if_pos h]
      exact advance _
    · rw [if_neg h, if_neg h]
      exact pure ()
  | jmp => exact jump _
  | jmpa => exact bind operand fun target => jump target
  | jsr => exact call _
  | jsra => exact bind operand fun target => call target
  | ret => exact ret
  | push => exact bind (writeBus _ _ _) fun _ => setRegister _ _
  | pop => exact bind (readBus _ _) fun v => bind (setRegister _ _) fun _ => setRegister _ v
  | loadImmediate w => exact bind operand fun v => setRegister _ _
  | load m w =>
    exact bind (effectiveAddress m _) fun addr => bind (readBus w addr) fun v => setRegister _ v
  | store m w => exact bind (effectiveAddress m _) fun addr => writeBus w addr _
  | gsr => exact bind (specialIndex _) fun k => setRegister _ _
  | ssr =>
    exact bind (specialIndex _) fun k => updateRegisters fun h => S.registers.setSpecial h k _
  | swi => exact bind operand fun number => interrupt number address

theorem execute (i : Instruction) (address : UInt32) :
    S.Simulates (Action.execute i address) (Action.execute i address) := by
  unfold Action.execute
  cases i.opcode with
  | none => exact fail _
  | some op => exact bind (perform op i address) fun _ => pure _

theorem step : S.Simulates Action.step Action.step := by
  refine bindRegisters fun {s t} hs => ?_
  rw [S.registers.halted hs, S.registers.ipAddress hs]
  by_cases hhalted : t.halted = true
  · rw [if_pos hhalted, if_pos hhalted]
    exact pure _
  · rw [if_neg hhalted, if_neg hhalted]
    refine bind (readBus _ _) fun word => bind (advance _) fun _ => ?_
    refine bind (notify _) fun _ => bind (execute _ _) fun progress => ?_
    refine bind complete fun _ => ?_
    dsimp only
    by_cases hstop : progress = .halted
    · rw [if_pos hstop, if_pos hstop]
      exact bind (updateRegisters S.registers.halt) fun _ => pure progress
    · rw [if_neg hstop, if_neg hstop]
      exact pure progress

end Simulates

/-! ## Runs -/

section Runs

variable {m : Machine β σ} {n : Machine γ τ}

theorem admits_of_after (j k : Nat) (h : S.Admits (m.after (j + k)).bus) :
    S.Admits (m.after j).bus := by
  induction k with
  | zero => exact h
  | succ k ih => exact ih (Simulates.admits_of (Simulates.step (S := S)) h)

theorem related_leaves {x : Action β σ α} {y : Action γ τ α} (h : S.Answers (x m) (y n)) :
    S.Related (x.leaves m) (y.leaves n) := by
  unfold Action.leaves
  generalize x m = left at h
  generalize y n = right at h
  cases h with
  | ok a h => exact h
  | error hf h => exact h

theorem agree_answer {x : Action β σ α} {y : Action γ τ α} (h : S.Answers (x m) (y n)) :
    Agree (FaultAgree S.Errors) (x.answer m) (y.answer n) := by
  unfold Action.answer
  generalize x m = left at h
  generalize y n = right at h
  cases h with
  | ok a h => exact .ok a
  | error hf h => exact .error hf

/-- **Related machines stay related**, for any number of steps and through any faults. -/
theorem after (h : S.Related m n) (k : Nat) (hk : S.Admits (m.after k).bus) :
    S.Related (m.after k) (n.after k) := by
  induction k with
  | zero => exact h
  | succ k ih =>
    -- a run that ends admitted was admitted one step earlier
    have hrel := ih (admits_of_after k 1 hk)
    exact related_leaves (Simulates.step.answers hrel hk)

/-- **Related machines answer alike** at every step. -/
theorem answerAt (h : S.Related m n) (k : Nat) (hk : S.Admits (m.after (k + 1)).bus) :
    Agree (FaultAgree S.Errors) (m.answerAt k) (n.answerAt k) :=
  agree_answer (Simulates.step.answers (S.after h k (admits_of_after k 1 hk)) hk)

theorem admits_of_runFrom (executed budget : Nat)
    (h : S.Admits (m.runFrom executed budget).2.bus) : S.Admits m.bus := by
  induction budget generalizing m executed with
  | zero => exact h
  | succ budget ih =>
    have hadmits : ∀ {m'}, Action.step.leaves m = m' → S.Admits m'.bus → S.Admits m.bus := by
      rintro _ rfl h'
      exact Simulates.admits_of (Simulates.step (S := S)) h'
    rw [Machine.runFrom] at h
    cases hm : Action.step m with
    | ok progress m' =>
      rw [hm] at h
      cases progress with
      | running => exact hadmits (Action.leaves_of_ok hm) (ih (executed + 1) h)
      | halted => exact hadmits (Action.leaves_of_ok hm) h
    | error f m' =>
      rw [hm] at h
      exact hadmits (Action.leaves_of_error hm) h

theorem runFrom (h : S.Related m n) (executed budget : Nat)
    (hk : S.Admits (m.runFrom executed budget).2.bus) :
    BatchAgree S.Errors (m.runFrom executed budget).1 (n.runFrom executed budget).1 ∧
      S.Related (m.runFrom executed budget).2 (n.runFrom executed budget).2 := by
  -- the batch starts over from whatever machine the first step leaves
  induction budget generalizing m n executed with
  | zero => exact ⟨⟨rfl, .completed⟩, h⟩
  | succ budget ih =>
    have hstep := (Simulates.step (S := S)).answers h
    rw [Machine.runFrom] at hk ⊢
    rw [Machine.runFrom]
    cases hm : Action.step m with
    | ok progress m' =>
      rw [hm] at hk hstep
      rw [Action.leaves_of_ok hm] at hstep
      cases progress with
      | running =>
        obtain ⟨n', hn, hrel⟩ := (hstep (admits_of_runFrom (executed + 1) budget hk)).of_ok
        rw [hn]
        exact ih hrel (executed + 1) hk
      | halted =>
        obtain ⟨n', hn, hrel⟩ := (hstep hk).of_ok
        rw [hn]
        exact ⟨⟨rfl, .halted⟩, hrel⟩
    | error f m' =>
      rw [hm] at hk hstep
      rw [Action.leaves_of_error hm] at hstep
      obtain ⟨g, n', hn, hf, hrel⟩ := (hstep hk).of_error
      rw [hn]
      exact ⟨⟨rfl, .faulted hf⟩, hrel⟩

/-- **Related machines run batches alike.** -/
theorem runBatch (h : S.Related m n) (budget : Nat) (hk : S.Admits (m.runBatch budget).2.bus) :
    BatchAgree S.Errors (m.runBatch budget).1 (n.runBatch budget).1 ∧
      S.Related (m.runBatch budget).2 (n.runBatch budget).2 := by
  unfold Machine.runBatch at hk ⊢
  rw [S.registers.halted h.registers] at hk ⊢
  by_cases hhalted : n.registers.halted = true
  · rw [if_pos hhalted, if_pos hhalted]
    exact ⟨⟨rfl, .halted⟩, h⟩
  · rw [if_neg hhalted] at hk
    rw [if_neg hhalted, if_neg hhalted]
    exact runFrom h 0 budget hk

end Runs

end Simulation

/-! ## Invariants of the bus -/

/-- A machine beside itself.  What the bus keeps through every read and write can be carried along
as part of the relation. -/
def Simulation.ofInvariant {β : Type} (τ : Type) [Bus β] [Observer τ] (I : β → Prop)
    (hread : ∀ {b}, I b → ∀ w addr, I (Bus.read b w addr).state)
    (hwrite : ∀ {b}, I b → ∀ w addr v, I (Bus.write b w addr v).state) :
    Simulation β τ β τ where
  registers := .equal
  World b o c p := b = c ∧ o = p ∧ I b
  Admits _ := True
  Errors := Eq
  admits_of_read _ := trivial
  admits_of_write _ := trivial
  notify := by
    rintro b o _ _ ⟨rfl, rfl, hb⟩ e
    exact ⟨rfl, rfl, hb⟩
  read := by
    rintro b o _ _ ⟨rfl, rfl, hb⟩ w addr _
    exact ⟨.of_eq (fun _ => rfl) rfl, rfl, rfl, hread hb w addr⟩
  write := by
    rintro b o _ _ ⟨rfl, rfl, hb⟩ w addr v _
    exact ⟨.of_eq (fun _ => rfl) rfl, rfl, rfl, hwrite hb w addr v⟩

/-- **What every access keeps, every run keeps.** -/
theorem Machine.invariant_after {β τ : Type} [Bus β] [Observer τ] {I : β → Prop}
    (hread : ∀ {b}, I b → ∀ w addr, I (Bus.read b w addr).state)
    (hwrite : ∀ {b}, I b → ∀ w addr v, I (Bus.write b w addr v).state) {m : Machine β τ}
    (h : I m.bus) (k : Nat) : I (m.after k).bus := by
  have hstart : (Simulation.ofInvariant τ I hread hwrite).Related m m := ⟨rfl, rfl, rfl, rfl, h⟩
  exact (Simulation.after hstart k trivial).world.2.2

end Moxie
