/-
# Moxie.Proofs.Machine.Outcome — the ways a step can end.

While an instruction is performed the count of completed instructions stands still and the machine
does not stop; both are left to `step`, which does them afterwards, and only if nothing faulted.
`Keeps` says this of an action, for the count and for whatever else of the registers the actions of
an instruction do not touch.

So there are four ways for a step to end (`Machine.Stepped`): the machine had stopped and stays as
it is, it completes an instruction and goes on, it completes a `brk` and has stopped, or it faults
and has neither stopped nor counted.  Whatever is to be said of batches and whole runs starts from
these four cases and never looks inside an instruction.
-/
import Moxie.Proofs.Machine.Effects

namespace Moxie

namespace Action

variable {β τ α γ ι : Type}

/-! ## What an action leaves alone -/

/-- **`Keeps f x`** — `x` changes neither what `f` shows of the registers nor the count, also when
it faults. -/
structure Keeps (f : Registers → ι) (x : Action β τ α) : Prop where
  registers : ∀ m, f (x.leaves m).registers = f m.registers
  completed : ∀ m, (x.leaves m).completed = m.completed

/-- What is shown of the registers is no business of the writes that instructions make. -/
structure Untouched (f : Registers → ι) : Prop where
  set : ∀ s r v, f (s.set r v) = f s
  setSpecial : ∀ s i v, f (s.setSpecial i v) = f s
  goto : ∀ s ip, f { s with ip } = f s

/-- Whether the machine has stopped is no business of theirs. -/
theorem untouched_halted : Untouched (·.halted) :=
  ⟨fun _ _ _ => rfl, fun _ _ _ => rfl, fun _ _ => rfl⟩

variable {f : Registers → ι}

namespace Keeps

/-- Both halves at one machine. -/
theorem of_leaves {x : Action β τ α}
    (h : ∀ m, f (x.leaves m).registers = f m.registers ∧ (x.leaves m).completed = m.completed) :
    Keeps f x :=
  ⟨fun m => (h m).1, fun m => (h m).2⟩

theorem pure (a : α) : Keeps f (Pure.pure a : Action β τ α) :=
  ⟨fun _ => rfl, fun _ => rfl⟩

theorem fail (e : Fault) : Keeps f (Action.fail e : Action β τ α) :=
  ⟨fun _ => rfl, fun _ => rfl⟩

theorem readRegisters : Keeps f (Action.registers : Action β τ Registers) :=
  ⟨fun _ => rfl, fun _ => rfl⟩

theorem updateRegisters {g : Registers → Registers} (h : ∀ s, f (g s) = f s) :
    Keeps f (Action.updateRegisters g : Action β τ Unit) :=
  ⟨fun m => h m.registers, fun _ => rfl⟩

theorem notify [Observer τ] (e : Event) : Keeps f (Action.notify e : Action β τ Unit) :=
  ⟨fun _ => rfl, fun _ => rfl⟩

theorem bind {x : Action β τ α} {g : α → Action β τ γ} (hx : Keeps f x) (hg : ∀ a, Keeps f (g a)) :
    Keeps f (x >>= g) := by
  refine of_leaves fun m => ?_
  have hregisters := hx.registers m
  have hcompleted := hx.completed m
  cases hm : x m with
  | ok a n =>
    rw [leaves_of_ok hm] at hregisters hcompleted
    rw [leaves_bind_of_ok hm, (hg a).registers, (hg a).completed]
    exact ⟨hregisters, hcompleted⟩
  | error e n =>
    rw [leaves_of_error hm] at hregisters hcompleted
    rw [leaves_bind_of_error hm]
    exact ⟨hregisters, hcompleted⟩

theorem requireAligned (target : UInt32) :
    Keeps f (Action.requireAligned target : Action β τ Unit) := by
  unfold Action.requireAligned
  split
  · exact pure ()
  · exact fail _

theorem specialIndex (v : UInt32) : Keeps f (Action.specialIndex v : Action β τ SpecialIndex) := by
  unfold Action.specialIndex
  split
  · exact pure _
  · exact fail _

variable [Bus β] [Observer τ]

theorem readBus (w : Width) (addr : UInt32) :
    Keeps f (Action.readBus w addr : Action β τ UInt32) := by
  refine of_leaves ?_
  rintro ⟨registers, bus, observer, n⟩
  simp only [leaves, Action.readBus]
  rcases Bus.read bus w addr with ⟨e | v, bus', events⟩
  · exact ⟨rfl, rfl⟩
  · exact ⟨rfl, rfl⟩

theorem writeBus (w : Width) (addr v : UInt32) :
    Keeps f (Action.writeBus w addr v : Action β τ Unit) := by
  refine of_leaves ?_
  rintro ⟨registers, bus, observer, n⟩
  simp only [leaves, Action.writeBus]
  rcases Bus.write bus w addr v with ⟨e | ⟨⟩, bus', events⟩
  · exact ⟨rfl, rfl⟩
  · exact ⟨rfl, rfl⟩

end Keeps

/-! ## What an operation leaves alone -/

section Operations

variable [Bus β] [Observer τ]

/-- **`Unmoved E f`** — what `f` shows of the registers is no business of the instruction pointer,
nor of the effects in `E`. -/
structure Unmoved (E : Effect → Prop) (f : Registers → ι) : Prop where
  goto : ∀ s ip, f { s with ip } = f s
  set : ∀ r, E (.general r) → ∀ s v, f (s.set r v) = f s
  setSpecial : E .special → ∀ s k v, f (s.setSpecial k v) = f s
  compare : E .comparison → ∀ (s : Registers) (c : Comparison), f { s with comparison := c } = f s

/-- An action keeps what none of its effects moves. -/
theorem MadeOf.keeps {E : Effect → Prop} (hf : Unmoved E f) {x : Action β τ α} (h : MadeOf E x) :
    Keeps f x := by
  induction h with
  | pure a => exact .pure a
  | fail _ => exact .fail _
  | registers => exact .readRegisters
  | move ip => exact .updateRegisters fun s => hf.goto s _
  | setRegister h v => exact .updateRegisters fun s => hf.set _ h s v
  | setSpecial h k v => exact .updateRegisters fun s => hf.setSpecial h s k v
  | compare h c => exact .updateRegisters fun s => hf.compare h s c
  | notify _ => exact .notify _
  | readBus w addr => exact .readBus w addr
  | writeBus _ w addr v => exact .writeBus w addr v
  | bind _ _ ihx ihg => exact .bind ihx ihg

/-- **Performing an operation** keeps what its effects do not move. -/
theorem Keeps.perform {op : Opcode} {i : Instruction} (hf : Unmoved (op.HasEffect i) f)
    (address : UInt32) : Keeps f (Action.perform op i address : Action β τ Unit) :=
  (MadeOf.perform op i address).keeps hf

/-- Only `cmp` sets the comparison, so what is kept may depend on it for all other operations. -/
theorem Untouched.unmoved (hf : Untouched f) {op : Opcode}
    (hcmp : op = .cmp → ∀ (s : Registers) (c : Comparison), f { s with comparison := c } = f s)
    (i : Instruction) : Unmoved (op.HasEffect i) f :=
  ⟨hf.goto, fun r _ s v => hf.set s r v, fun _ => hf.setSpecial, hcmp⟩

theorem Keeps.execute (hf : Untouched f)
    (hcmp : ∀ (s : Registers) (c : Comparison), f { s with comparison := c } = f s)
    (i : Instruction) (address : UInt32) :
    Keeps f (Action.execute i address : Action β τ Progress) := by
  unfold Action.execute
  cases i.opcode with
  | none => exact .fail _
  | some op => exact .bind (.perform (hf.unmoved (fun _ => hcmp) i) address) fun _ => .pure _

end Operations

/-! ## A step in two parts -/

variable [Bus β] [Observer τ]

/-- An operation that goes through tells whether to go on. -/
theorem execute_of_perform_ok {i : Instruction} {op : Opcode} {address : UInt32} {m n : Machine β τ}
    (hop : i.opcode = some op) (h : perform op i address m = .ok () n) :
    execute i address m = .ok (if op = .brk then .halted else .running) n := by
  rw [execute, hop]
  exact bind_of_ok h

theorem execute_of_perform_error {i : Instruction} {op : Opcode} {address : UInt32}
    {m n : Machine β τ} {f : Fault} (hop : i.opcode = some op)
    (h : perform op i address m = .error f n) : execute i address m = .error f n := by
  rw [execute, hop]
  exact bind_of_error h

/-- What was executed without a fault is an operation that went through. -/
theorem exists_of_execute_ok {i : Instruction} {address : UInt32} {m n : Machine β τ} {p : Progress}
    (h : execute i address m = .ok p n) :
    ∃ op, i.opcode = some op ∧ perform op i address m = .ok () n ∧
      p = if op = .brk then .halted else .running := by
  rw [execute] at h
  cases hop : i.opcode with
  | none =>
    rw [hop] at h
    cases h
  | some op =>
    rw [hop] at h
    obtain ⟨_, k, hperform, hp⟩ := exists_of_bind_ok h
    cases hp
    exact ⟨op, rfl, hperform, rfl⟩

/-- Fetch the instruction at a byte address and perform it. -/
def attempt (address : UInt32) : Action β τ Progress := do
  let word ← readBus .short address
  advance 1
  let i := Instruction.decode word.toUInt16
  notify (.fetched i address)
  execute i address

/-- Account for an instruction that was performed without a fault. -/
def conclude (progress : Progress) : Action β τ Progress := fun m =>
  .ok progress { m with
    registers := { m.registers with halted := progress = .halted || m.registers.halted }
    completed := m.completed + 1 }

/-- A machine that has not stopped attempts an instruction and concludes it. -/
theorem step_apply (m : Machine β τ) :
    step m =
      if m.registers.halted then .ok .halted m
      else (attempt m.registers.ipAddress >>= conclude) m := by
  have hconclude : (conclude : Progress → Action β τ Progress) = fun progress => do
      complete
      if progress = .halted then
        updateRegisters fun s => { s with halted := true }
      return progress := by
    funext progress
    cases progress <;> rfl
  by_cases h : m.registers.halted = true
  · rw [if_pos h]
    show (if m.registers.halted then pure .halted else _ : Action β τ Progress) m = _
    rw [if_pos h]
    rfl
  · rw [if_neg h]
    show (if m.registers.halted then pure .halted else _ : Action β τ Progress) m = _
    rw [if_neg h]
    rw [hconclude]
    simp only [attempt, bind_assoc]

/-- Nothing in an attempt stops the machine or counts. -/
theorem keeps_attempt (address : UInt32) :
    Keeps (·.halted) (attempt address : Action β τ Progress) := by
  refine Keeps.bind (.readBus _ _) fun word => .bind (.updateRegisters fun _ => rfl) fun _ => ?_
  exact .bind (.notify _) fun _ => .execute untouched_halted (fun _ _ => rfl) _ _

end Action

namespace Machine

variable {β τ : Type} [Bus β] [Observer τ]

/-- **`m.Stepped r`** — `r` is an answer that a step from `m` may end with, and stands to `m` as
such an answer does. -/
inductive Stepped (m : Machine β τ) : EStateM.Result Fault (Machine β τ) Progress → Prop where
  | stopped (h : m.registers.halted = true) : Stepped m (.ok .halted m)
  | running {n : Machine β τ} (h : m.registers.halted = false) (hn : n.registers.halted = false)
      (hcount : n.completed = m.completed + 1) : Stepped m (.ok .running n)
  | halted {n : Machine β τ} (h : m.registers.halted = false) (hn : n.registers.halted = true)
      (hcount : n.completed = m.completed + 1) : Stepped m (.ok .halted n)
  | faulted {e : Fault} {n : Machine β τ} (h : m.registers.halted = false)
      (hn : n.registers.halted = false) (hcount : n.completed = m.completed) :
      Stepped m (.error e n)

/-- **Every step ends in one of the four ways.** -/
theorem stepped (m : Machine β τ) : m.Stepped (Action.step m) := by
  rw [Action.step_apply]
  by_cases h : m.registers.halted = true
  · rw [if_pos h]
    exact .stopped h
  · rw [if_neg h]
    have hkeeps : Action.Keeps (·.halted)
        (Action.attempt m.registers.ipAddress : Action β τ Progress) := Action.keeps_attempt _
    have hhalted := hkeeps.registers m
    have hcompleted := hkeeps.completed m
    rw [Bool.not_eq_true] at h
    rw [h] at hhalted
    rw [Action.bind_apply]
    cases hm : Action.attempt m.registers.ipAddress m with
    | error e n =>
      rw [Action.leaves_of_error hm] at hhalted hcompleted
      exact .faulted h hhalted hcompleted
    | ok progress n =>
      rw [Action.leaves_of_ok hm] at hhalted hcompleted
      cases progress with
      | running => exact .running h (by simp [hhalted]) (by rw [hcompleted])
      | halted => exact .halted h (by simp) (by rw [hcompleted])

end Machine

end Moxie
