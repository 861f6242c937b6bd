/-
# Moxie.Proofs.Machine.Hazards — which fault an instruction raises on bare memory.

Before an instruction is performed one can tell whether it will fault, and how.  Its hazards are
written down in the order in which the machine meets them: the fetch of the word, the word itself,
the fetch of its operand, and then what the operation asks for, ending with its accesses to memory.
Each hazard is a condition on the registers and the bytes as they are before the step, and the fault
that it causes.  The instruction raises the fault of the first hazard that applies
(`answer_eq_firstFault`), and if none applies it completes.

`Meets x m hs` says of an action that it raises the first fault of `hs` from `m` on.  Lists of
hazards are joined where actions are sequenced (`Meets.bind`), so the hazards of an instruction are
found one action at a time; all one has to know of the first action is what it gives and leaves when
it succeeds.
-/
import Moxie.Proofs.Machine.Stack

namespace Moxie

/-! ## Hazards -/

/-- A condition under which an instruction faults, and the fault. -/
structure Hazard where
  applies : Bool
  fault : Fault

/-- **`firstFault hs`** — the fault of the first hazard that applies. -/
def firstFault : List Hazard → Option Fault
  | [] => none
  | h :: hs => if h.applies then some h.fault else firstFault hs

/-- An access of `len` bytes at `addr` does not lie in the memory. -/
def Memory.hazard (m : Memory) (addr : UInt32) (len : Nat) : Hazard :=
  ⟨m.size < addr.toNat + len, m.miss addr len⟩

/-- A jump or call to an odd address. -/
def oddTarget (target : UInt32) : Hazard :=
  ⟨target % 2 ≠ 0, .unalignedJump target⟩

/-- The computations that divide. -/
def Computation.divides (c : Computation) : Bool :=
  c = .div ∨ c = .mod ∨ c = .udiv ∨ c = .umod

namespace Machine

variable {τ : Type}

/-- The address of a load or store in mode `mode`, where `base` is the value of its address
register.
-/
def addressIn (m : Machine Memory τ) (mode : Mode) (base : UInt32) : UInt32 :=
  match mode with
  | .indirect => base
  | .absolute => m.inlineOperand
  | .offset => base + m.inlineDisplacement

/-- What can go wrong with an operand of `words` words behind the instruction word. -/
def operandHazards (m : Machine Memory τ) (words : Nat) : List Hazard :=
  if words = 0 then [] else [m.bus.hazard (m.registers.ipAddress + 2) (2 * words)]

/-- **`m.operationHazards op`** — what can go wrong with `op`, once its word and operand were
fetched.
-/
def operationHazards (m : Machine Memory τ) (op : Opcode) : List Hazard :=
  let i := m.nextInstruction
  let a := m.registers.get i.a
  let b := m.registers.get i.b
  match op with
  | .compute c => [⟨c.divides ∧ b = 0, .divisionByZero⟩]
  | .gsr | .ssr => [⟨10 ≤ (UInt32.ofInt i.value).toNat, .noSpecialRegister (UInt32.ofInt i.value)⟩]
  | .jmp => [oddTarget a]
  | .jmpa => [oddTarget m.inlineOperand]
  | .jsr => oddTarget a :: (List.range 3).map fun k => m.bus.hazard (pushSlot m.registers.sp k) 4
  | .jsra =>
    oddTarget m.inlineOperand ::
      (List.range 3).map fun k => m.bus.hazard (pushSlot m.registers.sp k) 4
  | .ret => (List.range 3).map fun k => m.bus.hazard (popSlot m.registers.fp k) 4
  | .swi => [⟨true, .softwareInterrupt m.inlineOperand⟩]
  | .push => [m.bus.hazard (a - 4) 4]
  | .pop => [m.bus.hazard a 4]
  | .load mode w => [m.bus.hazard (m.addressIn mode b) w.bytes]
  | .store mode w => [m.bus.hazard (m.addressIn mode a) w.bytes]
  | .nop | .brk | .inc | .dec | .cmp | .branch _ | .loadImmediate _ => []

/-- **`m.hazards`** — what can go wrong with the next instruction, in the order in which it is
met. -/
def hazards (m : Machine Memory τ) : List Hazard :=
  m.bus.hazard m.registers.ipAddress 2 ::
    match m.nextInstruction.opcode with
    | none => [⟨true, .illegalOpcode m.nextInstruction.word m.registers.ipAddress⟩]
    | some op => m.operandHazards op.immediateWords ++ m.operationHazards op

end Machine

/-! ## The first fault of a list -/

theorem firstFault_of_applies {h : Hazard} (ha : h.applies = true) (hs : List Hazard) :
    firstFault (h :: hs) = some h.fault :=
  if_pos ha

theorem firstFault_of_not_applies {h : Hazard} (ha : h.applies = false) (hs : List Hazard) :
    firstFault (h :: hs) = firstFault hs :=
  if_neg (by rw [ha]; exact Bool.false_ne_true)

/-- Hazards of the second list matter if none of the first applies. -/
theorem firstFault_append (hs ks : List Hazard) :
    firstFault (hs ++ ks) = (firstFault hs).or (firstFault ks) := by
  induction hs with
  | nil => rfl
  | cons h hs ih =>
    cases ha : h.applies with
    | true =>
      rw [List.cons_append, firstFault_of_applies ha, firstFault_of_applies ha]
      rfl
    | false =>
      rw [List.cons_append, firstFault_of_not_applies ha, firstFault_of_not_applies ha, ih]

namespace Memory

variable {m : Memory} {addr : UInt32} {len : Nat}

theorem hazard_of_fits (h : m.Fits addr len) : (m.hazard addr len).applies = false :=
  decide_eq_false (Nat.not_lt.mpr h)

theorem hazard_of_not_fits (h : ¬ m.Fits addr len) : (m.hazard addr len).applies = true :=
  decide_eq_true (Nat.not_le.mp h)

variable {slot : Nat → UInt32} {n j : Nat}

/-- A row of slots that all lie in the memory has no fault. -/
theorem firstFault_of_fits (h : ∀ i < n, m.Fits (slot i) 4) :
    firstFault ((List.range n).map fun k => m.hazard (slot k) 4) = none := by
  induction n with
  | zero => rfl
  | succ n ih =>
    rw [List.range_succ, List.map_append, firstFault_append,
      ih fun i hi => h i (Nat.lt_succ_of_lt hi)]
    exact firstFault_of_not_applies (hazard_of_fits (h n (Nat.lt_succ_self n))) []

/-- A row of slots has the fault of the first one outside the memory. -/
theorem firstFault_of_stopsAt (h : m.StopsAt slot j) (hj : j < n) :
    firstFault ((List.range n).map fun k => m.hazard (slot k) 4) = some (m.miss (slot j) 4) := by
  induction n with
  | zero => exact absurd hj (Nat.not_lt_zero j)
  | succ n ih =>
    rw [List.range_succ, List.map_append, firstFault_append]
    rcases Nat.lt_succ_iff_lt_or_eq.mp hj with hlt | rfl
    · rw [ih hlt]
      rfl
    · rw [firstFault_of_fits h.fits]
      exact firstFault_of_applies (hazard_of_not_fits h.not_fits) []

end Memory

/-! ## Actions and their hazards -/

namespace Action

variable {β τ α γ : Type}

/-- **`x.fault m`** — the fault that `x` raises on `m`, if it raises one. -/
def fault (x : Action β τ α) (m : Machine β τ) : Option Fault :=
  match x m with
  | .ok _ _ => none
  | .error f _ => some f

/-- **`Meets x m hs`** — on `m` the action `x` raises the first fault of `hs`. -/
def Meets (x : Action β τ α) (m : Machine β τ) (hs : List Hazard) : Prop :=
  x.fault m = firstFault hs

namespace Meets

theorem of_ok {x : Action β τ α} {m n : Machine β τ} {a : α} (h : x m = .ok a n) :
    Meets x m [] := by
  rw [Meets, fault, h]
  rfl

theorem of_error {x : Action β τ α} {m n : Machine β τ} {h : Hazard} (ha : h.applies = true)
    (hx : x m = .error h.fault n) : Meets x m [h] := by
  rw [Meets, fault, hx, firstFault_of_applies ha]

/-- A hazard that does not apply may be added. -/
theorem of_not_applies {x : Action β τ α} {m : Machine β τ} {h : Hazard} {hs : List Hazard}
    (ha : h.applies = false) (hx : Meets x m hs) : Meets x m (h :: hs) := by
  rw [Meets, firstFault_of_not_applies ha]
  exact hx

/-- **Sequencing.**  The hazards of the second action are met if the first one succeeds. -/
theorem bind {x : Action β τ α} {g : α → Action β τ γ} {m : Machine β τ} {hs ks : List Hazard}
    (hx : Meets x m hs) (hg : ∀ a n, x m = .ok a n → Meets (g a) n ks) :
    Meets (x >>= g) m (hs ++ ks) := by
  rw [Meets, fault] at hx
  rw [Meets, fault, bind_apply, firstFault_append]
  cases hm : x m with
  | ok a n =>
    rw [hm] at hx
    rw [← hx, ← hg a n hm]
    rfl
  | error f n =>
    rw [hm] at hx
    rw [← hx]
    rfl

/-- After an action that succeeds. -/
theorem bind_of_ok {x : Action β τ α} {g : α → Action β τ γ} {m n : Machine β τ} {a : α}
    {hs : List Hazard} (h : x m = .ok a n) (hg : Meets (g a) n hs) : Meets (x >>= g) m hs := by
  rw [Meets, fault, Action.bind_of_ok h]
  exact hg

/-- Before an action that succeeds. -/
theorem bind_ok {x : Action β τ α} {g : α → Action β τ γ} {m : Machine β τ} {hs : List Hazard}
    (hx : Meets x m hs) (hg : ∀ a n, ∃ c k, g a n = .ok c k) : Meets (x >>= g) m hs := by
  rw [← List.append_nil hs]
  refine hx.bind fun a n _ => ?_
  obtain ⟨c, k, h⟩ := hg a n
  exact of_ok h

end Meets

/-! ## Accesses, jumps and rows -/

variable [Observer τ] {m : Machine Memory τ}

theorem meets_readBus (m : Machine Memory τ) (w : Width) (addr : UInt32) :
    Meets (readBus w addr) m [m.bus.hazard addr w.bytes] := by
  by_cases h : m.bus.Fits addr w.bytes
  · exact .of_not_applies (Memory.hazard_of_fits h) (.of_ok (readBus_of_fits h))
  · exact .of_error (Memory.hazard_of_not_fits h) (readBus_of_not_fits h)

theorem meets_writeBus (m : Machine Memory τ) (w : Width) (addr v : UInt32) :
    Meets (writeBus w addr v) m [m.bus.hazard addr w.bytes] := by
  by_cases h : m.bus.Fits addr w.bytes
  · exact .of_not_applies (Memory.hazard_of_fits h) (.of_ok (writeBus_of_fits h))
  · exact .of_error (Memory.hazard_of_not_fits h) (writeBus_of_not_fits h)

omit [Observer τ] in
theorem meets_jump (m : Machine Memory τ) (target : UInt32) :
    Meets (jump target) m [oddTarget target] := by
  refine .bind_ok ?_ fun _ n => ⟨_, _, rfl⟩
  unfold requireAligned
  by_cases h : target % 2 = 0
  · rw [if_pos h]
    exact .of_not_applies (decide_eq_false (not_not.mpr h)) (.of_ok rfl)
  · rw [if_neg h]
    exact .of_error (decide_eq_true h) rfl

omit [Observer τ] in
/-- A row meets the hazards of its slots. -/
theorem Row.meets {x : Action Memory τ Unit} {mem : Memory} {slot : Nat → UInt32} {n : Nat}
    {left : Nat → Machine Memory τ} (h : Row mem slot n left (x m)) :
    Meets x m ((List.range n).map fun k => mem.hazard (slot k) 4) := by
  rw [Meets, fault]
  cases hx : x m with
  | ok a k =>
    rw [hx] at h
    cases h with
    | done hfits => exact (Memory.firstFault_of_fits hfits).symm
  | error f k =>
    rw [hx] at h
    cases h with
    | stopped hj hstops => exact (Memory.firstFault_of_stopsAt hstops hj).symm

theorem meets_call (m : Machine Memory τ) (target : UInt32) :
    Meets (call target) m
      (oddTarget target :: (List.range 3).map fun k =>
        m.bus.hazard (pushSlot m.registers.sp k) 4) := by
  by_cases h : target % 2 = 0
  · exact .of_not_applies (decide_eq_false (not_not.mpr h)) (row_call h m).meets
  · rw [Meets, fault, call_of_odd h, firstFault_of_applies (decide_eq_true h)]
    rfl

theorem meets_ret (m : Machine Memory τ) :
    Meets ret m ((List.range 3).map fun k => m.bus.hazard (popSlot m.registers.fp k) 4) :=
  (row_ret m).meets

omit [Observer τ] in
theorem meets_specialIndex (m : Machine Memory τ) (v : UInt32) :
    Meets (specialIndex v) m [⟨10 ≤ v.toNat, .noSpecialRegister v⟩] := by
  unfold specialIndex
  by_cases h : v.toNat < 10
  · rw [dif_pos h]
    exact .of_not_applies (decide_eq_false (Nat.not_le.mpr h)) (.of_ok rfl)
  · rw [dif_neg h]
    exact .of_error (decide_eq_true (Nat.not_lt.mp h)) rfl

theorem meets_interrupt (m : Machine Memory τ) (number address : UInt32) :
    Meets (interrupt number address) m [⟨true, .softwareInterrupt number⟩] :=
  .of_error rfl rfl

/-! ## Operands behind the instruction word -/

/-- An instruction with a 32-bit operand fetches it, and goes on with it. -/
theorem meets_operand_bind {g : UInt32 → Action Memory τ α} {hs : List Hazard}
    (hg : Meets (g m.inlineOperand) m.pastWord.pastOperand hs) :
    Meets (operand >>= g) m.pastWord (m.operandHazards 2 ++ hs) := by
  by_cases h : m.bus.Fits (m.registers.ipAddress + 2) 4
  · exact .of_not_applies (Memory.hazard_of_fits h) (.bind_of_ok (operand_pastWord_of_fits h) hg)
  · rw [Meets, fault, bind_of_error (operand_pastWord_of_not_fits h)]
    exact (firstFault_of_applies (Memory.hazard_of_not_fits h) hs).symm

/-- So does one with a displacement. -/
theorem meets_displacement_bind {g : UInt32 → Action Memory τ α} {hs : List Hazard}
    (hg : Meets (g m.inlineDisplacement)
      (m.pastWord.withRegisters (m.registers.advance 1 |>.advance 1)) hs) :
    Meets (displacement >>= g) m.pastWord (m.operandHazards 1 ++ hs) := by
  by_cases h : m.bus.Fits (m.registers.ipAddress + 2) 2
  · exact .of_not_applies (Memory.hazard_of_fits h)
      (.bind_of_ok (displacement_pastWord_of_fits h) hg)
  · rw [Meets, fault, bind_of_error (displacement_pastWord_of_not_fits h)]
    exact (firstFault_of_applies (Memory.hazard_of_not_fits h) hs).symm

/-- A load or store fetches what its mode asks for, and goes on at its address. -/
theorem meets_effectiveAddress_bind {g : UInt32 → Action Memory τ α} {len : Nat} (mode : Mode)
    (base : UInt32) {words : Nat} (hwords : (Opcode.load mode .long).immediateWords = words)
    (hg : ∀ n : Machine Memory τ, n.bus = m.bus →
      Meets (g (m.addressIn mode base)) n [m.bus.hazard (m.addressIn mode base) len]) :
    Meets (effectiveAddress mode base >>= g) m.pastWord
      (m.operandHazards words ++ [m.bus.hazard (m.addressIn mode base) len]) := by
  subst hwords
  cases mode with
  | indirect => exact hg m.pastWord rfl
  | absolute => exact meets_operand_bind (hg m.pastWord.pastOperand rfl)
  | offset =>
    show Meets ((displacement >>= fun d => pure (base + d)) >>= g) _ _
    rw [bind_assoc]
    exact meets_displacement_bind (hg (m.pastWord.withRegisters _) rfl)

/-! ## Instructions -/

omit [Observer τ] in
/-- A computation fails where it divides by zero. -/
theorem meets_compute (m : Machine Memory τ) (c : Computation) (r : Register) (a b : UInt32) :
    Meets (match c.eval a b with
      | some v => setRegister r v
      | none => fail .divisionByZero) m [⟨c.divides ∧ b = 0, .divisionByZero⟩] := by
  have hnone : c.eval a b = none ↔ c.divides = true ∧ b = 0 := by
    rw [Computation.eval_eq_none_iff, Computation.divides, decide_eq_true_iff, and_comm]
  cases hc : c.eval a b with
  | none => exact .of_error (decide_eq_true (hnone.mp hc)) rfl
  | some v =>
    refine .of_not_applies (decide_eq_false fun h => ?_) (.of_ok rfl)
    rw [hnone.mpr h] at hc
    cases hc

/-- **The hazards of an instruction.** -/
theorem meets_perform (m : Machine Memory τ) (op : Opcode) :
    Meets (perform op m.nextInstruction m.registers.ipAddress) m.pastWord
      (m.operandHazards op.immediateWords ++ m.operationHazards op) := by
  refine .bind_of_ok (rfl : registers m.pastWord = .ok _ _) ?_
  -- an operation with an operand goes on behind it, any other right behind the word
  cases op with
  | nop | brk => exact .of_ok rfl
  | compute c => exact meets_compute _ c _ _ _
  | inc | dec => exact .of_ok rfl
  | cmp => exact .of_ok rfl
  | branch r =>
    show Meets (if m.registers.comparison.satisfies r then _ else _) m.pastWord []
    split
    · exact .of_ok rfl
    · exact .of_ok rfl
  | jmp => exact meets_jump _ _
  | jmpa => exact meets_operand_bind (meets_jump _ _)
  | jsr => exact meets_call _ _
  | jsra => exact meets_operand_bind (meets_call _ _)
  | ret => exact meets_ret _
  | push => exact .bind_ok (meets_writeBus m.pastWord .long _ _) fun _ n => ⟨_, _, rfl⟩
  | pop => exact .bind_ok (meets_readBus m.pastWord .long _) fun _ n => ⟨_, _, rfl⟩
  | loadImmediate w => exact meets_operand_bind (.of_ok rfl)
  | load mode w =>
    refine meets_effectiveAddress_bind mode _ (by cases mode <;> rfl) fun n hn => ?_
    rw [← hn]
    exact .bind_ok (meets_readBus n w _) fun _ n => ⟨_, _, rfl⟩
  | store mode w =>
    refine meets_effectiveAddress_bind mode _ (by cases mode <;> rfl) fun n hn => ?_
    rw [← hn]
    exact meets_writeBus n w _ _
  | gsr => exact .bind_ok (meets_specialIndex _ _) fun _ n => ⟨_, _, rfl⟩
  | ssr => exact .bind_ok (meets_specialIndex _ _) fun _ n => ⟨_, _, rfl⟩
  | swi => exact meets_operand_bind (meets_interrupt _ _ _)

theorem meets_execute (m : Machine Memory τ) :
    Meets (execute m.nextInstruction m.registers.ipAddress) m.pastWord
      (match m.nextInstruction.opcode with
        | none => [⟨true, .illegalOpcode m.nextInstruction.word m.registers.ipAddress⟩]
        | some op => m.operandHazards op.immediateWords ++ m.operationHazards op) := by
  unfold execute
  cases m.nextInstruction.opcode with
  | none => exact .of_error rfl rfl
  | some op => exact .bind_ok (meets_perform m op) fun _ n => ⟨_, _, rfl⟩

/-- **The hazards of a step.** -/
theorem meets_step (hrunning : m.registers.halted = false) : Meets step m m.hazards := by
  by_cases hfits : m.bus.Fits m.registers.ipAddress 2
  · have hconclude : Meets (execute m.nextInstruction m.registers.ipAddress >>= conclude)
        m.pastWord _ :=
      .bind_ok (meets_execute m) fun _ _ => ⟨_, _, rfl⟩
    refine .of_not_applies (Memory.hazard_of_fits hfits) ?_
    rw [Meets, fault, step_of_fits hrunning hfits]
    exact hconclude
  · rw [Meets, fault, step_of_not_fits hrunning hfits]
    exact (firstFault_of_applies (Memory.hazard_of_not_fits hfits) _).symm

end Action

namespace Machine

variable {τ : Type} [Observer τ]

/-- **Fault classification.**  On bare memory a machine that has not stopped raises, in its next
step, the fault of the first of its hazards that applies.  If none applies the step succeeds, and
the machine has stopped exactly after a `brk`. -/
theorem answer_eq_firstFault (m : Machine Memory τ) (hrunning : m.registers.halted = false) :
    Action.step.answer m =
      match firstFault m.hazards with
      | some f => .error f
      | none => .ok (if m.nextInstruction.opcode = some .brk then .halted else .running) := by
  rw [← Action.meets_step hrunning, Action.answer, Action.fault]
  cases hm : Action.step m with
  | ok p n =>
    obtain ⟨-, op, _, hop, -, hp, -⟩ := Action.exists_of_step_ok hrunning hm
    rw [hp, hop]
    simp only [Option.some.injEq]
  | error f n => rfl

/-- A machine over eight bytes that is to call an odd address, with no room for a frame. -/
def misdirected : Machine Memory Unit where
  registers := .initial
  bus := ⟨⟨#[], #[0x00, 0x03, 0x07, 0x00, 0x00, 0x00, 0x00, 0x00], by decide⟩,
    by decide, by decide, by decide⟩
  observer := ()
  completed := 0

/-- Its first push would lie outside the memory, but it is the target that makes the call fail. -/
theorem misdirected_answer :
    misdirected.registers.halted = false ∧
      (misdirected.bus.hazard (pushSlot misdirected.registers.sp 0) 4).applies = true ∧
      Action.step.answer misdirected = .error (.unalignedJump 7) := by
  have hfirst : firstFault misdirected.hazards = some (.unalignedJump 7) := by decide +kernel
  refine ⟨rfl, by decide +kernel, ?_⟩
  rw [answer_eq_firstFault misdirected rfl, hfirst]

end Machine

end Moxie
