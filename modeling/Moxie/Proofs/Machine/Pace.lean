/-
# Moxie.Proofs.Machine.Pace — how far one step moves the instruction pointer.

A step that goes straight on ends behind the instruction and its inline operand.  The distance is
the one in the table of opcodes, and so are the address that a call pushes and the place where a
fault finds the machine, for the table and the fetches agree (`Action.perform_eq`).  What an
operation does after its operand is told apart by whether it moves the instruction pointer at all.
Nearly every operation leaves it alone, whether it goes through or not (`Action.keepsIp_rest`).  A
jump or a call moves it as the last thing it does, so it has not moved when they fault
(`Action.FaultsInPlace`).  A return moves it between its second pop and its third, and is the one
operation that can fault after a move (`Action.ret_of_strands`).
-/
import Moxie.Proofs.Machine.Inline
import Moxie.Proofs.Machine.Stack

namespace Moxie

variable {β τ : Type} [Bus β]

/-! ## Pushes and pops on any bus -/

namespace Bus

/-- **`Pushes b sp vs c`** — with the stack pointer `sp` the words `vs` are pushed on `b`, the first
one first; every store succeeds, and the bus is `c` in the end. -/
inductive Pushes : β → UInt32 → List UInt32 → β → Prop where
  | nil (b : β) (sp : UInt32) : Pushes b sp [] b
  | cons {b c : β} {sp v : UInt32} {vs : List UInt32}
      (h : (Bus.write b .long (sp - 4) v).result = .ok ())
      (rest : Pushes (Bus.write b .long (sp - 4) v).state (sp - 4) vs c) : Pushes b sp (v :: vs) c

/-- The reply to the pop that follows `j` others, the first of which was from `sp`. -/
def popReply (b : β) (sp : UInt32) : Nat → Reply β UInt32
  | 0 => Bus.read b .long sp
  | j + 1 => Bus.read (popReply b sp j).state .long (popSlot sp (j + 1))

/-- **`Strands b sp r`** — of three pops from `sp` on the first two succeed, the second one with
`r`, and the third one fails. -/
structure Strands (b : β) (sp r : UInt32) : Prop where
  first : ∃ v, (popReply b sp 0).result = .ok v
  second : (popReply b sp 1).result = .ok r
  third : ∃ e, (popReply b sp 2).result = .error e

end Bus

/-! ## What operations do to the instruction pointer -/

/-- **`op.transfers c`** — after the comparison `c` the operation, when it goes through, continues
somewhere else. -/
def Opcode.transfers (op : Opcode) (c : Comparison) : Bool :=
  match op with
  | .branch r => c.satisfies r
  | .jmp | .jmpa | .jsr | .jsra | .ret => true
  | _ => false

namespace Action

variable {α γ : Type} [Observer τ]

/-- **`FaultsInPlace x`** — a fault of `x` finds the instruction pointer where `x` found it. -/
def FaultsInPlace (x : Action β τ α) : Prop :=
  ∀ m f n, x m = .error f n → n.registers.ip = m.registers.ip

namespace FaultsInPlace

omit [Bus β] [Observer τ]

/-- An action that always succeeds. -/
theorem of_ok {x : Action β τ α} (h : ∀ m, ∃ a n, x m = .ok a n) : FaultsInPlace x := by
  intro m f n hx
  obtain ⟨a, k, hok⟩ := h m
  rw [hok] at hx
  cases hx

theorem of_keeps {x : Action β τ α} (h : Keeps (·.ip) x) : FaultsInPlace x := by
  intro m f n hx
  rw [← leaves_of_error hx]
  exact h.registers m

/-- An action that moves nothing, and then one that faults in place. -/
theorem bind {x : Action β τ α} {g : α → Action β τ γ} (hx : Keeps (·.ip) x)
    (hg : ∀ a, FaultsInPlace (g a)) : FaultsInPlace (x >>= g) := by
  intro m f n h
  rcases exists_of_bind_error h with h | ⟨a, k, hk, h⟩
  · exact of_keeps hx m f n h
  · have hkept := hx.registers m
    rw [leaves_of_ok hk] at hkept
    exact (hg a k f n h).trans hkept

end FaultsInPlace

theorem keepsIp_push (v : UInt32) : Keeps (·.ip) (push v : Action β τ Unit) :=
  .bind .readRegisters fun _ => .bind (.writeBus _ _ _) fun _ => .updateRegisters fun _ => rfl

omit [Bus β] [Observer τ] in
theorem faultsInPlace_jump (target : UInt32) : FaultsInPlace (jump target : Action β τ Unit) :=
  .bind (.requireAligned target) fun _ => .of_ok fun _ => ⟨_, _, rfl⟩

theorem faultsInPlace_call (target : UInt32) : FaultsInPlace (call target : Action β τ Unit) := by
  refine .bind (.requireAligned target) fun _ => .bind .readRegisters fun s => ?_
  refine .bind (keepsIp_push _) fun _ => .bind (keepsIp_push _) fun _ =>
    .bind (keepsIp_push _) fun _ => ?_
  exact .of_ok fun _ => ⟨_, _, rfl⟩

/-- **Most operations leave the instruction pointer alone** once their operand was fetched. -/
theorem keepsIp_rest {op : Opcode} (hop : op ∉ [.jmp, .jmpa, .jsr, .jsra, .ret])
    (hbranch : ∀ r, op ≠ .branch r) (i : Instruction) (address : UInt32) (s : Registers)
    (x : UInt32) : Keeps (·.ip) (rest op i address s x : Action β τ Unit) := by
  have hset : ∀ r v, Keeps (·.ip) (setRegister r v : Action β τ Unit) :=
    fun r v => .updateRegisters fun _ => rfl
  cases op with
  | nop | brk => exact .bind .readRegisters fun s => .pure ()
  | compute c =>
    refine .bind .readRegisters fun s => ?_
    dsimp only
    cases c.eval (s.get i.a) (s.get i.b) with
    | none => exact .fail _
    | some v => exact hset _ v
  | inc | dec => exact .bind .readRegisters fun s => hset _ _
  | cmp => exact .bind .readRegisters fun s => .updateRegisters fun _ => rfl
  | branch r => exact absurd rfl (hbranch r)
  | push => exact .bind .readRegisters fun s => .bind (.writeBus _ _ _) fun _ => hset _ _
  | pop =>
    refine .bind .readRegisters fun s => .bind (.readBus _ _) fun v => ?_
    exact .bind (hset _ _) fun _ => hset _ v
  | loadImmediate w => exact hset _ _
  | load mode w =>
    cases mode with
    | indirect =>
      refine .bind .readRegisters fun s => .bind (.pure _) fun addr => ?_
      exact .bind (.readBus w addr) fun v => hset _ v
    | absolute | offset => exact .bind (.readBus w _) fun v => hset _ v
  | store mode w =>
    cases mode with
    | indirect => exact .bind .readRegisters fun s => .bind (.pure _) fun addr => .writeBus w addr _
    | absolute | offset => exact .writeBus w _ _
  | gsr => exact .bind .readRegisters fun s => .bind (.specialIndex _) fun k => hset _ _
  | ssr =>
    refine .bind .readRegisters fun s => .bind (.specialIndex _) fun k => ?_
    exact .updateRegisters fun _ => rfl
  | swi => exact .bind (.updateRegisters fun _ => rfl) fun _ => .bind (.notify _) fun _ => .fail _
  | jmp | jmpa | jsr | jsra | ret => exact absurd (by decide) hop

/-- A branch never faults, and moves on when the comparison is as it asks. -/
theorem rest_branch (r : Relation) (i : Instruction) (address : UInt32) (s : Registers) (x : UInt32)
    (m : Machine β τ) :
    rest (.branch r) i address s x m =
      (if m.registers.comparison.satisfies r then advance (UInt32.ofInt i.value) else pure ()) m :=
  rfl

section Rest

variable {m n : Machine β τ} {op : Opcode} {i : Instruction} {address x : UInt32} {s : Registers}

/-- An operation that goes through and does not transfer control ends where its operand does. -/
theorem ip_of_rest_ok (hop : op.transfers m.registers.comparison = false)
    (h : rest op i address s x m = .ok () n) : n.registers.ip = m.registers.ip := by
  by_cases hbranch : ∃ r, op = .branch r
  · obtain ⟨r, rfl⟩ := hbranch
    have hnot : ¬ m.registers.comparison.satisfies r = true := by
      rw [show m.registers.comparison.satisfies r = false from hop]
      exact Bool.false_ne_true
    rw [rest_branch, if_neg hnot] at h
    cases h
    rfl
  · have hlist : op ∉ [.jmp, .jmpa, .jsr, .jsra, .ret] := by
      intro hmem
      simp only [List.mem_cons, List.not_mem_nil, or_false] at hmem
      rcases hmem with rfl | rfl | rfl | rfl | rfl <;> cases hop
    have hkept := (keepsIp_rest hlist (not_exists.mp hbranch) i address s x).registers m
    rwa [leaves_of_ok h] at hkept

/-- An operation other than a return that faults is found where its operand ends. -/
theorem faultsInPlace_rest (hop : op ≠ .ret) :
    FaultsInPlace (rest op i address s x : Action β τ Unit) := by
  by_cases hbranch : ∃ r, op = .branch r
  · obtain ⟨r, rfl⟩ := hbranch
    intro m f n h
    rw [rest_branch] at h
    split at h <;> cases h
  · by_cases hlist : op ∈ [.jmp, .jmpa, .jsr, .jsra, .ret]
    · simp only [List.mem_cons, List.not_mem_nil, or_false] at hlist
      rcases hlist with rfl | rfl | rfl | rfl | rfl
      · exact .bind .readRegisters fun s => faultsInPlace_jump _
      · exact faultsInPlace_jump x
      · exact .bind .readRegisters fun s => faultsInPlace_call _
      · exact faultsInPlace_call x
      · exact absurd rfl hop
    · exact .of_keeps (keepsIp_rest hlist (not_exists.mp hbranch) i address s x)

end Rest

/-! ## Calls -/

section Stack

variable {m n : Machine β τ} {v : UInt32}

/-- A push that succeeds is one store, below the stack pointer. -/
theorem exists_of_push_ok (h : push v m = .ok () n) :
    (Bus.write m.bus .long (m.registers.sp - 4) v).result = .ok () ∧
      n.bus = (Bus.write m.bus .long (m.registers.sp - 4) v).state ∧
      n.registers = m.registers.set .sp (m.registers.sp - 4) := by
  obtain ⟨_, k, hwrite, hset⟩ := exists_of_bind_ok ((bind_of_ok rfl).symm.trans h)
  cases hreply : (Bus.write m.bus .long (m.registers.sp - 4) v).result with
  | error e =>
    rw [writeBus_eq_error hreply] at hwrite
    cases hwrite
  | ok _ =>
    rw [writeBus_eq_ok hreply] at hwrite
    cases hwrite
    cases hset
    exact ⟨rfl, rfl, rfl⟩

/-- **A call that goes through pushes three words**: a zero, the address it was made from, and the
frame pointer. -/
theorem pushes_of_call_ok {target : UInt32} (h : call target m = .ok () n) :
    Bus.Pushes m.bus m.registers.sp [0, m.registers.ipAddress, m.registers.fp] n.bus := by
  obtain ⟨_, k, haligned, hframe⟩ := exists_of_bind_ok h
  obtain rfl : m = k := by
    unfold requireAligned at haligned
    split at haligned
    · cases haligned
      rfl
    · cases haligned
  obtain ⟨_, k₁, hzero, hframe⟩ := exists_of_bind_ok ((bind_of_ok rfl).symm.trans hframe)
  obtain ⟨_, k₂, hreturn, hframe⟩ := exists_of_bind_ok hframe
  obtain ⟨_, k₃, hfp, hframe⟩ := exists_of_bind_ok hframe
  obtain ⟨hok₁, hbus₁, hregisters₁⟩ := exists_of_push_ok hzero
  obtain ⟨hok₂, hbus₂, hregisters₂⟩ := exists_of_push_ok hreturn
  obtain ⟨hok₃, hbus₃, -⟩ := exists_of_push_ok hfp
  have hsp : ∀ (s : Registers) v, (s.set .sp v).sp = v := fun s v =>
    (Registers.get_set ..).trans (if_pos rfl)
  have hsp₁ : k₁.registers.sp = m.registers.sp - 4 := by rw [hregisters₁, hsp]
  have hsp₂ : k₂.registers.sp = m.registers.sp - 4 - 4 := by rw [hregisters₂, hsp, hsp₁]
  rw [hsp₁, hbus₁] at hok₂ hbus₂
  rw [hsp₂, hbus₂] at hok₃ hbus₃
  cases hframe
  show Bus.Pushes m.bus m.registers.sp _ k₃.bus
  rw [hbus₃]
  exact .cons hok₁ (.cons hok₂ (.cons hok₃ (.nil _ _)))

/-- Calling is what the two calling operations do behind their operand. -/
theorem exists_call_of_rest {op : Opcode} (hop : op = .jsr ∨ op = .jsra) (i : Instruction)
    (address : UInt32) (s : Registers) (x : UInt32) (m : Machine β τ) :
    ∃ target, rest op i address s x m = call target m := by
  rcases hop with rfl | rfl
  · exact ⟨m.registers.get i.a, rfl⟩
  · exact ⟨x, rfl⟩

/-! ## Returns -/

/-- A pop that fails ends whatever it begins, with the instruction pointer where it was. -/
theorem bind_pop_of_error {g : UInt32 → Action β τ α} {e : AccessError}
    (h : (Bus.read m.bus .long m.registers.sp).result = .error e) :
    ∃ k, (pop >>= g) m = .error (.access e) k ∧ k.registers.ip = m.registers.ip :=
  ⟨_, bind_of_error ((bind_of_ok rfl).trans (bind_of_error (readBus_eq_error h))), rfl⟩

/-- A pop that succeeds moves the stack pointer. -/
theorem bind_pop_of_ok {g : UInt32 → Action β τ α}
    (h : (Bus.read m.bus .long m.registers.sp).result = .ok v) :
    ∃ k, (pop >>= g) m = g v k ∧ k.bus = (Bus.read m.bus .long m.registers.sp).state ∧
      k.registers = m.registers.set .sp (m.registers.sp + 4) :=
  ⟨_, bind_of_ok ((bind_of_ok rfl).trans (bind_of_ok (readBus_eq_ok h))), rfl, rfl⟩

/-- **`Unwinding m k j`** — `k`, on the way out of the frame of `m`, has popped `j` of its words and
is to pop the next one. -/
structure Unwinding (m k : Machine β τ) (j : Nat) : Prop where
  sp : k.registers.sp = popSlot m.registers.fp j
  reply : Bus.read k.bus .long k.registers.sp = Bus.popReply m.bus m.registers.fp j

omit [Observer τ] in
/-- One word further. -/
theorem Unwinding.succ {k l : Machine β τ} {j : Nat} (h : Unwinding m k j)
    (hsp : l.registers.sp = k.registers.sp + 4)
    (hbus : l.bus = (Bus.read k.bus .long k.registers.sp).state) : Unwinding m l (j + 1) := by
  have hslot : l.registers.sp = popSlot m.registers.fp (j + 1) := by rw [hsp, h.sp, popSlot_succ]
  refine ⟨hslot, ?_⟩
  rw [hslot, hbus, h.reply]
  rfl

/-- A return begins with a pop from where the frame pointer is. -/
theorem exists_ret_eq (m : Machine β τ) :
    ∃ k, ret m = (pop >>= fun fp => do
        setRegister .fp fp
        let address ← pop
        goto address
        let _ ← pop) k ∧
      Unwinding m k 0 ∧ k.registers.ip = m.registers.ip := by
  have hsp : (m.registers.set .sp m.registers.fp).sp = m.registers.fp :=
    (Registers.get_set ..).trans (if_pos rfl)
  refine ⟨{ m with registers := m.registers.set .sp m.registers.fp }, rfl, ⟨?_, ?_⟩, rfl⟩
  · rw [popSlot_zero, hsp]
  · rw [hsp]
    rfl

/-- With one word popped, that is the frame pointer. -/
theorem exists_ret_eq_of_first (h : (Bus.popReply m.bus m.registers.fp 0).result = .ok v) :
    ∃ k, ret m = (pop >>= fun address => do
        goto address
        let _ ← pop) k ∧
      Unwinding m k 1 ∧ k.registers.ip = m.registers.ip := by
  obtain ⟨k, hret, hk, hip⟩ := exists_ret_eq m
  rw [← hk.reply] at h
  obtain ⟨l, hl, hbus, hregisters⟩ := bind_pop_of_ok h
  refine ⟨{ l with registers := l.registers.set .fp v }, hret.trans hl, hk.succ ?_ hbus, ?_⟩
  · show (l.registers.set .fp v).get .sp = _
    rw [Registers.get_set, if_neg (by decide), hregisters, Registers.get_set, if_pos rfl]
  · show l.registers.ip = _
    rw [hregisters]
    exact hip

/-- With two words popped, the machine is at the return address. -/
theorem exists_ret_eq_of_second {r : UInt32}
    (hfirst : (Bus.popReply m.bus m.registers.fp 0).result = .ok v)
    (h : (Bus.popReply m.bus m.registers.fp 1).result = .ok r) :
    ∃ k, ret m = (pop >>= fun _ => pure ()) k ∧ Unwinding m k 2 ∧ k.registers.ip = r / 2 := by
  obtain ⟨k, hret, hk, -⟩ := exists_ret_eq_of_first hfirst
  rw [← hk.reply] at h
  obtain ⟨l, hl, hbus, hregisters⟩ := bind_pop_of_ok h
  refine ⟨{ l with registers := { l.registers with ip := r / 2 } },
    hret.trans hl, hk.succ ?_ hbus, rfl⟩
  show l.registers.get .sp = _
  rw [hregisters, Registers.get_set, if_pos rfl]

/-- **A return stranded at its third pop** is at the return address by then. -/
theorem ret_of_strands {r : UInt32} (h : Bus.Strands m.bus m.registers.fp r) :
    ∃ f n, ret m = .error f n ∧ n.registers.ip = r / 2 := by
  obtain ⟨v, hfirst⟩ := h.first
  obtain ⟨e, hthird⟩ := h.third
  obtain ⟨k, hret, hk, hip⟩ := exists_ret_eq_of_second hfirst h.second
  rw [← hk.reply] at hthird
  obtain ⟨n, hn, hnip⟩ := bind_pop_of_error hthird
  exact ⟨_, n, hret.trans hn, hnip.trans hip⟩

/-- Any other return that faults has not moved. -/
theorem ip_of_ret_error {f : Fault} (h : ret m = .error f n)
    (hnot : ∀ r, ¬ Bus.Strands m.bus m.registers.fp r) : n.registers.ip = m.registers.ip := by
  -- the first pop that fails is the first or the second
  cases hfirst : (Bus.popReply m.bus m.registers.fp 0).result with
  | error e =>
    obtain ⟨k, hret, hk, hip⟩ := exists_ret_eq m
    rw [← hk.reply] at hfirst
    obtain ⟨l, hl, hlip⟩ := bind_pop_of_error hfirst
    rw [hret, hl] at h
    cases h
    exact hlip.trans hip
  | ok v =>
    cases hsecond : (Bus.popReply m.bus m.registers.fp 1).result with
    | error e =>
      obtain ⟨k, hret, hk, hip⟩ := exists_ret_eq_of_first hfirst
      rw [← hk.reply] at hsecond
      obtain ⟨l, hl, hlip⟩ := bind_pop_of_error hsecond
      rw [hret, hl] at h
      cases h
      exact hlip.trans hip
    | ok r =>
      cases hthird : (Bus.popReply m.bus m.registers.fp 2).result with
      | error e => exact absurd ⟨⟨v, hfirst⟩, hsecond, e, hthird⟩ (hnot r)
      | ok w =>
        obtain ⟨k, hret, hk, -⟩ := exists_ret_eq_of_second hfirst hsecond
        rw [← hk.reply] at hthird
        obtain ⟨l, hl, -⟩ := bind_pop_of_ok hthird
        rw [hret, hl] at h
        cases h

end Stack

end Action

/-! ## Steps -/

namespace Machine

variable [Observer τ]

/-- **`m.behind op`** — the word behind the instruction at the instruction pointer and its inline
operand, when the instruction is an `op`. -/
def behind (m : Machine β τ) (op : Opcode) : UInt32 :=
  m.registers.ip + 1 + UInt32.ofNat op.immediateWords

/-- **`m.Paced op`** — the next step of `m`, which fetches the word of an `op`, moves the
instruction pointer by the length that the table gives `op`. -/
structure Paced (m : Machine β τ) (op : Opcode) : Prop where
  /-- Without its operand the instruction is found behind its word. -/
  noOperand : ∀ e, (m.operandFetch op).result = .error e →
    Action.step.answer m = .error (.access e) ∧ m.next.registers.ip = m.registers.ip + 1
  /-- An instruction that completes goes on behind itself, unless it transfers control. -/
  straight : ∀ p, Action.step.answer m = .ok p → op.transfers m.registers.comparison = false →
    m.next.registers.ip = m.behind op
  /-- A call that completes has pushed the byte address behind itself, between a zero and the frame
  pointer. -/
  call : ∀ p, Action.step.answer m = .ok p → op = .jsr ∨ op = .jsra →
    Bus.Pushes (m.operandFetch op).state m.registers.sp [0, 2 * m.behind op, m.registers.fp]
      m.next.bus
  /-- An instruction that faults with its operand fetched is found behind itself, unless it is a
  return and stranded. -/
  fault : ∀ v f, (m.operandFetch op).result = .ok v → Action.step.answer m = .error f →
    (op = .ret → ∀ r, ¬ Bus.Strands m.wordFetch.state m.registers.fp r) →
    m.next.registers.ip = m.behind op
  /-- A stranded return faults at the return address. -/
  stranded : ∀ r, op = .ret → Bus.Strands m.wordFetch.state m.registers.fp r →
    (∃ f, Action.step.answer m = .error f) ∧ m.next.registers.ip = r / 2

section Fetched

variable {m : Machine β τ} (hrunning : m.registers.halted = false) {word : UInt32}
  (h : m.wordFetch.result = .ok word) {op : Opcode} (hop : Opcode.ofWord? word.toUInt16 = some op)

include hrunning h hop

/-- Without its operand nothing is performed. -/
theorem paced_of_no_operand {e : AccessError} (hoperand : (m.operandFetch op).result = .error e) :
    m.Paced op := by
  have hperform : Action.perform op (.decode word.toUInt16) m.registers.ipAddress
      (m.pastFetched word) =
        .error (.access e) ((m.pastFetched word).past (m.operandFetch op)) := by
    rw [Action.perform_eq]
    exact (Action.bind_of_ok rfl).trans
      (Action.bind_of_error (Action.inline_of_error (m := m.pastFetched word) hoperand))
  have hstep := Action.step_of_perform_error hrunning h hop hperform
  have hanswer := Action.answer_of_error hstep
  constructor
  case noOperand =>
    intro e' he'
    cases hoperand.symm.trans he'
    refine ⟨hanswer, ?_⟩
    rw [next, Action.leaves_of_error hstep]
    rfl
  case straight =>
    intro p hp
    cases hanswer.symm.trans hp
  case call =>
    intro p hp
    cases hanswer.symm.trans hp
  case fault =>
    intro v f hv
    cases hoperand.symm.trans hv
  case stranded =>
    rintro r rfl
    cases hoperand

omit hrunning h hop in
/-- With its operand an operation has come to its rest. -/
theorem exists_rest (word : UInt32) {v : UInt32} (hoperand : (m.operandFetch op).result = .ok v) :
    ∃ x n, Action.perform op (.decode word.toUInt16) m.registers.ipAddress (m.pastFetched word) =
        Action.rest op (.decode word.toUInt16) m.registers.ipAddress (m.pastFetched word).registers
          x n ∧
      n.registers = { m.registers with ip := m.behind op } ∧ n.bus = (m.operandFetch op).state := by
  obtain ⟨x, n, hinline, hregisters, hbus⟩ :=
    Action.inline_of_ok (m := m.pastFetched word) op.immediateWords_le hoperand
  refine ⟨x, n, ?_, hregisters, hbus⟩
  rw [Action.perform_eq]
  exact (Action.bind_of_ok rfl).trans (Action.bind_of_ok hinline)

theorem paced_of_operand {v : UInt32} (hoperand : (m.operandFetch op).result = .ok v) :
    m.Paced op := by
  obtain ⟨x, n, hperform, hregisters, hbus⟩ := exists_rest word hoperand
  have hip : n.registers.ip = m.behind op := by rw [hregisters]
  have hfp : n.registers.fp = m.registers.fp := by rw [hregisters]; rfl
  cases hrest : Action.rest op (.decode word.toUInt16) m.registers.ipAddress
    (m.pastFetched word).registers x n with
  | ok u l =>
    have hstep := Action.step_of_perform_ok hrunning h hop (hperform.trans hrest)
    have hanswer := Action.answer_of_ok hstep
    have hnext : m.next.registers.ip = l.registers.ip ∧ m.next.bus = l.bus := by
      rw [next, Action.leaves_of_ok hstep]
      exact ⟨rfl, rfl⟩
    constructor
    case noOperand =>
      intro e he
      cases hoperand.symm.trans he
    case straight =>
      intro p _ hstraight
      rw [hnext.1, ← hip]
      refine Action.ip_of_rest_ok ?_ hrest
      rw [hregisters]
      exact hstraight
    case call =>
      intro p _ hcall
      obtain ⟨target, htarget⟩ := Action.exists_call_of_rest hcall _ _ _ x n
      have hpushes := Action.pushes_of_call_ok (htarget.symm.trans hrest)
      rw [hbus, hfp, hregisters] at hpushes
      rw [hnext.2, UInt32.mul_comm]
      exact hpushes
    case fault =>
      intro v' f _ hf
      cases hanswer.symm.trans hf
    case stranded =>
      rintro r rfl hstrands
      obtain ⟨f, k, hret, -⟩ := Action.ret_of_strands (m := n) (by rwa [hbus, hfp])
      cases hrest.symm.trans hret
  | error f l =>
    have hstep := Action.step_of_perform_error hrunning h hop (hperform.trans hrest)
    have hanswer := Action.answer_of_error hstep
    have hnext : m.next = l := Action.leaves_of_error hstep
    constructor
    case noOperand =>
      intro e he
      cases hoperand.symm.trans he
    case straight =>
      intro p hp
      cases hanswer.symm.trans hp
    case call =>
      intro p hp
      cases hanswer.symm.trans hp
    case fault =>
      intro v' f' _ _ hnot
      rw [hnext, ← hip]
      by_cases hret : op = .ret
      · subst hret
        refine Action.ip_of_ret_error hrest ?_
        rw [hbus, hfp]
        exact hnot rfl
      · exact Action.faultsInPlace_rest hret n f l hrest
    case stranded =>
      rintro r rfl hstrands
      obtain ⟨f', k, hret, hr⟩ := Action.ret_of_strands (m := n) (by rwa [hbus, hfp])
      cases hrest.symm.trans hret
      exact ⟨⟨_, hanswer⟩, by rw [hnext, hr]⟩

end Fetched

/-- **The table of opcodes paces the machine.**  On any bus, a step of a machine that has not halted
leaves the instruction pointer where it was when the instruction word cannot be fetched, and one
word further when the word is no instruction; the word of an instruction is paced by the table. -/
theorem ip_of_step (m : Machine β τ) (hrunning : m.registers.halted = false) :
    (∀ e, m.wordFetch.result = .error e →
      Action.step.answer m = .error (.access e) ∧ m.next.registers.ip = m.registers.ip) ∧
    ∀ word, m.wordFetch.result = .ok word →
      (Opcode.ofWord? word.toUInt16 = none →
        Action.step.answer m = .error (.illegalOpcode word.toUInt16 m.registers.ipAddress) ∧
          m.next.registers.ip = m.registers.ip + 1) ∧
      ∀ op, Opcode.ofWord? word.toUInt16 = some op → m.Paced op := by
  constructor
  · intro e h
    have hstep := Action.step_of_no_word hrunning h
    exact ⟨Action.answer_of_error hstep, by rw [next, Action.leaves_of_error hstep]; rfl⟩
  · intro word h
    constructor
    · intro hop
      have hstep := Action.step_of_illegal hrunning h hop
      exact ⟨Action.answer_of_error hstep, by rw [next, Action.leaves_of_error hstep]; rfl⟩
    · intro op hop
      cases hoperand : (m.operandFetch op).result with
      | error e => exact paced_of_no_operand hrunning h hop hoperand
      | ok v => exact paced_of_operand hrunning h hop hoperand

/-- A machine over twelve bytes that is to return with a frame pointer of 4. -/
def unmoored : Machine Memory Unit where
  registers := Registers.initial.set .fp 4
  bus := ⟨⟨#[], #[0x00, 0x04, 0, 0, 0, 0, 0, 0, 0x0E, 0, 0, 0], by decide⟩,
    by decide, by decide, by decide⟩
  observer := ()
  completed := 0

/-- The words at 4 and 8 are popped and there is none at 12; the return address was 14. -/
theorem unmoored_stranded :
    unmoored.registers.halted = false ∧ unmoored.wordFetch.result = .ok 0x0400 ∧
      Opcode.ofWord? 0x0400 = some .ret ∧ Bus.Strands unmoored.wordFetch.state 4 14 ∧
      (∃ f, Action.step.answer unmoored = .error f) ∧ unmoored.next.registers.ip = 7 := by
  have hword : unmoored.wordFetch.result = .ok 0x0400 := by decide +kernel
  have hop : Opcode.ofWord? 0x0400 = some .ret := by decide
  have hstrands : Bus.Strands unmoored.wordFetch.state 4 14 :=
    ⟨⟨0, by decide +kernel⟩, by decide +kernel, ⟨.outOfRange ⟨12, 4, 12⟩, by decide +kernel⟩⟩
  have hpaced := ((ip_of_step unmoored rfl).2 _ hword).2 _ hop
  obtain ⟨hfault, hip⟩ := hpaced.stranded 14 rfl hstrands
  exact ⟨rfl, hword, hop, hstrands, hfault, hip⟩

end Machine

end Moxie
