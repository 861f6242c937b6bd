/-
# Moxie.Proofs.Machine.Aftermath — what a fault leaves behind on bare memory.

Nearly every instruction does all its fallible work before it changes anything, so when it faults
only the instruction pointer has moved.  `FailsQuietly` says this of an action; it is put together
from actions that never change anything else (`MadeOf.quiet`), one that may fail without effect, and
others after it that cannot fail.

Three operations are different.  A software interrupt leaves its number and cause in the special
registers and then always faults.  A call and a return go through three words of the stack and may
stop at each of them; what they leave there is what a row of accesses leaves (`row_call`,
`row_ret`).  `Machine.Aftermath` puts all of this into one statement.
-/
import Moxie.Proofs.Machine.Faults
import Moxie.Proofs.Machine.Stack

namespace Moxie

/-! ## Actions that change nothing on failure -/

/-- Reports and faults change nothing of the machine itself. -/
def Effect.IsQuiet : Effect → Prop
  | .report _ | .raise _ => True
  | _ => False

namespace Action

variable {τ α γ : Type}

/-- **`Quiet x`** — whatever comes of `x`, it changes nothing but the instruction pointer. -/
def Quiet (x : Action Memory τ α) : Prop :=
  ∀ m : Machine Memory τ, m.SameButIp (x.leaves m)

/-- **`FailsQuietly x`** — when `x` fails it has changed nothing but the instruction pointer. -/
def FailsQuietly (x : Action Memory τ α) : Prop :=
  ∀ m f n, x m = .error f n → m.SameButIp n

/-- Two quiet actions in sequence are quiet. -/
theorem Quiet.bind {x : Action Memory τ α} {g : α → Action Memory τ γ} (hx : Quiet x)
    (hg : ∀ a, Quiet (g a)) : Quiet (x >>= g) := by
  intro m
  have hm := hx m
  cases h : x m with
  | ok a n =>
    rw [leaves_of_ok h] at hm
    rw [leaves_bind_of_ok h]
    exact hm.trans (hg a n)
  | error f n =>
    rw [leaves_of_error h] at hm
    rwa [leaves_bind_of_error h]

/-- An action that has no other effects is quiet. -/
theorem MadeOf.quiet [Observer τ] {x : Action Memory τ α} (h : MadeOf Effect.IsQuiet x) :
    Quiet x := by
  induction h with
  | pure | fail | registers | move | notify => exact fun _ => ⟨rfl, rfl, rfl⟩
  | setRegister h | setSpecial h | compare h | writeBus h => exact False.elim h
  | readBus w addr =>
    intro m
    by_cases h : m.bus.Fits addr w.bytes
    · rw [leaves_of_ok (readBus_of_fits h)]
      exact .refl m
    · rw [leaves_of_error (readBus_of_not_fits h)]
      exact .refl m
  | bind _ _ ihx ihg => exact ihx.bind ihg

namespace FailsQuietly

theorem of_madeOf [Observer τ] {x : Action Memory τ α} (h : MadeOf Effect.IsQuiet x) :
    FailsQuietly x := by
  intro m f n hx
  rw [← leaves_of_error hx]
  exact h.quiet m

/-- An action that cannot fail. -/
theorem of_ok {x : Action Memory τ α} (h : ∀ m, ∃ a n, x m = .ok a n) : FailsQuietly x := by
  intro m f n hx
  obtain ⟨a, k, hok⟩ := h m
  rw [hok] at hx
  cases hx

/-- What comes first must be quiet also when it succeeds. -/
theorem bind [Observer τ] {x : Action Memory τ α} {g : α → Action Memory τ γ}
    (hx : MadeOf Effect.IsQuiet x) (hg : ∀ a, FailsQuietly (g a)) : FailsQuietly (x >>= g) := by
  intro m f n h
  have hm := hx.quiet m
  rcases exists_of_bind_error h with h | ⟨a, k, hok, h⟩
  · rwa [leaves_of_error h] at hm
  · rw [leaves_of_ok hok] at hm
    exact hm.trans (hg a k f n h)

/-- What comes last may change anything, as long as it cannot fail. -/
theorem bind_ok {x : Action Memory τ α} {g : α → Action Memory τ γ} (hx : FailsQuietly x)
    (hg : ∀ a m, ∃ c n, g a m = .ok c n) : FailsQuietly (x >>= g) := by
  intro m f n h
  rcases exists_of_bind_error h with h | ⟨a, k, -, h⟩
  · exact hx m f n h
  · obtain ⟨c, k', hok⟩ := hg a k
    rw [hok] at h
    cases h

variable [Observer τ]

theorem jump (target : UInt32) : FailsQuietly (Action.jump target : Action Memory τ Unit) :=
  of_madeOf (.jump trivial)

theorem writeBus (w : Width) (addr v : UInt32) :
    FailsQuietly (Action.writeBus w addr v : Action Memory τ Unit) := by
  intro m f n hx
  by_cases h : m.bus.Fits addr w.bytes
  · rw [writeBus_of_fits h] at hx
    cases hx
  · rw [writeBus_of_not_fits h] at hx
    cases hx
    exact .refl m

/-- **Performing an operation.**  All but interrupts, calls and returns fail quietly. -/
theorem perform {op : Opcode} (hop : op ∉ [.swi, .jsr, .jsra, .ret]) (i : Instruction)
    (address : UInt32) : FailsQuietly (Action.perform op i address : Action Memory τ Unit) := by
  refine bind .registers fun s => ?_
  cases op with
  | nop | brk | inc | dec | cmp => exact of_ok fun _ => ⟨_, _, rfl⟩
  | compute c =>
    dsimp only
    cases c.eval (s.get i.a) (s.get i.b) with
    | none => exact of_madeOf (.fail trivial)
    | some v => exact of_ok fun _ => ⟨_, _, rfl⟩
  | branch r =>
    dsimp only
    split
    · exact of_madeOf (.advance _)
    · exact of_madeOf (.pure ())
  | jmp => exact jump _
  | jmpa => exact bind (.operand fun _ => trivial) fun target => jump target
  | push => exact bind_ok (writeBus _ _ _) fun _ _ => ⟨_, _, rfl⟩
  | pop => exact bind_ok (of_madeOf (.readBus _ _)) fun _ _ => ⟨_, _, rfl⟩
  | loadImmediate w => exact bind_ok (of_madeOf (.operand fun _ => trivial)) fun _ _ => ⟨_, _, rfl⟩
  | load mode w =>
    refine bind (.effectiveAddress (fun _ _ => trivial) _) fun addr => ?_
    exact bind_ok (of_madeOf (.readBus w addr)) fun _ _ => ⟨_, _, rfl⟩
  | store mode w =>
    exact bind (.effectiveAddress (fun _ _ => trivial) _) fun addr => writeBus w addr _
  | gsr => exact bind_ok (of_madeOf (.specialIndex trivial)) fun _ _ => ⟨_, _, rfl⟩
  | ssr => exact bind_ok (of_madeOf (.specialIndex trivial)) fun _ _ => ⟨_, _, rfl⟩
  | swi | jsr | jsra | ret => simp at hop

end FailsQuietly

end Action

/-- What the special registers hold after a fault that found them as in `s`. -/
def Fault.specialAfter (f : Fault) (s : Registers) (i : SpecialIndex) : UInt32 :=
  match f with
  | .softwareInterrupt number =>
    if i.val = 3 then number else if i.val = 2 then 3 else s.getSpecial i
  | _ => s.getSpecial i

/-! ## The ways to fault -/

namespace Machine

variable {τ : Type}

/-- **`m.Faulted f n`** — the next instruction of `m` may fault with `f` and leave `n`: with nothing
but the instruction pointer moved, after a software interrupt, on the way into a call, or on the way
out of one. -/
inductive Faulted (m : Machine Memory τ) : Fault → Machine Memory τ → Prop where
  | quiet {f : Fault} {n : Machine Memory τ} (hn : m.SameButIp n)
      (hf : ∀ number, f ≠ .softwareInterrupt number)
      (hcall : ∀ target, m.Calls target → target % 2 ≠ 0) (hret : ¬ m.Returns) : Faulted m f n
  | interrupted {k n : Machine Memory τ} {number : UInt32} (hk : m.SameButIp k)
      (hop : m.nextInstruction.opcode = some .swi)
      (hregisters : n.registers =
        (k.registers.setSpecial SpecialRegister.swiRequestNumber.index number).setSpecial
          SpecialRegister.exceptionTrigger.index ExceptionCause.softwareInterrupt.code)
      (hbus : n.bus = k.bus) (hcompleted : n.completed = k.completed) :
      Faulted m (.softwareInterrupt number) n
  | calling {target : UInt32} {k : Machine Memory τ} {j : Nat} (hcalls : m.Calls target)
      (heven : target % 2 = 0) (hk : m.SameButIp k)
      (haddress : k.registers.ipAddress = m.followingAddress) (hj : j < 3)
      (hstops : k.bus.StopsAt (pushSlot k.registers.sp) j) :
      Faulted m (k.bus.miss (pushSlot k.registers.sp j) 4) (k.pushed (k.frame.take j))
  | returning {k : Machine Memory τ} {j : Nat} (hret : m.Returns) (hk : m.SameButIp k) (hj : j < 3)
      (hstops : k.bus.StopsAt (popSlot k.registers.fp) j) :
      Faulted m (k.bus.miss (popSlot k.registers.fp j) 4) (k.unwound j)

variable [Observer τ] {m n : Machine Memory τ} {f : Fault}

/-- A call that faults has an odd target, or stops at one of its pushes. -/
theorem faulted_of_calls {target : UInt32} (hcalls : m.Calls target) {op : Opcode}
    (hop : m.nextInstruction.opcode = some op)
    (h : Action.perform op m.nextInstruction m.registers.ipAddress m.pastWord = .error f n) :
    m.Faulted f n := by
  obtain ⟨op', k, hop', -, hperform, hk, haddress⟩ := hcalls.exists_perform
  obtain rfl : op = op' := Option.some.inj (hop.symm.trans hop')
  rw [hperform] at h
  by_cases heven : target % 2 = 0
  · have hrow := Action.row_call heven k
    rw [h] at hrow
    cases hrow with
    | stopped hj hstops =>
      rw [k.calling_of_lt target hj]
      exact .calling hcalls heven hk haddress hj hstops
  · rw [Action.call_of_odd heven] at h
    cases h
    refine .quiet hk nofun (fun t ht => ?_) hcalls.not_returns
    rwa [ht.unique hcalls]

/-- An operation whose operand cannot be fetched faults quietly. -/
theorem faulted_of_no_operand {op : Opcode} (hop : m.nextInstruction.opcode = some op)
    (hwords : op.immediateWords = 2) (hoperand : ¬ m.bus.Fits (m.registers.ipAddress + 2) 4)
    (hcalls : ∀ target, ¬ m.Calls target)
    (h : Action.perform op m.nextInstruction m.registers.ipAddress m.pastWord = .error f n) :
    m.Faulted f n := by
  rw [Action.perform_of_operand_error hwords (Action.operand_pastWord_of_not_fits hoperand)] at h
  cases h
  refine .quiet m.sameButIp_pastWord nofun (fun t ht => absurd ht (hcalls t)) fun hret => ?_
  -- a return has no operand
  cases hop.symm.trans hret.hop
  cases hwords

/-- Any other operation faults quietly, is an interrupt, or is a return that stops at one of its
pops.
-/
theorem faulted_of_not_calls (hcalls : ∀ target, ¬ m.Calls target) {op : Opcode}
    (hfits : m.bus.Fits m.registers.ipAddress 2) (hop : m.nextInstruction.opcode = some op)
    (h : Action.perform op m.nextInstruction m.registers.ipAddress m.pastWord = .error f n) :
    m.Faulted f n := by
  by_cases hplain : op ∉ [.swi, .jsr, .jsra, .ret]
  · have hquiet := Action.FailsQuietly.perform hplain _ _ _ _ _ h
    have hkind := Action.FaultsIn.perform op _ _ _ _ _ h
    refine .quiet (m.sameButIp_pastWord.trans hquiet) ?_ (fun t ht => absurd ht (hcalls t)) ?_
    · rintro number rfl
      exact hplain (by simp [of_decide_eq_true hkind])
    · intro hret
      cases hop.symm.trans hret.hop
      exact hplain (by decide)
  · simp only [List.mem_cons, List.not_mem_nil, or_false, not_not] at hplain
    rcases hplain with rfl | rfl | rfl | rfl
    · by_cases hoperand : m.bus.Fits (m.registers.ipAddress + 2) 4
      · have hinterrupt :=
          (Action.bind_of_ok (Action.operand_pastWord_of_fits hoperand)).symm.trans h
        cases hinterrupt
        exact .interrupted (m.sameButIp_pastWord.trans m.pastWord.sameButIp_pastOperand)
          hop rfl rfl rfl
      · exact faulted_of_no_operand hop rfl hoperand hcalls h
    · exact absurd (.jsr hfits hop) (hcalls _)
    · -- with an operand it would call
      exact faulted_of_no_operand hop rfl (fun hoperand => hcalls _ (.jsra hfits hop hoperand))
        hcalls h
    · have hrow : Action.Row m.bus (popSlot m.registers.fp) 3 m.pastWord.unwound (.error f n) :=
        h ▸ Action.row_ret m.pastWord
      cases hrow with
      | stopped hj hstops => exact .returning ⟨hfits, hop⟩ m.sameButIp_pastWord hj hstops

/-- **Every fault comes about in one of the four ways.** -/
theorem faulted (hrunning : m.registers.halted = false) (h : Action.step m = .error f n) :
    m.Faulted f n := by
  rcases Action.cases_of_step_error hrunning h with
    ⟨hfits, rfl, rfl⟩ | ⟨hop, rfl, rfl⟩ | ⟨op, hfits, hop, hperform⟩
  · refine .quiet (.refl n) nofun (fun t ht => ?_) fun hret => hfits hret.hword
    cases ht with
    | jsr hword => exact absurd hword hfits
    | jsra hword => exact absurd hword hfits
  · refine .quiet m.sameButIp_pastWord nofun (fun t ht => ?_) fun hret => ?_
    · cases ht with
      | jsr _ hop' => simp [hop] at hop'
      | jsra _ hop' => simp [hop] at hop'
    · simpa [hop] using hret.hop
  · by_cases hcalls : ∃ target, m.Calls target
    · obtain ⟨target, hcalls⟩ := hcalls
      exact faulted_of_calls hcalls hop hperform
    · exact faulted_of_not_calls (not_exists.mp hcalls) hfits hop hperform

/-! ## The aftermath -/

/-- **`m.Aftermath f n`** — `n` is what the fault `f` in the next instruction leaves of `m`. -/
structure Aftermath (m : Machine Memory τ) (f : Fault) (n : Machine Memory τ) : Prop where
  completed : n.completed = m.completed
  halted : n.registers.halted = m.registers.halted
  comparison : n.registers.comparison = m.registers.comparison
  special : ∀ i, n.registers.getSpecial i = f.specialAfter m.registers i
  general : ∀ r, r ≠ .sp → r ≠ .fp → n.registers.get r = m.registers.get r
  /-- A call of an even address stops at one of its pushes, after those of the zero and the return
  address that came before. -/
  call : ∀ target, m.Calls target → target % 2 = 0 → ∃ j < 3,
    m.bus.StopsAt (pushSlot m.registers.sp) j ∧ f = m.bus.miss (pushSlot m.registers.sp j) 4 ∧
    n.registers.fp = m.registers.fp ∧ n.registers.sp = m.registers.sp - UInt32.ofNat (4 * j) ∧
    n.bus = m.bus.pushed m.registers.sp ([0, m.followingAddress].take j)
  /-- A return stops at one of its pops; the words before are the frame pointer and the return
  address. -/
  ret : m.Returns → ∃ j < 3,
    m.bus.StopsAt (popSlot m.registers.fp) j ∧ f = m.bus.miss (popSlot m.registers.fp j) 4 ∧
    n.bus = m.bus ∧ n.registers.sp = popSlot m.registers.fp j ∧
    n.registers.fp = (if j = 0 then m.registers.fp else m.bus.valueAt .long m.registers.fp) ∧
    (j = 2 → n.registers.ip = m.bus.valueAt .long (popSlot m.registers.fp 1) / 2)
  /-- Everything else leaves memory and general registers alone. -/
  other : (∀ target, m.Calls target → target % 2 ≠ 0) → ¬ m.Returns →
    n.bus = m.bus ∧
    n.registers = { m.registers with ip := n.registers.ip, special := n.registers.special }

omit [Observer τ] in
theorem Aftermath.of_quiet (hn : m.SameButIp n) (hf : ∀ number, f ≠ .softwareInterrupt number)
    (hcall : ∀ target, m.Calls target → target % 2 ≠ 0) (hret : ¬ m.Returns) : m.Aftermath f n where
  completed := hn.completed
  halted := by rw [hn.registers]
  comparison := by rw [hn.registers]
  special i := by
    rw [hn.registers]
    cases f with
    | softwareInterrupt number => exact absurd rfl (hf number)
    | _ => rfl
  general r _ _ := by rw [hn.registers]; rfl
  call target hcalls heven := absurd heven (hcall target hcalls)
  ret h := absurd h hret
  other _ _ := ⟨hn.bus, by rw [hn.registers]⟩

omit [Observer τ] in
theorem Aftermath.of_interrupted {k : Machine Memory τ} {number : UInt32} (hk : m.SameButIp k)
    (hop : m.nextInstruction.opcode = some .swi)
    (hregisters : n.registers =
      (k.registers.setSpecial SpecialRegister.swiRequestNumber.index number).setSpecial
        SpecialRegister.exceptionTrigger.index ExceptionCause.softwareInterrupt.code)
    (hbus : n.bus = k.bus) (hcompleted : n.completed = k.completed) :
    m.Aftermath (.softwareInterrupt number) n := by
  rw [hk.registers] at hregisters
  constructor
  · exact hcompleted.trans hk.completed
  · rw [hregisters]; rfl
  · rw [hregisters]; rfl
  · intro i
    rw [hregisters, Registers.getSpecial_setSpecial, Registers.getSpecial_setSpecial]
    -- the cause is written after the number, into another register
    by_cases htrigger : i.val = 2
    · have hnumber : i.val ≠ 3 := by omega
      rw [if_pos (Fin.ext htrigger), Fault.specialAfter, if_neg hnumber, if_pos htrigger]
      rfl
    · rw [if_neg (Fin.ne_of_val_ne htrigger), Fault.specialAfter, if_neg htrigger]
      by_cases hnumber : i.val = 3
      · rw [if_pos (Fin.ext hnumber), if_pos hnumber]
      · rw [if_neg (Fin.ne_of_val_ne hnumber), if_neg hnumber]
        rfl
  · intro r _ _
    rw [hregisters]; rfl
  · intro target hcalls
    cases hcalls with
    | jsr _ hop' => simp [hop] at hop'
    | jsra _ hop' => simp [hop] at hop'
  · intro hret
    simpa [hop] using hret.hop
  · intro _ _
    refine ⟨hbus.trans hk.bus, ?_⟩
    rw [hregisters]; rfl

omit [Observer τ] in
theorem Aftermath.of_calling {target : UInt32} {k : Machine Memory τ} {j : Nat}
    (hcalls : m.Calls target) (heven : target % 2 = 0) (hk : m.SameButIp k)
    (haddress : k.registers.ipAddress = m.followingAddress) (hj : j < 3)
    (hstops : k.bus.StopsAt (pushSlot k.registers.sp) j) :
    m.Aftermath (k.bus.miss (pushSlot k.registers.sp j) 4) (k.pushed (k.frame.take j)) := by
  have hsp : k.registers.sp = m.registers.sp := hk.get .sp
  have hlength : (k.frame.take j).length = j := List.length_take_of_le (Nat.le_of_lt hj)
  have hframe : k.frame.take j = [0, m.followingAddress].take j := by
    rw [← haddress]
    match j, hj with
    | 0, _ => rfl
    | 1, _ => rfl
    | 2, _ => rfl
  have hget : ∀ r, r ≠ .sp → (k.pushed (k.frame.take j)).registers.get r = m.registers.get r :=
    fun r hr => (Registers.get_set ..).trans ((if_neg hr).trans (hk.get r))
  constructor
  · exact hk.completed
  · show k.registers.halted = _
    rw [hk.registers]
  · show k.registers.comparison = _
    rw [hk.registers]
  · intro i
    show k.registers.getSpecial i = _
    rw [hk.registers]
    rfl
  · exact fun r hr _ => hget r hr
  · intro _ _ _
    refine ⟨j, hj, ?_, ?_, hget .fp (by decide), ?_, ?_⟩
    · rwa [hsp, hk.bus] at hstops
    · rw [hsp, hk.bus]
    · rw [← hsp]
      refine (Registers.get_set ..).trans ((if_pos rfl).trans ?_)
      rw [hlength]
    · rw [← hframe, ← hsp, ← hk.bus]
      rfl
  · exact fun hret => absurd hret hcalls.not_returns
  · exact fun hodd => absurd heven (hodd target hcalls)

omit [Observer τ] in
theorem Aftermath.of_returning {k : Machine Memory τ} {j : Nat} (hret : m.Returns)
    (hk : m.SameButIp k) (hj : j < 3) (hstops : k.bus.StopsAt (popSlot k.registers.fp) j) :
    m.Aftermath (k.bus.miss (popSlot k.registers.fp j) 4) (k.unwound j) := by
  have hfp : k.registers.fp = m.registers.fp := hk.get .fp
  constructor
  · exact (k.unwound_completed j).trans hk.completed
  · refine (unwound_registers (fun _ _ _ _ => rfl) (fun _ _ => rfl) k j).trans ?_
    rw [hk.registers]
  · refine (unwound_registers (fun _ _ _ _ => rfl) (fun _ _ => rfl) k j).trans ?_
    rw [hk.registers]
  · intro i
    refine (unwound_registers (f := (·.getSpecial i)) (fun _ _ _ _ => rfl) (fun _ _ => rfl)
      k j).trans ?_
    rw [hk.registers]
    rfl
  · exact fun r hsp hfp => (k.unwound_get j hsp hfp).trans (hk.get r)
  · exact fun target hcalls => absurd hret hcalls.not_returns
  · intro _
    refine ⟨j, hj, ?_, ?_, (k.unwound_bus j).trans hk.bus, ?_, ?_, ?_⟩
    · rwa [hfp, hk.bus] at hstops
    · rw [hfp, hk.bus]
    · rw [k.unwound_sp, hfp]
    · rw [k.unwound_fp, hfp, hk.bus]
    · rintro rfl
      rw [k.unwound_ip, hfp, hk.bus]
      rfl
  · exact fun _ hnot => absurd hret hnot

/-- **What a fault leaves behind.**  When the next instruction of a machine on bare memory faults,
the count, the comparison and whether the machine has stopped are as before, and so are the special
registers, unless it was a software interrupt, and all general registers but the stack and frame
pointers.  These and the memory are as before too, except on the way into a call, after some of its
pushes, or out of one, after some of its pops. -/
theorem aftermath_of_fault (hrunning : m.registers.halted = false)
    (h : Action.step m = .error f n) : m.Aftermath f n := by
  cases faulted hrunning h with
  | quiet hn hf hcall hret => exact .of_quiet hn hf hcall hret
  | interrupted hk hop hregisters hbus hcompleted =>
    exact .of_interrupted hk hop hregisters hbus hcompleted
  | calling hcalls heven hk haddress hj hstops =>
    exact .of_calling hcalls heven hk haddress hj hstops
  | returning hret hk hj hstops => exact .of_returning hret hk hj hstops

/-- A machine over eight bytes that is to call address 4, and has room for two of the three
words. -/
def cramped : Machine Memory Unit where
  registers := Registers.initial.set .sp 8
  bus := ⟨⟨#[], #[0x00, 0x03, 0x04, 0x00, 0x00, 0x00, 0xFF, 0xFF], by decide⟩,
    by decide, by decide, by decide⟩
  observer := ()
  completed := 0

/-- The zero and the return address are pushed, the latter over the call itself. -/
theorem cramped_aftermath :
    cramped.registers.halted = false ∧
      Action.step cramped = .error (.access (.outOfRange ⟨4294967292, 4, 8⟩)) cramped.next ∧
      cramped.Aftermath (.access (.outOfRange ⟨4294967292, 4, 8⟩)) cramped.next ∧
      cramped.next.registers.sp = 0 ∧ cramped.next.bus.bytes = #[6, 0, 0, 0, 0, 0, 0, 0] := by
  have hstep : Action.step cramped =
      .error (.access (.outOfRange ⟨4294967292, 4, 8⟩)) cramped.next := by rfl
  exact ⟨rfl, hstep, aftermath_of_fault rfl hstep, by decide +kernel, by decide +kernel⟩

end Machine

end Moxie
