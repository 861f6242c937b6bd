/-
# Moxie.Proofs.Machine.Frames — a return undoes the call whose frame it finds.

A call that completes has put three words below the stack pointer: a zero, the address to return to,
and the frame pointer of its caller.  All three slots lie in the memory, so counting down from the
stack pointer does not pass address zero, and the slots lie one below the other
(`Memory.toNat_pushSlot`).  The new frame pointer is the lowest of them, and `Machine.Entered` says
what stands in each.

A return looks at nothing but the frame pointer and these twelve bytes.  Whatever the callee has
done, if it has left the two alone the return puts the stack pointer, the frame pointer and the
instruction pointer back (`Entered.resumes`), and that the callee is a run of any length adds only
that a run never changes the size of a memory.
-/
import Moxie.Proofs.Machine.Faults
import Moxie.Proofs.Machine.Simulation
import Moxie.Proofs.Machine.Stack
import Moxie.Proofs.Word.Bits

namespace Moxie

/-! ## Slots -/

/-- Going up from a frame is going back through what was pushed. -/
theorem popSlot_pushSlot (sp : UInt32) (i j : Nat) :
    popSlot (pushSlot sp (i + j)) i = pushSlot sp j := by
  have hsplit : 4 * (i + j + 1) = 4 * (j + 1) + 4 * i := by omega
  rw [popSlot, pushSlot, pushSlot, hsplit, UInt32.ofNat_add]
  grind

/-- Behind the last word there is the stack pointer from before. -/
theorem popSlot_succ_pushSlot (sp : UInt32) (i : Nat) : popSlot (pushSlot sp i) (i + 1) = sp := by
  rw [popSlot, pushSlot]
  exact UInt32.sub_add_cancel sp _

namespace Memory

variable {m n : Memory} {addr v sp : UInt32}

/-- Where an address is four below another and its word lies in the memory, the other is four
above. -/
theorem toNat_sub_four (h : m.Fits (addr - 4) 4) : (addr - 4).toNat + 4 = addr.toNat := by
  -- from an address below four the difference would lie past the end of every memory
  have hend : (addr - 4).toNat + 4 ≤ m.size := h
  have hsize : m.size < 4294967296 := m.size_lt
  have hlt := addr.toNat_lt
  rw [UInt32.toNat_sub] at hend ⊢
  simp only [UInt32.reduceToNat, Nat.reducePow] at hend hlt ⊢
  omega

/-- Slots that lie in the memory are one that does and others below it. -/
theorem fits_pushSlot_succ {k : Nat} (h : ∀ i < k + 1, m.Fits (pushSlot sp i) 4) :
    m.Fits (sp - 4) 4 ∧ ∀ i < k, m.Fits (pushSlot (sp - 4) i) 4 := by
  refine ⟨?_, fun i hi => ?_⟩
  · rw [← pushSlot_zero]
    exact h 0 (Nat.succ_pos k)
  · rw [pushSlot_sub]
    exact h (i + 1) (Nat.succ_lt_succ hi)

/-- **Slots do not wrap around.**  Counting down from the stack pointer through slots that lie in
the memory does not pass address zero. -/
theorem toNat_pushSlot {k j : Nat} (h : ∀ i < k, m.Fits (pushSlot sp i) 4) (hj : j < k) :
    (pushSlot sp j).toNat + 4 * (j + 1) = sp.toNat := by
  induction k generalizing sp j with
  | zero => exact absurd hj (Nat.not_lt_zero j)
  | succ k ih =>
    obtain ⟨hfirst, hrest⟩ := fits_pushSlot_succ h
    have hsp := toNat_sub_four hfirst
    cases j with
    | zero =>
      rw [pushSlot_zero]
      exact hsp
    | succ j =>
      have hslot := ih hrest (Nat.lt_of_succ_lt_succ hj)
      rw [pushSlot_sub] at hslot
      omega

/-! ## What stands in a slot -/

/-- Pushing changes nothing but the words right below the stack pointer. -/
theorem byteAt_pushed {vs : List UInt32} (h : ∀ i < vs.length, m.Fits (pushSlot sp i) 4) {pos : Nat}
    (hpos : ¬ (sp.toNat ≤ pos + 4 * vs.length ∧ pos < sp.toNat)) :
    (m.pushed sp vs).byteAt pos = m.byteAt pos := by
  induction vs generalizing m sp with
  | nil => rfl
  | cons v vs ih =>
    obtain ⟨hfirst, hrest⟩ := fits_pushSlot_succ h
    have hsp := toNat_sub_four hfirst
    have hrest : ∀ i < vs.length, (m.put .long (sp - 4) v).Fits (pushSlot (sp - 4) i) 4 :=
      fun i hi => (fits_congr (size_put ..)).mpr (hrest i hi)
    rw [List.length_cons] at hpos
    rw [pushed, ih hrest (by omega), byteAt_put (w := .long) hfirst, if_neg]
    rw [Width.bytes]
    omega

/-- **What was pushed stands in its slot.** -/
theorem valueAt_pushed {vs : List UInt32} (h : ∀ i < vs.length, m.Fits (pushSlot sp i) 4) {j : Nat}
    (hj : vs[j]? = some v) : (m.pushed sp vs).valueAt .long (pushSlot sp j) = v := by
  induction vs generalizing m sp j with
  | nil => cases hj
  | cons u vs ih =>
    obtain ⟨hfirst, hrest⟩ := fits_pushSlot_succ h
    have hrest : ∀ i < vs.length, (m.put .long (sp - 4) u).Fits (pushSlot (sp - 4) i) 4 :=
      fun i hi => (fits_congr (size_put ..)).mpr (hrest i hi)
    cases j with
    | zero =>
      -- the words that follow lie below
      obtain rfl : u = v := Option.some.inj hj
      rw [pushSlot_zero, pushed,
        valueAt_congr fun i _ => byteAt_pushed hrest (by omega)]
      exact (valueAt_put (w := .long) hfirst).trans (Width.truncate_long u)
    | succ j =>
      rw [← pushSlot_sub, pushed]
      exact ih hrest hj

end Memory

/-! ## Entering a call -/

namespace Machine

variable {τ : Type} {m c d : Machine Memory τ} {p : Progress}

/-- **`m.Entered c`** — `c` is at the entry of what `m` has called, with the frame of the call where
the stack pointer of `m` was. -/
structure Entered (m c : Machine Memory τ) : Prop where
  /-- The slots of the frame lie one below the other, and none of them wraps around. -/
  slots : ∀ j < 3, (pushSlot m.registers.sp j).toNat + 4 * (j + 1) = m.registers.sp.toNat
  sp_le_size : m.registers.sp.toNat ≤ m.bus.size
  size : c.bus.size = m.bus.size
  fp : c.registers.fp = pushSlot m.registers.sp 2
  zero : c.bus.valueAt .long (pushSlot m.registers.sp 0) = 0
  back : c.bus.valueAt .long (pushSlot m.registers.sp 1) = m.followingAddress
  caller : c.bus.valueAt .long (pushSlot m.registers.sp 2) = m.registers.fp

/-- The frame pointer of a machine that has called is where its stack pointer then was. -/
theorem entered_fp (m : Machine Memory τ) (target : UInt32) :
    (m.entered target).registers.fp = pushSlot m.registers.sp 2 := by
  have hsp : (m.pushed m.frame).registers.sp = pushSlot m.registers.sp 2 :=
    (Registers.get_set ..).trans (if_pos rfl)
  exact (Registers.get_set ..).trans ((if_pos rfl).trans hsp)

variable [Observer τ]

/-- A call that completes calls an address. -/
theorem exists_calls_of_step_ok (hrunning : m.registers.halted = false)
    (hop : m.nextInstruction.opcode = some .jsr ∨ m.nextInstruction.opcode = some .jsra)
    (h : Action.step m = .ok p c) : ∃ target, m.Calls target := by
  obtain ⟨hword, op, k, hop', hperform, -⟩ := Action.exists_of_step_ok hrunning h
  rcases hop with hop | hop
  · exact ⟨_, .jsr hword hop⟩
  · by_cases hoperand : m.bus.Fits (m.registers.ipAddress + 2) 4
    · exact ⟨_, .jsra hword hop hoperand⟩
    · cases hop.symm.trans hop'
      rw [Action.perform_of_operand_error rfl (Action.operand_pastWord_of_not_fits hoperand)]
        at hperform
      cases hperform

/-- A call that completes has gone through all of its slots. -/
theorem exists_entered_of_step_ok (hrunning : m.registers.halted = false)
    (hop : m.nextInstruction.opcode = some .jsr ∨ m.nextInstruction.opcode = some .jsra)
    (h : Action.step m = .ok p c) :
    ∃ target k, m.SameButIp k ∧ k.registers.ipAddress = m.followingAddress ∧
      (∀ j < 3, m.bus.Fits (pushSlot m.registers.sp j) 4) ∧
      Action.conclude p (k.entered target) = .ok p c := by
  obtain ⟨target, hcalls⟩ := exists_calls_of_step_ok hrunning hop h
  obtain ⟨op, k, hop', -, hcall, hk, haddress⟩ := hcalls.exists_perform
  obtain ⟨-, op', n, hop'', hperform, -, hconclude⟩ := Action.exists_of_step_ok hrunning h
  cases hop'.symm.trans hop''
  rw [hcall] at hperform
  refine ⟨target, k, hk, haddress, ?_⟩
  by_cases heven : target % 2 = 0
  · have hsp : k.registers.sp = m.registers.sp := hk.get .sp
    have hrow := Action.row_call heven k
    rw [hperform, hk.bus, hsp] at hrow
    cases hrow with
    | done hfits => exact ⟨hfits, hconclude⟩
  · rw [Action.call_of_odd heven] at hperform
    cases hperform

/-- **A call that completes has made its frame.** -/
theorem entered_of_step_ok (hrunning : m.registers.halted = false)
    (hop : m.nextInstruction.opcode = some .jsr ∨ m.nextInstruction.opcode = some .jsra)
    (h : Action.step m = .ok p c) : m.Entered c := by
  obtain ⟨target, k, hk, haddress, hfits, hconclude⟩ := exists_entered_of_step_ok hrunning hop h
  cases hconclude
  have hsp : k.registers.sp = m.registers.sp := hk.get .sp
  have hfp : k.registers.fp = m.registers.fp := hk.get .fp
  have hbus : (k.entered target).bus =
      m.bus.pushed m.registers.sp [0, m.followingAddress, m.registers.fp] := by
    rw [← haddress, ← hk.bus, ← hsp, ← hfp]
    rfl
  have hword : ∀ j v, [0, m.followingAddress, m.registers.fp][j]? = some v →
      (k.entered target).bus.valueAt .long (pushSlot m.registers.sp j) = v := by
    intro j v hj
    have hall : ∀ i < [0, m.followingAddress, m.registers.fp].length,
        m.bus.Fits (pushSlot m.registers.sp i) 4 := hfits
    rw [hbus, Memory.valueAt_pushed hall hj]
  have hslots : ∀ j < 3, (pushSlot m.registers.sp j).toNat + 4 * (j + 1) = m.registers.sp.toNat :=
    fun j hj => Memory.toNat_pushSlot hfits hj
  constructor
  · exact hslots
  · have hend : (pushSlot m.registers.sp 0).toNat + 4 ≤ m.bus.size := hfits 0 (by decide)
    have hslot := hslots 0 (by decide)
    omega
  · show (k.entered target).bus.size = _
    rw [hbus, Memory.size_pushed]
  · exact (k.entered_fp target).trans (congrArg (pushSlot · 2) hsp)
  · exact hword 0 _ rfl
  · exact hword 1 _ rfl
  · exact hword 2 _ rfl

namespace Entered

variable {j : Nat}

omit [Observer τ]

/-- The slots of the frame, seen from the frame pointer. -/
theorem popSlot_eq (h : m.Entered c) (hj : j < 3) :
    popSlot c.registers.fp j = pushSlot m.registers.sp (2 - j) := by
  have hsum : j + (2 - j) = 2 := by omega
  rw [h.fp, ← popSlot_pushSlot m.registers.sp j (2 - j), hsum]

/-- The frame is twelve bytes in a row. -/
theorem toNat_popSlot (h : m.Entered c) (hj : j < 3) :
    (popSlot c.registers.fp j).toNat = c.registers.fp.toNat + 4 * j := by
  have hlow := h.slots 2 (by decide)
  have hslot := h.slots (2 - j) (by omega)
  rw [h.popSlot_eq hj, h.fp]
  omega

theorem fits (h : m.Entered c) (hj : j < 3) : c.bus.Fits (popSlot c.registers.fp j) 4 := by
  have hslot := h.slots (2 - j) (by omega)
  have hle := h.sp_le_size
  rw [Memory.Fits, h.popSlot_eq hj, h.size]
  omega

end Entered

/-! ## Returning -/

omit [Observer τ] in
/-- Instructions follow each other at even addresses. -/
theorem followingAddress_even (m : Machine Memory τ) :
    m.followingAddress / 2 * 2 = m.followingAddress := by
  have heven : m.followingAddress.toNat % 2 = 0 := by
    have hip : m.registers.ipAddress.toNat = m.registers.ip.toNat * 2 % 4294967296 :=
      UInt32.toNat_mul ..
    unfold followingAddress
    split
    · rw [UInt32.toNat_add, hip]
      simp only [UInt32.reduceToNat, Nat.reducePow]
      omega
    · rw [UInt32.toNat_add, UInt32.toNat_add, UInt32.toNat_ofNat', hip]
      simp only [UInt32.reduceToNat, Nat.reducePow]
      omega
  exact half_doubled (UInt32.toNat_inj.mp heven)

/-- **A return through a frame that lies in the memory completes**, and has unwound it. -/
theorem step_of_returns (hrunning : d.registers.halted = false) (hret : d.Returns)
    (hfits : ∀ j < 3, d.bus.Fits (popSlot d.registers.fp j) 4) :
    Action.step d = .ok .running { d.pastWord.unwound 3 with completed := d.completed + 1 } := by
  have hrow : Action.Row d.bus (popSlot d.registers.fp) 3 d.pastWord.unwound
      (Action.ret d.pastWord) :=
    Action.row_ret d.pastWord
  have hdone : Action.ret d.pastWord = .ok () (d.pastWord.unwound 3) := by
    cases hr : Action.ret d.pastWord with
    | ok a n =>
      rw [hr] at hrow
      cases hrow with
      | done => rfl
    | error f n =>
      rw [hr] at hrow
      cases hrow with
      | stopped hj hstops => exact absurd (hfits _ hj) hstops.not_fits
  have hexecute : Action.execute d.nextInstruction d.registers.ipAddress d.pastWord =
      .ok .running (d.pastWord.unwound 3) := by
    rw [Action.execute, hret.hop]
    exact Action.bind_of_ok hdone
  rw [Action.step_of_fits hrunning hret.hword, Action.bind_of_ok hexecute]
  rfl

/-- **`m.Resumes d r`** — `r` goes on behind the call of `m`, with the stack of `m`, and is
otherwise as `d`. -/
structure Resumes (m d r : Machine Memory τ) : Prop where
  sp : r.registers.sp = m.registers.sp
  fp : r.registers.fp = m.registers.fp
  ipAddress : r.registers.ipAddress = m.followingAddress
  general : ∀ q, q ≠ .sp → q ≠ .fp → r.registers.get q = d.registers.get q
  special : r.registers.special = d.registers.special
  comparison : r.registers.comparison = d.registers.comparison
  halted : r.registers.halted = d.registers.halted
  bus : r.bus = d.bus

/-- **A return undoes the call whose frame it finds.** -/
theorem Entered.resumes (h : m.Entered c) (hrunning : d.registers.halted = false) (hret : d.Returns)
    (hsize : d.bus.size = c.bus.size) (hfp : d.registers.fp = c.registers.fp)
    (hframe : ∀ i < 12,
      d.bus.byteAt (c.registers.fp.toNat + i) = c.bus.byteAt (c.registers.fp.toNat + i)) :
    ∃ r, Action.step d = .ok .running r ∧ m.Resumes d r := by
  have hfits : ∀ j < 3, d.bus.Fits (popSlot d.registers.fp j) 4 := by
    intro j hj
    rw [hfp, Memory.fits_congr hsize]
    exact h.fits hj
  -- the words that are popped are those that were pushed
  have hword : ∀ j < 3, d.bus.valueAt .long (popSlot d.registers.fp j) =
      c.bus.valueAt .long (pushSlot m.registers.sp (2 - j)) := by
    intro j hj
    rw [hfp, ← h.popSlot_eq hj]
    refine Memory.valueAt_congr fun i hi => ?_
    have hi4 : i < 4 := hi
    rw [h.toNat_popSlot hj, Nat.add_assoc]
    exact hframe (4 * j + i) (by omega)
  refine ⟨_, step_of_returns hrunning hret hfits, ?_⟩
  have hpast : d.pastWord.registers.fp = d.registers.fp := rfl
  constructor
  · show (d.pastWord.unwound 3).registers.sp = _
    rw [unwound_sp, hpast, hfp, h.fp]
    exact popSlot_succ_pushSlot m.registers.sp 2
  · show (d.pastWord.unwound 3).registers.fp = _
    rw [unwound_fp, if_neg (by decide), ← h.caller, ← hword 0 (by decide), popSlot_zero]
    rfl
  · show (d.pastWord.unwound 3).registers.ip * 2 = _
    rw [unwound_ip, if_neg (by decide)]
    show d.bus.valueAt .long (popSlot d.registers.fp 1) / 2 * 2 = _
    rw [hword 1 (by decide), h.back, followingAddress_even]
  · exact fun q hsp hfp => unwound_get d.pastWord 3 hsp hfp
  · exact unwound_registers (fun _ _ _ _ => rfl) (fun _ _ => rfl) d.pastWord 3
  · exact unwound_registers (fun _ _ _ _ => rfl) (fun _ _ => rfl) d.pastWord 3
  · exact unwound_registers (fun _ _ _ _ => rfl) (fun _ _ => rfl) d.pastWord 3
  · exact unwound_bus d.pastWord 3

/-- No run changes the size of a memory. -/
theorem size_after (m : Machine Memory τ) (k : Nat) : (m.after k).bus.size = m.bus.size := by
  refine invariant_after (I := fun b : Memory => b.size = m.bus.size) (fun h _ _ => h) ?_ rfl k
  intro b h w addr v
  by_cases hfits : b.Fits addr w.bytes
  · rw [Memory.bus_write_of_fits hfits]
    exact (Memory.size_put ..).trans h
  · rw [Memory.bus_write_of_not_fits hfits]
    exact h

/-- **Calls and returns.**  A call that completes puts its frame into three slots that lie apart
below the stack pointer, without wrapping around.  However far the machine then runs, once it comes
to a return with the frame pointer and the bytes of the frame as the call left them, that return
completes and the machine goes on behind the call, with the stack and frame pointers it had
there. -/
theorem ret_undoes_call (hrunning : m.registers.halted = false)
    (hop : m.nextInstruction.opcode = some .jsr ∨ m.nextInstruction.opcode = some .jsra)
    (hcall : Action.step m = .ok p c) :
    m.Entered c ∧
      ∀ k, (c.after k).registers.halted = false → (c.after k).Returns →
        (c.after k).registers.fp = c.registers.fp →
        (∀ i < 12, (c.after k).bus.byteAt (c.registers.fp.toNat + i) =
          c.bus.byteAt (c.registers.fp.toNat + i)) →
        ∃ r, Action.step (c.after k) = .ok .running r ∧ m.Resumes (c.after k) r := by
  have hentered := entered_of_step_ok hrunning hop hcall
  refine ⟨hentered, ?_⟩
  intro k hreturning hret hfp hframe
  exact hentered.resumes hreturning hret (c.size_after k) hfp hframe

/-- A machine over twenty-four bytes that calls the address in its stack pointer, where the stack
pointer is moved to an odd address before the return. -/
def excursion : Machine Memory Unit where
  registers := Registers.initial.set .sp 20
  bus := ⟨⟨#[], #[0x10, 0x19, 0, 0, 0, 0, 0, 0, 0, 0, 0, 0, 0, 0, 0, 0, 0, 0, 0, 0, 0x03, 0x91,
      0x00, 0x04], by decide⟩, by decide, by decide, by decide⟩
  observer := ()
  completed := 0

/-- The call leaves the stack pointer at 8 and its callee moves it to 5; the return brings it to
20. -/
theorem excursion_returns :
    excursion.registers.halted = false ∧ excursion.nextInstruction.opcode = some .jsr ∧
      Action.step excursion = .ok .running excursion.next ∧
      (excursion.next.after 1).Returns ∧ (excursion.next.after 1).registers.sp = 5 ∧
      ∃ r, Action.step (excursion.next.after 1) = .ok .running r ∧ r.registers.sp = 20 ∧
        r.registers.ipAddress = 2 := by
  have hop : excursion.nextInstruction.opcode = some .jsr := by decide +kernel
  have hcall : Action.step excursion = .ok .running excursion.next := by rfl
  have hret : (excursion.next.after 1).Returns := ⟨by decide +kernel, by decide +kernel⟩
  obtain ⟨-, hreturn⟩ := ret_undoes_call rfl (.inl hop) hcall
  obtain ⟨r, hstep, hresumes⟩ :=
    hreturn 1 (by decide +kernel) hret (by decide +kernel) (by decide +kernel)
  refine ⟨rfl, hop, hcall, hret, by decide +kernel, r, hstep, hresumes.sp, ?_⟩
  rw [hresumes.ipAddress]
  decide +kernel

end Machine

end Moxie
