/-
# Moxie.Proofs.Machine.Stack — pushes, pops, calls and returns on bare memory.

The stack is described by its slots.  Words are pushed into `pushSlot sp 0`, `pushSlot sp 1` and so
on downwards, and popped from `popSlot sp 0`, `popSlot sp 1` and so on upwards.  A row of accesses
goes well until the first slot that lies outside the memory (`Memory.StopsAt`), and what was done up
to there stays done.  `Action.Row` says so of any such row; a call is a row of three pushes and a
return one of three pops, so `Machine.pushed` and `Machine.unwound` say what each leaves behind at
every point.
-/
import Moxie.Proofs.Machine.Bare

namespace Moxie

/-! ## Slots of the stack -/

/-- Where the word after `i` others is pushed by a stack pointer `sp`. -/
def pushSlot (sp : UInt32) (i : Nat) : UInt32 :=
  sp - UInt32.ofNat (4 * (i + 1))

/-- Where the word after `i` others is popped by a stack pointer `sp`. -/
def popSlot (sp : UInt32) (i : Nat) : UInt32 :=
  sp + UInt32.ofNat (4 * i)

theorem pushSlot_zero (sp : UInt32) : pushSlot sp 0 = sp - 4 := rfl

theorem pushSlot_sub (sp : UInt32) (i : Nat) : pushSlot (sp - 4) i = pushSlot sp (i + 1) := by
  rw [pushSlot, pushSlot, Nat.mul_add 4 (i + 1), UInt32.ofNat_add]
  show sp - 4 - UInt32.ofNat (4 * (i + 1)) = sp - (UInt32.ofNat (4 * (i + 1)) + 4)
  grind

theorem popSlot_zero (sp : UInt32) : popSlot sp 0 = sp :=
  UInt32.add_zero sp

theorem popSlot_succ (sp : UInt32) (i : Nat) : popSlot sp i + 4 = popSlot sp (i + 1) := by
  rw [popSlot, popSlot, Nat.mul_add 4 i, UInt32.ofNat_add]
  show sp + UInt32.ofNat (4 * i) + 4 = sp + (UInt32.ofNat (4 * i) + 4)
  grind

/-! ## Rows of words in memory -/

namespace Memory

/-- **`m.StopsAt slot j`** — of the words at `slot 0`, `slot 1` and so on the one at `slot j` is the
first that does not lie in the memory. -/
structure StopsAt (m : Memory) (slot : Nat → UInt32) (j : Nat) : Prop where
  fits : ∀ i < j, m.Fits (slot i) 4
  not_fits : ¬ m.Fits (slot j) 4

theorem StopsAt.congr {m n : Memory} (h : n.size = m.size) {slot : Nat → UInt32} {j : Nat}
    (hn : n.StopsAt slot j) : m.StopsAt slot j :=
  ⟨fun i hi => (fits_congr h).mp (hn.fits i hi), fun hj => hn.not_fits ((fits_congr h).mpr hj)⟩

/-- The memory after the words `vs` were pushed by a stack pointer `sp`, the first one first. -/
def pushed (m : Memory) (sp : UInt32) : List UInt32 → Memory
  | [] => m
  | v :: vs => (m.put .long (sp - 4) v).pushed (sp - 4) vs

@[simp]
theorem size_pushed (m : Memory) (sp : UInt32) (vs : List UInt32) :
    (m.pushed sp vs).size = m.size := by
  induction vs generalizing m sp with
  | nil => rfl
  | cons v vs ih => rw [pushed, ih, size_put]

end Memory

/-! ## What is left of a machine -/

namespace Machine

variable {τ : Type}

/-- **`m.pushed vs`** — the machine after `m` has pushed the words `vs`, the first one first. -/
def pushed (m : Machine Memory τ) (vs : List UInt32) : Machine Memory τ :=
  ⟨m.registers.set .sp (m.registers.sp - UInt32.ofNat (4 * vs.length)),
    m.bus.pushed m.registers.sp vs, m.observer, m.completed⟩

theorem pushed_nil (m : Machine Memory τ) : m.pushed [] = m := by
  have hsp : m.registers.set .sp (m.registers.sp - 0) = m.registers := by
    rw [UInt32.sub_zero]
    exact m.registers.set_get .sp
  show (⟨m.registers.set .sp (m.registers.sp - 0), m.bus, m.observer, m.completed⟩ :
    Machine Memory τ) = m
  rw [hsp]

theorem pushed_cons (m : Machine Memory τ) (v : UInt32) (vs : List UInt32) :
    m.pushed (v :: vs) = (m.pushed [v]).pushed vs := by
  have hsp : (m.pushed [v]).registers.sp = m.registers.sp - 4 := by
    show (m.registers.set .sp _).get .sp = _
    rw [Registers.get_set, if_pos rfl]
    rfl
  have hslot : m.registers.sp - UInt32.ofNat (4 * (v :: vs).length) =
      m.registers.sp - 4 - UInt32.ofNat (4 * vs.length) := by
    rw [List.length_cons, Nat.mul_add 4, UInt32.ofNat_add]
    show m.registers.sp - (UInt32.ofNat (4 * vs.length) + 4) = _
    grind
  rw [pushed, hslot, pushed.eq_1 (m.pushed [v]), hsp]
  show _ = (⟨(m.registers.set .sp _).set .sp _, _, _, _⟩ : Machine Memory τ)
  rw [Registers.set_set]
  rfl

/-- The registers `s` once word `j` of a frame, `v`, has been taken in: the first one is the frame
pointer, the second the return address, and the third is dropped. -/
def takeIn (s : Registers) (v : UInt32) (j : Nat) : Registers :=
  match j with
  | 0 => s.set .fp v
  | 1 => { s with ip := v / 2 }
  | _ => s

/-- **`m.unwound j`** — the machine after `m` has popped `j` of the three words of its frame. -/
def unwound (m : Machine Memory τ) : Nat → Machine Memory τ
  | 0 => m.withRegisters (m.registers.set .sp m.registers.fp)
  | j + 1 =>
    (m.unwound j).withRegisters
      (takeIn ((m.unwound j).registers.set .sp (popSlot m.registers.fp (j + 1)))
        (m.bus.valueAt .long (popSlot m.registers.fp j)) j)

/-- What a frame's words are no business of, unwinding leaves alone. -/
theorem unwound_registers {ι : Type} {f : Registers → ι}
    (hset : ∀ s r v, r = .sp ∨ r = .fp → f (s.set r v) = f s)
    (hgoto : ∀ s ip, f { s with ip } = f s) (m : Machine Memory τ) (j : Nat) :
    f (m.unwound j).registers = f m.registers := by
  have htake : ∀ s v j, f (takeIn s v j) = f s := by
    intro s v j
    match j with
    | 0 => exact hset s .fp v (.inr rfl)
    | 1 => exact hgoto s _
    | _ + 2 => rfl
  induction j with
  | zero => exact hset _ .sp _ (.inl rfl)
  | succ j ih => exact (htake _ _ j).trans ((hset _ .sp _ (.inl rfl)).trans ih)

theorem unwound_get (m : Machine Memory τ) (j : Nat) {r : Register} (hsp : r ≠ .sp)
    (hfp : r ≠ .fp) : (m.unwound j).registers.get r = m.registers.get r := by
  refine unwound_registers (f := (·.get r)) (fun s q v hq => ?_) (fun _ _ => rfl) m j
  rw [Registers.get_set, if_neg]
  rintro rfl
  exact hq.elim hsp hfp

theorem unwound_bus (m : Machine Memory τ) (j : Nat) : (m.unwound j).bus = m.bus := by
  induction j with
  | zero => rfl
  | succ j ih => exact ih

theorem unwound_completed (m : Machine Memory τ) (j : Nat) :
    (m.unwound j).completed = m.completed := by
  induction j with
  | zero => rfl
  | succ j ih => exact ih

theorem unwound_sp (m : Machine Memory τ) (j : Nat) :
    (m.unwound j).registers.sp = popSlot m.registers.fp j := by
  have htake : ∀ s v j, (takeIn s v j).sp = s.sp := by
    intro s v j
    match j with
    | 0 => exact (Registers.get_set ..).trans (if_neg (by decide))
    | 1 => rfl
    | _ + 2 => rfl
  cases j with
  | zero => rw [popSlot_zero]; exact (Registers.get_set ..).trans (if_pos rfl)
  | succ j => exact (htake _ _ j).trans ((Registers.get_set ..).trans (if_pos rfl))

/-- From the first word on the frame pointer is the one in the frame. -/
theorem unwound_fp (m : Machine Memory τ) (j : Nat) :
    (m.unwound j).registers.fp =
      if j = 0 then m.registers.fp else m.bus.valueAt .long m.registers.fp := by
  have hset : ∀ (s : Registers) v, (s.set .sp v).fp = s.fp := fun s v =>
    (Registers.get_set ..).trans (if_neg (by decide))
  induction j with
  | zero => exact hset _ _
  | succ j ih =>
    rw [if_neg (Nat.succ_ne_zero j)]
    match j with
    | 0 =>
      rw [← popSlot_zero m.registers.fp]
      exact (Registers.get_set ..).trans (if_pos rfl)
    | 1 => exact (hset _ _).trans ih
    | _ + 2 => exact (hset _ _).trans ih

/-- From the second word on the machine is at the return address. -/
theorem unwound_ip (m : Machine Memory τ) (j : Nat) :
    (m.unwound j).registers.ip =
      if j < 2 then m.registers.ip else m.bus.valueAt .long (popSlot m.registers.fp 1) / 2 := by
  induction j with
  | zero => rfl
  | succ j ih =>
    match j with
    | 0 => rfl
    | 1 => rfl
    | _ + 2 => exact ih

end Machine

/-! ## Single words -/

namespace Action

variable {τ : Type} [Observer τ] {m : Machine Memory τ} {v : UInt32}

theorem push_of_fits (h : m.bus.Fits (pushSlot m.registers.sp 0) 4) :
    push v m = .ok () (m.pushed [v]) :=
  (bind_of_ok rfl).trans (bind_of_ok (writeBus_of_fits (w := .long) h))

theorem push_of_not_fits (h : ¬ m.bus.Fits (pushSlot m.registers.sp 0) 4) :
    push v m = .error (m.bus.miss (pushSlot m.registers.sp 0) 4) m :=
  (bind_of_ok rfl).trans (bind_of_error (writeBus_of_not_fits (w := .long) h))

theorem pop_of_fits (h : m.bus.Fits m.registers.sp 4) :
    pop m = .ok (m.bus.valueAt .long m.registers.sp)
      (m.withRegisters (m.registers.set .sp (m.registers.sp + 4))) :=
  (bind_of_ok rfl).trans (bind_of_ok (readBus_of_fits (w := .long) h))

theorem pop_of_not_fits (h : ¬ m.bus.Fits m.registers.sp 4) :
    pop m = .error (m.bus.miss m.registers.sp 4) m :=
  (bind_of_ok rfl).trans (bind_of_error (readBus_of_not_fits (w := .long) h))

/-! ## Rows of accesses -/

/-- **`Row mem slot n left r`** — `r` is how a row of `n` word accesses to `slot 0`, `slot 1` and so
on ends over a memory of the size of `mem`, where `left j` is left after `j` of them. -/
inductive Row (mem : Memory) (slot : Nat → UInt32) (n : Nat) (left : Nat → Machine Memory τ) :
    EStateM.Result Fault (Machine Memory τ) Unit → Prop where
  | done (h : ∀ i < n, mem.Fits (slot i) 4) : Row mem slot n left (.ok () (left n))
  | stopped {j : Nat} (hj : j < n) (h : mem.StopsAt slot j) :
      Row mem slot n left (.error (mem.miss (slot j) 4) (left j))

namespace Row

variable {mem : Memory} {slot : Nat → UInt32} {n : Nat} {left : Nat → Machine Memory τ}
  {r : EStateM.Result Fault (Machine Memory τ) Unit}

omit [Observer τ]

/-- Nothing is accessed. -/
theorem nil : Row mem slot 0 left (.ok () (left 0)) :=
  .done fun i hi => absurd hi (Nat.not_lt_zero i)

/-- The first access fails. -/
theorem head (h : ¬ mem.Fits (slot 0) 4) :
    Row mem slot (n + 1) left (.error (mem.miss (slot 0) 4) (left 0)) :=
  .stopped (Nat.succ_pos n) ⟨fun i hi => absurd hi (Nat.not_lt_zero i), h⟩

/-- The first access succeeds, and the others follow. -/
theorem cons (hfirst : mem.Fits (slot 0) 4)
    (h : Row mem (fun i => slot (i + 1)) n (fun j => left (j + 1)) r) :
    Row mem slot (n + 1) left r := by
  have hfits : ∀ k, (∀ i < k, mem.Fits (slot (i + 1)) 4) → ∀ i < k + 1, mem.Fits (slot i) 4 := by
    intro k hk i hi
    cases i with
    | zero => exact hfirst
    | succ i => exact hk i (Nat.lt_of_succ_lt_succ hi)
  cases h with
  | done h => exact .done (hfits n h)
  | stopped hj h => exact .stopped (Nat.succ_lt_succ hj) ⟨hfits _ h.fits, h.not_fits⟩

theorem congr {mem' : Memory} (hsize : mem'.size = mem.size) (h : Row mem' slot n left r) :
    Row mem slot n left r := by
  cases h with
  | done h => exact .done fun i hi => (Memory.fits_congr hsize).mp (h i hi)
  | stopped hj h =>
    rw [Memory.miss, hsize]
    exact .stopped hj (h.congr hsize)

end Row

/-- Push some words, the first one first. -/
def pushAll : List UInt32 → Action Memory τ Unit
  | [] => return ()
  | v :: vs => do
    push v
    pushAll vs

/-- **Pushing a row of words.** -/
theorem row_pushAll (m : Machine Memory τ) (vs : List UInt32) :
    Row m.bus (pushSlot m.registers.sp) vs.length (fun j => m.pushed (vs.take j))
      (pushAll vs m) := by
  induction vs generalizing m with
  | nil =>
    have h : pushAll [] m = .ok () (m.pushed []) := congrArg _ m.pushed_nil.symm
    rw [h]
    exact .nil
  | cons v vs ih =>
    by_cases hfirst : m.bus.Fits (pushSlot m.registers.sp 0) 4
    · -- the rest is a row of the machine that has pushed the first word
      have hsp : (m.pushed [v]).registers.sp = m.registers.sp - 4 :=
        (Registers.get_set ..).trans (if_pos rfl)
      have hleft : (fun j => (m.pushed [v]).pushed (vs.take j)) =
          fun j => m.pushed ((v :: vs).take (j + 1)) :=
        funext fun j => (m.pushed_cons v _).symm
      have hrest := ih (m.pushed [v])
      rw [hsp, funext (pushSlot_sub _), hleft] at hrest
      rw [pushAll, bind_of_ok (push_of_fits hfirst)]
      exact .cons hfirst (hrest.congr (Memory.size_pushed ..))
    · have h : pushAll (v :: vs) m =
          .error (m.bus.miss (pushSlot m.registers.sp 0) 4) (m.pushed []) := by
        rw [pushAll, bind_of_error (push_of_not_fits hfirst), m.pushed_nil]
      rw [h]
      exact .head hfirst

/-- One word of a frame is popped. -/
theorem pop_unwound (m : Machine Memory τ) {j : Nat}
    (h : m.bus.Fits (popSlot m.registers.fp j) 4) :
    pop (m.unwound j) = .ok (m.bus.valueAt .long (popSlot m.registers.fp j))
      ((m.unwound j).withRegisters
        ((m.unwound j).registers.set .sp (popSlot m.registers.fp (j + 1)))) := by
  rw [← m.unwound_sp j, ← m.unwound_bus j] at h
  rw [pop_of_fits h, m.unwound_sp, m.unwound_bus, popSlot_succ]

theorem pop_unwound_of_not_fits (m : Machine Memory τ) {j : Nat}
    (h : ¬ m.bus.Fits (popSlot m.registers.fp j) 4) :
    pop (m.unwound j) = .error (m.bus.miss (popSlot m.registers.fp j) 4) (m.unwound j) := by
  rw [← m.unwound_sp j, ← m.unwound_bus j] at h
  rw [pop_of_not_fits h, m.unwound_sp, m.unwound_bus]

/-- **Unwinding a frame.** -/
theorem row_ret (m : Machine Memory τ) :
    Row m.bus (popSlot m.registers.fp) 3 m.unwound (ret m) := by
  -- pop by pop, each on the machine that is left by those before it
  show Row _ _ _ _ ((pop >>= fun fp => _) (m.unwound 0))
  by_cases h0 : m.bus.Fits (popSlot m.registers.fp 0) 4
  · refine .cons h0 ?_
    rw [bind_of_ok (pop_unwound m h0)]
    show Row _ _ _ _ ((pop >>= fun address => _) (m.unwound 1))
    by_cases h1 : m.bus.Fits (popSlot m.registers.fp 1) 4
    · refine .cons h1 ?_
      rw [bind_of_ok (pop_unwound m h1)]
      show Row _ _ _ _ ((pop >>= fun _ => _) (m.unwound 2))
      by_cases h2 : m.bus.Fits (popSlot m.registers.fp 2) 4
      · refine .cons h2 ?_
        rw [bind_of_ok (pop_unwound m h2)]
        exact .nil
      · rw [bind_of_error (pop_unwound_of_not_fits m h2)]
        exact .head h2
    · rw [bind_of_error (pop_unwound_of_not_fits m h1)]
      exact .head h1
  · rw [bind_of_error (pop_unwound_of_not_fits m h0)]
    exact .head h0

/-! ## Calls -/

end Action

namespace Machine

variable {τ : Type}

/-- **`m.frame`** — the three words that a call pushes, the first one first. -/
def frame (m : Machine Memory τ) : List UInt32 :=
  [0, m.registers.ipAddress, m.registers.fp]

/-- **`m.entered target`** — the machine after `m` has called `target`. -/
def entered (m : Machine Memory τ) (target : UInt32) : Machine Memory τ :=
  let n := m.pushed m.frame
  n.withRegisters { n.registers.set .fp n.registers.sp with ip := target / 2 }

/-- What is left of `m` when it has pushed `j` words of the frame of a call. -/
def calling (m : Machine Memory τ) (target : UInt32) (j : Nat) : Machine Memory τ :=
  if j < 3 then m.pushed (m.frame.take j) else m.entered target

theorem calling_of_lt (m : Machine Memory τ) (target : UInt32) {j : Nat} (h : j < 3) :
    m.calling target j = m.pushed (m.frame.take j) :=
  if_pos h

end Machine

namespace Action

variable {τ : Type} [Observer τ]

/-- A call of an odd address pushes nothing. -/
theorem call_of_odd {target : UInt32} (h : target % 2 ≠ 0) (m : Machine Memory τ) :
    call target m = .error (.unalignedJump target) m := by
  refine bind_of_error ?_
  rw [requireAligned, if_neg h]
  rfl

/-- **Calling an even address.** -/
theorem row_call {target : UInt32} (h : target % 2 = 0) (m : Machine Memory τ) :
    Row m.bus (pushSlot m.registers.sp) 3 (m.calling target) (call target m) := by
  have hcall : call target m = (pushAll m.frame >>= fun _ => do
      let s ← registers
      setRegister .fp s.sp
      goto target) m := by
    have haligned : requireAligned target m = .ok () m := by
      rw [requireAligned, if_pos h]
      rfl
    refine (bind_of_ok haligned).trans ?_
    simp only [pushAll, Machine.frame, bind_assoc, pure_bind]
    rfl
  have hrow := row_pushAll m m.frame
  rw [hcall]
  cases hpush : pushAll m.frame m with
  | ok a n =>
    rw [hpush] at hrow
    rw [bind_of_ok hpush]
    cases hrow with
    | done hfits =>
      show Row m.bus _ 3 (m.calling target) (.ok () (m.calling target 3))
      exact .done hfits
  | error e n =>
    rw [hpush] at hrow
    rw [bind_of_error hpush]
    cases hrow with
    | stopped hj hstops =>
      rw [← m.calling_of_lt target hj]
      exact .stopped hj hstops

end Action

/-! ## Instructions that call and return -/

namespace Machine

variable {τ : Type} {m : Machine Memory τ}

/-- **`m.Calls target`** — the next instruction can be fetched, with its operand, and calls
`target`.
-/
inductive Calls (m : Machine Memory τ) : UInt32 → Prop where
  | jsr (hword : m.bus.Fits m.registers.ipAddress 2)
      (hop : m.nextInstruction.opcode = some .jsr) :
      Calls m (m.registers.get m.nextInstruction.a)
  | jsra (hword : m.bus.Fits m.registers.ipAddress 2)
      (hop : m.nextInstruction.opcode = some .jsra)
      (hoperand : m.bus.Fits (m.registers.ipAddress + 2) 4) : Calls m m.inlineOperand

/-- **`m.Returns`** — the next instruction can be fetched and is a return. -/
structure Returns (m : Machine Memory τ) : Prop where
  hword : m.bus.Fits m.registers.ipAddress 2
  hop : m.nextInstruction.opcode = some .ret

/-- An instruction calls one address at most. -/
theorem Calls.unique {s t : UInt32} (hs : m.Calls s) (ht : m.Calls t) : s = t := by
  cases hs with
  | jsr _ hop =>
    cases ht with
    | jsr => rfl
    | jsra _ hop' => simp [hop] at hop'
  | jsra _ hop =>
    cases ht with
    | jsr _ hop' => simp [hop] at hop'
    | jsra => rfl

/-- An instruction that calls does not return. -/
theorem Calls.not_returns {target : UInt32} (h : m.Calls target) : ¬ m.Returns := by
  rintro ⟨-, hret⟩
  cases h with
  | jsr _ hop => simp [hop] at hret
  | jsra _ hop => simp [hop] at hret

/-- A call begins with its word and operand fetched, at the address it will return to. -/
theorem Calls.exists_perform [Observer τ] {target : UInt32} (h : m.Calls target) :
    ∃ op k, m.nextInstruction.opcode = some op ∧ op ≠ .brk ∧
      Action.perform op m.nextInstruction m.registers.ipAddress m.pastWord = Action.call target k ∧
      m.SameButIp k ∧ k.registers.ipAddress = m.followingAddress := by
  cases h with
  | jsr hword hop =>
    refine ⟨.jsr, m.pastWord, hop, nofun, rfl, m.sameButIp_pastWord, ?_⟩
    rw [followingAddress, hop, m.ipAddress_pastWord]
    exact (UInt32.add_zero _).symm
  | jsra hword hop hoperand =>
    refine ⟨.jsra, m.pastWord.pastOperand, hop, nofun, ?_,
      m.sameButIp_pastWord.trans m.pastWord.sameButIp_pastOperand, ?_⟩
    · exact Action.bind_of_ok (Action.operand_pastWord_of_fits hoperand)
    · rw [followingAddress, hop, ← m.ipAddress_pastWord]
      exact m.pastWord.registers.ipAddress_advance 2

end Machine

end Moxie
