/-
# Moxie.Proofs.Machine.TopBit — the top bit of the instruction pointer is unobservable.

The instruction pointer counts words, and its byte address is twice the count modulo `2 ^ 32`.  So
an advance by `2 ^ 31` words comes back to the same address, and every address has two instruction
pointers.  Nothing in the machine tells them apart: instructions read the address and never the
count, and what advances both keeps them apart as they are.  That makes "the same registers, or the
same so far ahead" a register relation, and with the machine beside itself a simulation
(`Simulation.aliasing`).

The relation is not kept for ever.  A jump, a call or a return that completes sets the count from a
byte address, and what comes after it no longer knows which of the two there was before
(`Action.Settles`).  From there on the machines are one and the same.

Of the distance between the two only this is used, that it is nothing in bytes; it stays a variable
up to the last theorem.
-/
import Moxie.Proofs.Machine.Inline

namespace Moxie

/-! ## Two instruction pointers for one address -/

section Registers

variable {d : UInt32} (hd : d * 2 = 0)

include hd

theorem Registers.ipAddress_advance_of_aliasing (s : Registers) :
    (s.advance d).ipAddress = s.ipAddress := by
  show (s.ip + d) * 2 = s.ip * 2
  rw [UInt32.add_mul, hd, UInt32.add_zero]

/-- The same registers, or the same and `d` words ahead. -/
def RegisterRelation.aliasing : RegisterRelation where
  Holds s t := t = s ∨ t = s.advance d
  refl _ := .inl rfl
  get := by
    rintro s _ (rfl | rfl) r <;> rfl
  getSpecial := by
    rintro s _ (rfl | rfl) i <;> rfl
  ipAddress := by
    rintro s _ (rfl | rfl)
    · rfl
    · exact (s.ipAddress_advance_of_aliasing hd).symm
  comparison := by
    rintro s _ (rfl | rfl) <;> rfl
  halted := by
    rintro s _ (rfl | rfl) <;> rfl
  set := by
    rintro s _ (rfl | rfl) r v
    · exact .inl rfl
    · exact .inr rfl
  setSpecial := by
    rintro s _ (rfl | rfl) i v
    · exact .inl rfl
    · exact .inr rfl
  advance := by
    rintro s _ (rfl | rfl) words
    · exact .inl rfl
    · refine .inr (congrArg (fun ip => { s with ip }) ?_)
      show s.ip + d + words = s.ip + words + d
      rw [UInt32.add_assoc, UInt32.add_comm d, UInt32.add_assoc]
  goto := by
    rintro s _ (rfl | rfl) ip <;> exact .inl rfl
  compare := by
    rintro s _ (rfl | rfl) c
    · exact .inl rfl
    · exact .inr rfl
  halt := by
    rintro s _ (rfl | rfl)
    · exact .inl rfl
    · exact .inr rfl

end Registers

namespace Machine

variable {β τ : Type}

/-- **`m.ahead words`** — the same machine with its instruction pointer advanced. -/
def ahead (m : Machine β τ) (words : UInt32) : Machine β τ :=
  { m with registers := m.registers.advance words }

/-- **`m.SameUpTo words n`** — all that two machines have is the same, and so is the address of the
next instruction; but the instruction pointer of `n` may be so many words ahead. -/
structure SameUpTo (words : UInt32) (m n : Machine β τ) : Prop where
  general : n.registers.general = m.registers.general
  special : n.registers.special = m.registers.special
  comparison : n.registers.comparison = m.registers.comparison
  halted : n.registers.halted = m.registers.halted
  bus : n.bus = m.bus
  observer : n.observer = m.observer
  completed : n.completed = m.completed
  address : n.registers.ipAddress = m.registers.ipAddress
  ip : n.registers.ip = m.registers.ip ∨ n.registers.ip = m.registers.ip + words

theorem SameUpTo.of_eq {d : UInt32} (hd : d * 2 = 0) {m n : Machine β τ}
    (h : n = m ∨ n = m.ahead d) : m.SameUpTo d n := by
  rcases h with rfl | rfl
  · exact ⟨rfl, rfl, rfl, rfl, rfl, rfl, rfl, rfl, .inl rfl⟩
  · exact ⟨rfl, rfl, rfl, rfl, rfl, rfl, rfl,
      m.registers.ipAddress_advance_of_aliasing hd, .inr rfl⟩

end Machine

variable {β τ : Type} [Bus β] [Observer τ] {d : UInt32}

/-! ## The machine beside itself -/

namespace Simulation

/-- A machine beside itself, the one with either instruction pointer. -/
def aliasing (β τ : Type) [Bus β] [Observer τ] (hd : d * 2 = 0) : Simulation β τ β τ :=
  { Simulation.ofInvariant τ (fun _ : β => True) (fun _ _ _ => trivial)
      (fun _ _ _ _ => trivial) with
    registers := .aliasing hd }

variable (hd : d * 2 = 0) {m n : Machine β τ}

theorem related_ahead (m : Machine β τ) : (aliasing β τ hd).Related m (m.ahead d) :=
  ⟨.inr rfl, rfl, rfl, rfl, trivial⟩

theorem eq_of_related (h : (aliasing β τ hd).Related m n) : n = m ∨ n = m.ahead d := by
  obtain ⟨registers, bus, observer, completed⟩ := n
  obtain ⟨hregisters, rfl, rfl, rfl, -⟩ := h
  rcases hregisters with rfl | rfl
  · exact .inl rfl
  · exact .inr rfl

end Simulation

/-! ## Settling -/

namespace Action

variable {α γ : Type}

/-- **`Settles d x`** — when `x` completes, it leaves the same machine if it begins `d` words
ahead. -/
def Settles (d : UInt32) (x : Action β τ α) : Prop :=
  ∀ m a n, x m = .ok a n → x (m.ahead d) = .ok a n

namespace Settles

omit [Bus β] [Observer τ] in
theorem goto (target : UInt32) : Settles d (Action.goto target : Action β τ Unit) :=
  fun _ _ _ h => h

omit [Bus β] [Observer τ] in
/-- What is settled stays settled. -/
theorem andThen {x : Action β τ α} (hx : Settles d x) (g : α → Action β τ γ) :
    Settles d (x >>= g) := by
  intro m c n h
  obtain ⟨a, k, hk, hn⟩ := exists_of_bind_ok h
  rw [bind_of_ok (hx m a k hk)]
  exact hn

omit [Bus β] [Observer τ] in
/-- Of the registers an action may use what both machines have. -/
theorem bindRegisters {f : Registers → Action β τ α} (hf : ∀ s, f (s.advance d) = f s)
    (h : ∀ s, Settles d (f s)) : Settles d (registers >>= f) := by
  intro m a n hn
  show f (m.registers.advance d) (m.ahead d) = .ok a n
  rw [hf]
  exact h m.registers m a n hn

variable (hd : d * 2 = 0)

include hd

/-- What the first action keeps apart the second one may settle. -/
theorem bind {x : Action β τ α} {g : α → Action β τ γ}
    (hx : (Simulation.aliasing β τ hd).Simulates x x) (hg : ∀ a, Settles d (g a)) :
    Settles d (x >>= g) := by
  intro m c n h
  obtain ⟨a, k, hk, hn⟩ := exists_of_bind_ok h
  have hanswers := hx.answers (Simulation.related_ahead hd m) trivial
  rw [hk] at hanswers
  obtain ⟨k', hk', hrelated⟩ := hanswers.of_ok
  rw [bind_of_ok hk']
  rcases Simulation.eq_of_related hd hrelated with rfl | rfl
  · exact hn
  · exact hg a k c n hn

theorem jump (target : UInt32) : Settles d (Action.jump target : Action β τ Unit) :=
  bind hd (.requireAligned target) fun _ => .goto target

theorem call (target : UInt32) : Settles d (Action.call target : Action β τ Unit) := by
  refine bind hd (.requireAligned target) fun _ => bindRegisters (fun s => ?_) fun s => ?_
  · -- the return address is one of bytes
    rw [s.ipAddress_advance_of_aliasing hd]
    rfl
  · refine bind hd (.push _) fun _ => bind hd (.push _) fun _ => bind hd (.push _) fun _ => ?_
    refine bindRegisters (fun _ => rfl) fun s => ?_
    exact bind hd (.setRegister _ _) fun _ => .goto target

theorem ret : Settles d (Action.ret : Action β τ Unit) := by
  refine bindRegisters (fun _ => rfl) fun s => ?_
  refine bind hd (.setRegister _ _) fun _ => bind hd .pop fun fp => ?_
  refine bind hd (.setRegister _ _) fun _ => bind hd .pop fun address => ?_
  exact andThen (.goto address) _

/-- **Jumps, calls and returns settle.** -/
theorem perform {op : Opcode} (hop : op ∈ [.jmp, .jmpa, .jsr, .jsra, .ret]) (i : Instruction)
    (address : UInt32) : Settles d (Action.perform op i address : Action β τ Unit) := by
  simp only [List.mem_cons, List.not_mem_nil, or_false] at hop
  rcases hop with rfl | rfl | rfl | rfl | rfl
  · exact bindRegisters (fun _ => rfl) fun s => jump hd _
  · exact bindRegisters (fun _ => rfl) fun s => bind hd .operand fun target => jump hd target
  · exact bindRegisters (fun _ => rfl) fun s => call hd _
  · exact bindRegisters (fun _ => rfl) fun s => bind hd .operand fun target => call hd target
  · exact bindRegisters (fun _ => rfl) fun s => ret hd

end Settles

end Action

namespace Machine

/-! ## Runs -/

/-- **`m.Transfers`** — the next step of `m` completes a jump, a call or a return. -/
structure Transfers (m : Machine β τ) : Prop where
  running : m.registers.halted = false
  instruction : ∃ word op, m.wordFetch.result = .ok word ∧
    Opcode.ofWord? word.toUInt16 = some op ∧ op ∈ [.jmp, .jmpa, .jsr, .jsra, .ret]
  completes : (Action.step.answer m).isOk = true

section Runs

variable (hd : d * 2 = 0)

include hd

omit [Observer τ] in
theorem wordFetch_ahead (m : Machine β τ) : (m.ahead d).wordFetch = m.wordFetch := by
  show Bus.read m.bus .short (m.registers.advance d).ipAddress = _
  rw [m.registers.ipAddress_advance_of_aliasing hd]
  rfl

/-- Behind the instruction word the one machine is still ahead of the other. -/
theorem pastFetched_ahead (m : Machine β τ) (word : UInt32) :
    (m.ahead d).pastFetched word = (m.pastFetched word).ahead d := by
  have hregisters : (m.registers.advance d).advance 1 = (m.registers.advance 1).advance d := by
    refine congrArg (fun ip => { m.registers with ip }) ?_
    show m.registers.ip + d + 1 = m.registers.ip + 1 + d
    rw [UInt32.add_assoc, UInt32.add_comm d, UInt32.add_assoc]
  show (⟨(m.registers.advance d).advance 1, (m.ahead d).wordFetch.state,
    Observer.observe ((m.ahead d).wordFetch.report m.observer)
      (.fetched (.decode word.toUInt16) (m.registers.advance d).ipAddress), m.completed⟩ :
        Machine β τ) = _
  rw [wordFetch_ahead hd, m.registers.ipAddress_advance_of_aliasing hd, hregisters]
  rfl

/-- A transfer of control brings the two machines together. -/
theorem Transfers.next_ahead {m : Machine β τ} (h : m.Transfers) : (m.ahead d).next = m.next := by
  obtain ⟨hrunning, ⟨word, op, hword, hop, hmem⟩, hcompletes⟩ := h
  cases hstep : Action.step m with
  | error f n =>
    rw [Action.answer_of_error hstep] at hcompletes
    cases hcompletes
  | ok p n =>
    obtain ⟨word', op', k, hword', hop', hperform, rfl, hconclude⟩ :=
      Action.exists_performed_of_step_ok hrunning hstep
    obtain rfl : word = word' := Except.ok.inj (hword.symm.trans hword')
    obtain rfl : op = op' := Option.some.inj (hop.symm.trans hop')
    have hahead : Action.perform op (.decode word.toUInt16) (m.ahead d).registers.ipAddress
        ((m.ahead d).pastFetched word) = .ok () k := by
      rw [pastFetched_ahead hd]
      show Action.perform op _ (m.registers.advance d).ipAddress _ = _
      rw [m.registers.ipAddress_advance_of_aliasing hd]
      exact Action.Settles.perform hd hmem _ _ _ _ _ hperform
    have hword'' : (m.ahead d).wordFetch.result = .ok word := by rw [wordFetch_ahead hd, hword]
    have hstep' := Action.step_of_perform_ok (m := m.ahead d) hrunning hword'' hop hahead
    rw [next, next, Action.leaves_of_ok hstep, Action.leaves_of_ok (hstep'.trans hconclude)]

/-- After any steps the two machines are the same, or the one is as far ahead as it was. -/
theorem after_ahead (m : Machine β τ) (k : Nat) :
    (m.ahead d).after k = m.after k ∨ (m.ahead d).after k = (m.after k).ahead d :=
  Simulation.eq_of_related hd (Simulation.after (Simulation.related_ahead hd m) k trivial)

theorem answerAt_ahead (m : Machine β τ) (k : Nat) : (m.ahead d).answerAt k = m.answerAt k :=
  (Simulation.answerAt (Simulation.related_ahead hd m) k trivial).eq_of_faultAgree.symm

/-- **Once they have come together they stay so.** -/
theorem after_ahead_of_transfers {m : Machine β τ} {j k : Nat} (hjk : j < k)
    (h : (m.after j).Transfers) : (m.ahead d).after k = m.after k := by
  obtain ⟨i, rfl⟩ : ∃ i, k = j + 1 + i := Nat.exists_eq_add_of_le hjk
  have hnext : (m.ahead d).after (j + 1) = m.after (j + 1) := by
    rw [after_succ, after_succ]
    rcases after_ahead hd m j with hsame | hahead
    · rw [hsame]
    · rw [hahead, h.next_ahead hd]
  rw [after_add _ (j + 1), after_add m (j + 1), hnext]

end Runs

/-- **The top bit of the instruction pointer is unobservable.**  Take a machine on any bus and with
any observer, and the same with an instruction pointer that is `2 ^ 31` words further.  At every
step of a run, faults included, both answer the same, and have the same registers, memory system,
observer, count and address of the next instruction; their instruction pointers are the same or
`2 ^ 31` words apart, and are the same, with all the rest, once a jump, a call or a return was
completed. -/
theorem topBit_unobservable (m : Machine β τ) (k : Nat) :
    let n := m.ahead 0x80000000
    n.answerAt k = m.answerAt k ∧ (m.after k).SameUpTo 0x80000000 (n.after k) ∧
      ∀ j < k, (m.after j).Transfers → n.after k = m.after k := by
  have hd : (0x80000000 : UInt32) * 2 = 0 := by decide
  exact ⟨answerAt_ahead hd m k, .of_eq hd (after_ahead hd m k),
    fun j hjk h => after_ahead_of_transfers hd hjk h⟩

/-- A machine over eight bytes: a `nop`, and a jump back to it. -/
def circling : Machine Memory Unit where
  registers := .initial
  bus := ⟨⟨#[], #[0x00, 0x0F, 0x00, 0x1A, 0x00, 0x00, 0x00, 0x00], by decide⟩,
    by decide, by decide, by decide⟩
  observer := ()
  completed := 0

/-- The two machines are apart behind the `nop`, and come together in the jump. -/
theorem circling_unobservable :
    let n := circling.ahead 0x80000000
    (n.after 1).registers.ip ≠ (circling.after 1).registers.ip ∧ 1 < 3 ∧
      (circling.after 1).Transfers ∧ n.after 3 = circling.after 3 := by
  intro n
  have hapart : (n.after 1).registers.ip ≠ (circling.after 1).registers.ip := by decide +kernel
  have htransfers : (circling.after 1).Transfers := by
    have hword : (circling.after 1).wordFetch.result = .ok 0x1A00 := rfl
    have hjump : Opcode.ofWord? 0x1A00 = some .jmpa := by decide
    exact ⟨by decide +kernel, ⟨0x1A00, .jmpa, hword, hjump, by simp⟩, by decide +kernel⟩
  obtain ⟨-, -, htogether⟩ := topBit_unobservable circling 3
  exact ⟨hapart, by omega, htransfers, htogether 1 (by omega) htransfers⟩

end Machine

end Moxie
