/-
# Moxie.Proofs.Machine.Batches — batches cut in two, and what a batch accounts for.

A batch may be run in pieces.  If the first piece makes all its steps, the second goes on where it
stopped, and together they are the whole batch; if the machine stopped or an instruction faulted on
the way, the piece is already the whole batch, whatever budget is left.

The number of executed instructions in the account of a batch is the growth of the machine's own
count.  It is the budget if the batch was completed and at most the budget otherwise; in particular
the `brk` that ends a batch is counted in both places, and an instruction that faults in neither.
-/
import Mathlib.Algebra.Ring.Nat
import Moxie.Proofs.Machine.Outcome

namespace Moxie.Machine

variable {β τ : Type} [Bus β] [Observer τ]

/-! ## The loop in pieces -/

theorem runFrom_of_running {m n : Machine β τ} (h : Action.step m = .ok .running n)
    (executed budget : Nat) :
    m.runFrom executed (budget + 1) = n.runFrom (executed + 1) budget := by
  rw [runFrom, h]

theorem runFrom_of_halted {m n : Machine β τ} (h : Action.step m = .ok .halted n)
    (executed budget : Nat) : m.runFrom executed (budget + 1) = (⟨executed + 1, .halted⟩, n) := by
  rw [runFrom, h]

theorem runFrom_of_faulted {m n : Machine β τ} {f : Fault} (h : Action.step m = .error f n)
    (executed budget : Nat) : m.runFrom executed (budget + 1) = (⟨executed, .faulted f⟩, n) := by
  rw [runFrom, h]

/-- The instructions executed before only shift the account. -/
theorem runFrom_eq (m : Machine β τ) (executed budget : Nat) :
    m.runFrom executed budget =
      (⟨executed + (m.runFrom 0 budget).1.executed, (m.runFrom 0 budget).1.ending⟩,
        (m.runFrom 0 budget).2) := by
  induction budget generalizing m executed with
  | zero => rfl
  | succ budget ih =>
    cases hm : Action.step m with
    | ok progress n =>
      cases progress with
      | running =>
        rw [runFrom_of_running hm, runFrom_of_running hm, ih n (executed + 1), ih n (0 + 1),
          Nat.zero_add, Nat.add_assoc]
      | halted => rw [runFrom_of_halted hm, runFrom_of_halted hm]
    | error f n => rw [runFrom_of_faulted hm, runFrom_of_faulted hm, Nat.add_zero]

/-- A completed piece is followed by the rest. -/
theorem runFrom_add_of_completed {m : Machine β τ} {executed j : Nat}
    (h : (m.runFrom executed j).1.ending = .completed) (k : Nat) :
    m.runFrom executed (j + k) =
      (m.runFrom executed j).2.runFrom (m.runFrom executed j).1.executed k := by
  induction j generalizing m executed with
  | zero => rw [Nat.zero_add, runFrom]
  | succ j ih =>
    rw [Nat.add_right_comm]
    cases hm : Action.step m with
    | ok progress n =>
      cases progress with
      | running =>
        rw [runFrom_of_running hm] at h ⊢
        rw [runFrom_of_running hm]
        exact ih h
      | halted =>
        rw [runFrom_of_halted hm] at h
        cases h
    | error f n =>
      rw [runFrom_of_faulted hm] at h
      cases h

/-- A piece that was cut short is all there is. -/
theorem runFrom_add_of_ended {m : Machine β τ} {executed j : Nat}
    (h : (m.runFrom executed j).1.ending ≠ .completed) (k : Nat) :
    m.runFrom executed (j + k) = m.runFrom executed j := by
  induction j generalizing m executed with
  | zero => exact absurd rfl h
  | succ j ih =>
    rw [Nat.add_right_comm]
    cases hm : Action.step m with
    | ok progress n =>
      cases progress with
      | running =>
        rw [runFrom_of_running hm] at h ⊢
        rw [runFrom_of_running hm]
        exact ih h
      | halted => rw [runFrom_of_halted hm, runFrom_of_halted hm]
    | error f n => rw [runFrom_of_faulted hm, runFrom_of_faulted hm]

/-! ## The account -/

/-- **`m.Accounts executed budget r`** — the batch `r` began with `m` and `executed` instructions,
had this budget, and accounts for it as it should. -/
structure Accounts (m : Machine β τ) (executed budget : Nat) (r : Batch × Machine β τ) : Prop where
  le : r.1.executed ≤ executed + budget
  eq_of_completed : r.1.ending = .completed → r.1.executed = executed + budget
  count : r.2.completed + UInt64.ofNat executed = m.completed + UInt64.ofNat r.1.executed
  halted_iff : r.2.registers.halted = true ↔ r.1.ending = .halted

theorem accounts_runFrom {m : Machine β τ} (h : m.registers.halted = false)
    (executed budget : Nat) :
    m.Accounts executed budget (m.runFrom executed budget) := by
  induction budget generalizing m executed with
  | zero => exact ⟨Nat.le_refl _, fun _ => rfl, rfl, by simp [runFrom, h]⟩
  | succ budget ih =>
    have hstep := m.stepped
    cases hm : Action.step m with
    | ok progress n =>
      rw [hm] at hstep
      cases progress with
      | running =>
        cases hstep with
        | running _ hn hcount =>
          obtain ⟨hle, hcompleted, hsum, hhalted⟩ := ih hn (executed + 1)
          rw [runFrom_of_running hm]
          refine ⟨by omega, fun hend => ?_, ?_, hhalted⟩
          · have := hcompleted hend
            omega
          · -- the step is counted on either side
            rw [UInt64.ofNat_add, hcount] at hsum
            grind
      | halted =>
        rw [runFrom_of_halted hm]
        cases hstep with
        | stopped hstop =>
          rw [h] at hstop
          cases hstop
        | halted _ hn hcount =>
          refine ⟨Nat.add_le_add_left (Nat.succ_pos budget) _, nofun, ?_, by simp [hn]⟩
          rw [UInt64.ofNat_add, hcount]
          grind
    | error f n =>
      rw [hm] at hstep
      rw [runFrom_of_faulted hm]
      cases hstep with
      | faulted _ hn hcount =>
        exact ⟨Nat.le_add_right .., nofun, by rw [hcount], by simp [hn]⟩

/-- A stopped machine executes nothing. -/
theorem runBatch_of_halted {m : Machine β τ} (h : m.registers.halted = true) (budget : Nat) :
    m.runBatch budget = (⟨0, .halted⟩, m) := by
  rw [runBatch, if_pos h]

theorem runBatch_of_not_halted {m : Machine β τ} (h : m.registers.halted = false) (budget : Nat) :
    m.runBatch budget = m.runFrom 0 budget := by
  rw [runBatch, if_neg (by simp [h])]

theorem accounts_runBatch (m : Machine β τ) (budget : Nat) :
    m.Accounts 0 budget (m.runBatch budget) := by
  cases h : m.registers.halted with
  | true =>
    rw [runBatch_of_halted h]
    exact ⟨Nat.zero_le _, nofun, rfl, by simp [h]⟩
  | false =>
    rw [runBatch_of_not_halted h]
    exact accounts_runFrom h 0 budget

/-- A batch that completes leaves a machine on which the rest of a larger one can be run. -/
theorem runBatch_add_of_completed {m : Machine β τ} {j : Nat}
    (h : (m.runBatch j).1.ending = .completed) (k : Nat) :
    m.runBatch (j + k) =
      (⟨(m.runBatch j).1.executed + ((m.runBatch j).2.runBatch k).1.executed,
        ((m.runBatch j).2.runBatch k).1.ending⟩, ((m.runBatch j).2.runBatch k).2) := by
  have hrunning : (m.runBatch j).2.registers.halted = false := by
    rw [← Bool.not_eq_true, (m.accounts_runBatch j).halted_iff, h]
    exact nofun
  rw [runBatch_of_not_halted hrunning]
  cases hm : m.registers.halted with
  | true =>
    rw [runBatch_of_halted hm] at h
    cases h
  | false =>
    rw [runBatch_of_not_halted hm] at h ⊢
    rw [runBatch_of_not_halted hm, runFrom_add_of_completed h, runFrom_eq]

/-- A batch that ends early is the whole of any larger one. -/
theorem runBatch_add_of_ended {m : Machine β τ} {j : Nat}
    (h : (m.runBatch j).1.ending ≠ .completed) (k : Nat) : m.runBatch (j + k) = m.runBatch j := by
  cases hm : m.registers.halted with
  | true => rw [runBatch_of_halted hm, runBatch_of_halted hm]
  | false =>
    rw [runBatch_of_not_halted hm] at h
    rw [runBatch_of_not_halted hm, runBatch_of_not_halted hm, runFrom_add_of_ended h]

/-- A machine that has stopped makes no step. -/
theorem step_of_halted {m : Machine β τ} (h : m.registers.halted = true) :
    Action.step m = .ok .halted m := by
  rw [Action.step_apply, if_pos h]

/-- A machine over four bytes, with an `inc` and a `brk` in them. -/
def sample : Machine Memory Unit where
  registers := .initial
  bus := ⟨⟨#[], #[0x05, 0x82, 0x00, 0x35], by decide⟩, by decide, by decide, by decide⟩
  observer := ()
  completed := 0

/-- **Batches in pieces.**  A batch that completes and a further one are the batch of both budgets:
the same machine, the same ending, the executed instructions added up.  One that ends early is the
same under every larger budget, and a machine that stopped in it does nothing any more.  In each
case the executed instructions are what the count has grown by; they are at most the budget, and all
of it if the batch was completed. -/
theorem runBatch_add (m : Machine β τ) (j k : Nat) :
    ((m.runBatch j).1.ending = .completed →
      m.runBatch (j + k) =
        (⟨(m.runBatch j).1.executed + ((m.runBatch j).2.runBatch k).1.executed,
          ((m.runBatch j).2.runBatch k).1.ending⟩, ((m.runBatch j).2.runBatch k).2)) ∧
    ((m.runBatch j).1.ending ≠ .completed → m.runBatch (j + k) = m.runBatch j) ∧
    ((m.runBatch j).1.ending = .halted →
      Action.step (m.runBatch j).2 = .ok .halted (m.runBatch j).2 ∧
      ∀ l, (m.runBatch j).2.runBatch l = (⟨0, .halted⟩, (m.runBatch j).2)) ∧
    (m.runBatch j).2.completed = m.completed + UInt64.ofNat (m.runBatch j).1.executed ∧
    (m.runBatch j).1.executed ≤ j ∧
    ((m.runBatch j).1.ending = .completed → (m.runBatch j).1.executed = j) := by
  obtain ⟨hle, hcompleted, hcount, hhalted⟩ := m.accounts_runBatch j
  rw [Nat.zero_add] at hle hcompleted
  refine ⟨fun h => runBatch_add_of_completed h k, fun h => runBatch_add_of_ended h k, ?_, ?_, hle,
    hcompleted⟩
  · intro h
    have hstop := hhalted.mpr h
    exact ⟨step_of_halted hstop, runBatch_of_halted hstop⟩
  · rw [← hcount]
    exact (UInt64.add_zero _).symm

/-- A budget that ends before the `brk`, and one that ends right on it. -/
theorem sample_runBatch_add :
    (sample.runBatch 1).1 = ⟨1, .completed⟩ ∧ (sample.runBatch 2).1 = ⟨2, .halted⟩ ∧
    sample.runBatch (1 + 1) =
      (⟨(sample.runBatch 1).1.executed + ((sample.runBatch 1).2.runBatch 1).1.executed,
        ((sample.runBatch 1).2.runBatch 1).1.ending⟩, ((sample.runBatch 1).2.runBatch 1).2) ∧
    sample.runBatch (2 + 5) = sample.runBatch 2 ∧
    Action.step (sample.runBatch 2).2 = .ok .halted (sample.runBatch 2).2 := by
  have hfirst : (sample.runBatch 1).1 = ⟨1, .completed⟩ := by decide +kernel
  have hboth : (sample.runBatch 2).1 = ⟨2, .halted⟩ := by decide +kernel
  obtain ⟨hadd, -⟩ := runBatch_add sample 1 1
  obtain ⟨-, hended, hstopped, -⟩ := runBatch_add sample 2 5
  exact ⟨hfirst, hboth, hadd (by rw [hfirst]), hended (by rw [hboth]; exact nofun),
    (hstopped (by rw [hboth])).1⟩

end Moxie.Machine
