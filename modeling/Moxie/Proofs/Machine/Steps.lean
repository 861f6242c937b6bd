/-
# Moxie.Proofs.Machine.Steps — runs that go on after a fault.

A fault ends an instruction, not the machine: the next step starts from where the fault left off.
`m.after k` is the machine after `k` steps taken in this way and `m.answerAt k` is what the step
after those answers, so a run of any length is given by two functions of the number of steps.

A run may also be taken up again by a reset.  Such a run is a list of `Turn`s, and `m.stepsIn turns`
has the machines that make its steps, whatever lies between them.
-/
import Moxie.Machine.Run

namespace Moxie

/-! ## Answers -/

@[simp]
theorem Except.isOk_ok {ε α : Type} (a : α) : (Except.ok a : Except ε α).isOk = true := rfl

@[simp]
theorem Except.isOk_error {ε α : Type} (e : ε) : (Except.error e : Except ε α).isOk = false := rfl

namespace Action

variable {β τ α γ : Type}

/-- **`x.answer m`** — the value or fault that `x` gives on `m`. -/
def answer (x : Action β τ α) (m : Machine β τ) : Except Fault α :=
  match x m with
  | .ok a _ => .ok a
  | .error f _ => .error f

/-- **`x.leaves m`** — the machine that `x` leaves of `m`, also when it faults. -/
def leaves (x : Action β τ α) (m : Machine β τ) : Machine β τ :=
  match x m with
  | .ok _ n => n
  | .error _ n => n

/-- An action that follows one which succeeds starts from what that one leaves. -/
theorem bind_of_ok {x : Action β τ α} {g : α → Action β τ γ} {m n : Machine β τ} {a : α}
    (h : x m = .ok a n) : (x >>= g) m = g a n := by
  rw [bind_apply, h]

theorem bind_of_error {x : Action β τ α} {g : α → Action β τ γ} {m n : Machine β τ} {f : Fault}
    (h : x m = .error f n) : (x >>= g) m = .error f n := by
  rw [bind_apply, h]

/-- Where two actions in sequence succeed, both do. -/
theorem exists_of_bind_ok {x : Action β τ α} {g : α → Action β τ γ} {m n : Machine β τ} {c : γ}
    (h : (x >>= g) m = .ok c n) : ∃ a k, x m = .ok a k ∧ g a k = .ok c n := by
  rw [bind_apply] at h
  cases hm : x m with
  | ok a k =>
    rw [hm] at h
    exact ⟨a, k, rfl, h⟩
  | error f k =>
    rw [hm] at h
    cases h

/-- Where they fail, one of them does. -/
theorem exists_of_bind_error {x : Action β τ α} {g : α → Action β τ γ} {m n : Machine β τ}
    {f : Fault} (h : (x >>= g) m = .error f n) :
    x m = .error f n ∨ ∃ a k, x m = .ok a k ∧ g a k = .error f n := by
  rw [bind_apply] at h
  cases hm : x m with
  | ok a k =>
    rw [hm] at h
    exact .inr ⟨a, k, rfl, h⟩
  | error e k =>
    rw [hm] at h
    cases h
    exact .inl rfl

theorem answer_of_ok {x : Action β τ α} {m n : Machine β τ} {a : α} (h : x m = .ok a n) :
    x.answer m = .ok a := by
  rw [answer, h]

theorem answer_of_error {x : Action β τ α} {m n : Machine β τ} {f : Fault}
    (h : x m = .error f n) : x.answer m = .error f := by
  rw [answer, h]

theorem answer_bind_of_ok {x : Action β τ α} {g : α → Action β τ γ} {m n : Machine β τ} {a : α}
    (h : x m = .ok a n) : answer (x >>= g) m = (g a).answer n := by
  rw [answer, bind_of_ok h]
  rfl

theorem leaves_of_ok {x : Action β τ α} {m n : Machine β τ} {a : α} (h : x m = .ok a n) :
    x.leaves m = n := by
  rw [leaves, h]

theorem leaves_of_error {x : Action β τ α} {m n : Machine β τ} {f : Fault}
    (h : x m = .error f n) : x.leaves m = n := by
  rw [leaves, h]

theorem leaves_bind_of_ok {x : Action β τ α} {g : α → Action β τ γ} {m n : Machine β τ} {a : α}
    (h : x m = .ok a n) : leaves (x >>= g) m = (g a).leaves n := by
  rw [leaves, bind_of_ok h]
  rfl

theorem leaves_bind_of_error {x : Action β τ α} {g : α → Action β τ γ} {m n : Machine β τ}
    {f : Fault} (h : x m = .error f n) : leaves (x >>= g) m = n := by
  rw [leaves, bind_of_error h]

end Action

/-- What can be done with a machine from outside: let it make a step, or reset it to a byte
address. -/
inductive Turn where
  | step
  | reset (start : UInt32)
  deriving DecidableEq

namespace Machine

variable {β τ : Type} [Bus β] [Observer τ]

/-- The machine after one step. -/
def next (m : Machine β τ) : Machine β τ :=
  Action.step.leaves m

/-- **`m.after k`** — the machine after `k` steps, faults included. -/
def after (m : Machine β τ) : Nat → Machine β τ
  | 0 => m
  | k + 1 => (m.after k).next

/-- **`m.answerAt k`** — the answer of the step that follows `k` others. -/
def answerAt (m : Machine β τ) (k : Nat) : Except Fault Progress :=
  Action.step.answer (m.after k)

@[simp]
theorem after_zero (m : Machine β τ) : m.after 0 = m := rfl

@[simp]
theorem after_succ (m : Machine β τ) (k : Nat) : m.after (k + 1) = (m.after k).next := rfl

theorem after_add (m : Machine β τ) (j k : Nat) : m.after (j + k) = (m.after j).after k := by
  induction k with
  | zero => rfl
  | succ k ih => rw [← Nat.add_assoc, after_succ, after_succ, ih]

/-! ## Runs with resets -/

/-- **`m.turn t`** — the machine after one turn; a reset that is refused leaves it as it is. -/
def turn (m : Machine β τ) : Turn → Machine β τ
  | .step => m.next
  | .reset start => (Action.reset start).leaves m

/-- **`m.play turns`** — the machine after some turns, faults included. -/
def play (m : Machine β τ) (turns : List Turn) : Machine β τ :=
  turns.foldl turn m

/-- **`m.stepsIn turns`** — the machines that make the steps among some turns, each as it is before
its step. -/
def stepsIn (m : Machine β τ) : List Turn → List (Machine β τ)
  | [] => []
  | .step :: turns => m :: m.next.stepsIn turns
  | .reset start :: turns => (m.turn (.reset start)).stepsIn turns

end Machine

end Moxie
