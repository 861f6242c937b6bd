/-
# Moxie.Proofs.Machine.Faults — which kinds of fault an operation can raise.

Whatever the bus does, the kind of a fault narrows down the operation that raised it: only divisions
divide by zero, only jumps and calls go to unaligned addresses, and no operation is an illegal
opcode, because that fault belongs to words which are none.  `Opcode.canRaise` is the table, and
`FaultsIn.perform` says that every operation keeps to it.  An operation with a 32-bit operand
fetches this before it does anything else, so the fault of the fetch is its own
(`perform_of_operand_error`).

On bare memory more is true; there the registers and the bytes decide which fault it is.
-/
import Moxie.Proofs.Machine.Effects

namespace Moxie

namespace Action

variable {β τ α : Type}

/-- **`FaultsIn P x`** — `P` holds of every fault that `x` raises. -/
def FaultsIn (P : Fault → Prop) (x : Action β τ α) : Prop :=
  ∀ m f n, x m = .error f n → P f

variable [Bus β] [Observer τ]

/-- An action raises the faults that it is made of, besides those of its accesses. -/
theorem MadeOf.faultsIn {P : Fault → Prop} {E : Effect → Prop} (hE : ∀ f, E (.raise f) → P f)
    (haccess : ∀ e, P (.access e)) {x : Action β τ α} (h : MadeOf E x) : FaultsIn P x := by
  induction h with
  | pure | registers | move | setRegister | setSpecial | compare | notify =>
    exact fun _ _ _ => nofun
  | fail h =>
    intro m e n he
    cases he
    exact hE _ h
  | readBus w addr =>
    rintro ⟨registers, bus, observer, completed⟩ f n
    simp only [Action.readBus]
    rcases Bus.read bus w addr with ⟨e | v, bus', events⟩
    · rintro ⟨⟩
      exact haccess e
    · rintro ⟨⟩
  | writeBus _ w addr v =>
    rintro ⟨registers, bus, observer, completed⟩ f n
    simp only [Action.writeBus]
    rcases Bus.write bus w addr v with ⟨e | ⟨⟩, bus', events⟩
    · rintro ⟨⟩
      exact haccess e
    · rintro ⟨⟩
  | bind _ _ ihx ihg =>
    intro m f n h
    rcases exists_of_bind_error h with h | ⟨a, k, -, h⟩
    · exact ihx m f n h
    · exact ihg a k f n h

/-- **Every operation raises faults of its own kinds only.**  Of an access nothing is known here,
since the bus may be any. -/
theorem FaultsIn.perform (op : Opcode) (i : Instruction) (address : UInt32) :
    FaultsIn (fun f => op.canRaise f) (Action.perform op i address : Action β τ Unit) :=
  (MadeOf.perform op i address).faultsIn (fun _ hf => hf) fun _ => rfl

/-! ## Operands -/

variable {m n : Machine β τ}

/-- An instruction with a 32-bit operand fails as the fetch of the operand does. -/
theorem perform_of_operand_error {op : Opcode} (hop : op.immediateWords = 2) {f : Fault}
    (h : operand m = .error f n) (i : Instruction) (address : UInt32) :
    perform op i address m = .error f n := by
  refine (bind_of_ok (rfl : registers m = .ok _ _)).trans ?_
  cases op with
  | jmpa | jsra | loadImmediate w | swi => exact bind_of_error h
  | load mode w =>
    cases mode with
    | absolute => exact bind_of_error h
    | indirect | offset => exact nomatch hop
  | store mode w =>
    cases mode with
    | absolute => exact bind_of_error h
    | indirect | offset => exact nomatch hop
  | _ => exact nomatch hop

end Action

end Moxie
