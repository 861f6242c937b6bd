/-
# Moxie.Proofs.Machine.Listed — instructions that are listed alike do the same.

A listing line leaves out the operand fields that its opcode has no use for, and the machine does
not look at them either: what an operation does is settled by the fields that its line shows
(`perform_eq_of_agreesOn`).  So two words may differ and yet be the same instruction in every
respect, and that is the case whenever their lines are the same (`text_determines_execution`).
Nothing is assumed of the machine, its bus or its observer.
-/
import Moxie.Machine.Run
import Moxie.Proofs.Isa.Listing

namespace Moxie

namespace Action

variable {β τ : Type} [Bus β] [Observer τ]

/-- **What an operation does is settled by the shown fields.** -/
theorem perform_eq_of_agreesOn {op : Opcode} {i j : Instruction} (h : i.AgreesOn op.shown j)
    (address : UInt32) : (perform op i address : Action β τ Unit) = perform op j address := by
  unfold perform
  cases op with
  | nop | brk | ret | jsra | jmpa | swi => rfl
  | jsr | jmp | loadImmediate =>
    rw [Instruction.agreesOn_a_iff.mp h]
  | inc | dec | gsr | ssr =>
    obtain ⟨ha, hvalue⟩ := Instruction.agreesOn_a_value_iff.mp h
    rw [ha, hvalue]
  | branch r => rw [Instruction.agreesOn_value_iff.mp h]
  | compute | cmp | push | pop =>
    obtain ⟨ha, hb⟩ := Instruction.agreesOn_a_b_iff.mp h
    rw [ha, hb]
  | load m w =>
    cases m with
    | absolute => rw [Instruction.agreesOn_a_iff.mp h]; rfl
    | indirect | offset =>
      obtain ⟨ha, hb⟩ := Instruction.agreesOn_a_b_iff.mp h
      rw [ha, hb]
  | store m w =>
    cases m with
    | absolute => rw [Instruction.agreesOn_a_iff.mp h]; rfl
    | indirect | offset =>
      obtain ⟨ha, hb⟩ := Instruction.agreesOn_a_b_iff.mp h
      rw [ha, hb]

/-- **Instructions that are listed alike do the same.**  They need not be decoded from any word. -/
theorem execute_eq_of_text_eq {i j : Instruction} (h : i.text = j.text) (address : UInt32) :
    (execute i address : Action β τ Progress) = execute j address := by
  obtain ⟨hop, hword, hfields⟩ := Instruction.text_eq_iff.mp h
  unfold execute
  rw [← hop]
  cases hi : i.opcode with
  | none => rw [hword hi]
  | some op =>
    show (perform op i address >>= fun _ => _) = (perform op j address >>= fun _ => _)
    rw [perform_eq_of_agreesOn (hfields op hi)]

/-! ## Fields without use -/

/-- Both registers are without use to an operation that shows neither. -/
theorem perform_ignores_registers {op : Opcode}
    (hop : op ∈ [.nop, .ret, .brk, .jsra, .jmpa, .swi]) (i : Instruction) (a b : Register)
    (address : UInt32) :
    (perform op { i with a, b } address : Action β τ Unit) = perform op i address := by
  have hshown : op.shown = [] := by
    simp only [List.mem_cons, List.not_mem_nil, or_false] at hop
    rcases hop with rfl | rfl | rfl | rfl | rfl | rfl <;> rfl
  apply perform_eq_of_agreesOn
  rw [hshown]
  exact Instruction.agreesOn_nil

/-- Register B is without use to an operation that shows A alone. -/
theorem perform_ignores_b {op : Opcode} {w : Width}
    (hop : op ∈ [.jsr, .jmp, .loadImmediate w, .load .absolute w, .store .absolute w])
    (i : Instruction) (b : Register) (address : UInt32) :
    (perform op { i with b } address : Action β τ Unit) = perform op i address := by
  have hshown : op.shown = [.a] := by
    simp only [List.mem_cons, List.not_mem_nil, or_false] at hop
    rcases hop with rfl | rfl | rfl | rfl | rfl <;> rfl
  apply perform_eq_of_agreesOn
  rw [hshown]
  exact Instruction.agreesOn_a_iff.mpr rfl

end Action

/-- **The text of an instruction determines what it does.**  Two words with the same line have the
same opcode, and are the same word if they have none; and whatever the machine and wherever they
were fetched from, executing them ends in the same way, with the same registers, bus and observer.
The fields that a line leaves out are without use to the operation. -/
theorem text_determines_execution (w₁ w₂ : UInt16)
    (h : (Instruction.decode w₁).text = (Instruction.decode w₂).text) :
    (Instruction.decode w₁).opcode = (Instruction.decode w₂).opcode ∧
      ((Instruction.decode w₁).opcode = none → w₁ = w₂) ∧
      ∀ (β τ : Type) [Bus β] [Observer τ] (m : Machine β τ) (address : UInt32),
        Action.execute (.decode w₁) address m = Action.execute (.decode w₂) address m ∧
        (∀ op ∈ [Opcode.nop, .ret, .brk, .jsra, .jmpa, .swi], ∀ (i : Instruction) (a b : Register),
          Action.perform op { i with a, b } address m = Action.perform op i address m) ∧
        ∀ w, ∀ op ∈ [Opcode.jsr, .jmp, .loadImmediate w, .load .absolute w, .store .absolute w],
          ∀ (i : Instruction) (b : Register),
            Action.perform op { i with b } address m = Action.perform op i address m := by
  obtain ⟨hop, hword, -⟩ := Instruction.text_eq_iff.mp h
  refine ⟨hop, hword, ?_⟩
  intro β τ _ _ m address
  refine ⟨?_, ?_, ?_⟩
  · rw [Action.execute_eq_of_text_eq h]
  · intro op hmem i a b
    rw [Action.perform_ignores_registers hmem]
  · intro w op hmem i b
    rw [Action.perform_ignores_b hmem]

/-- Two words of `jsr $r3` that differ in the field of register B. -/
theorem jsr_text_determines_execution :
    (Instruction.decode 0x1950).text = (Instruction.decode 0x1959).text ∧
      (Instruction.decode 0x1950).b ≠ (Instruction.decode 0x1959).b ∧
      ∀ (m : Machine Memory Unit) (address : UInt32),
        Action.execute (.decode 0x1950) address m = Action.execute (.decode 0x1959) address m := by
  have htext : (Instruction.decode 0x1950).text = (Instruction.decode 0x1959).text := by
    decide +kernel
  obtain ⟨-, -, hexecute⟩ := text_determines_execution 0x1950 0x1959 htext
  refine ⟨htext, by decide +kernel, ?_⟩
  intro m address
  exact (hexecute Memory Unit m address).1

end Moxie
