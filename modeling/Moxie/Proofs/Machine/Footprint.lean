/-
# Moxie.Proofs.Machine.Footprint — what one instruction changes.

A step that succeeds changes little, and what it may change can be told from the word it fetched.
Of the registers and flags that is the table of effects (`Opcode.HasEffect`) read backwards: a
register that the operation does not set has kept its value, and so have the special registers and
the comparison but for the one operation that is there to set them.  `Footprint` has it all, over
any bus.

On bare memory one can also say where bytes may have changed (`Machine.Writes`).  Only four kinds of
operations write at all.  Each of them names the place by registers that still have their old values
when it is accessed, so the place can be given in terms of the machine before the step.
-/
import Moxie.Proofs.Isa.Encoding
import Moxie.Proofs.Machine.Addressing
import Moxie.Proofs.Machine.Frames
import Moxie.Proofs.Machine.Hazards
import Moxie.Proofs.Machine.Inline

namespace Moxie

/-- An immediate within a word is a small number, and none of it is lost. -/
theorem Instruction.toNat_ofInt_fieldValue {w : UInt16} (h : Format.ofWord w ≠ .branch) :
    ((UInt32.ofInt (fieldValue w)).toNat : Int) = fieldValue w := by
  have hlow : (w &&& 0xFF).toNat < 2 ^ 8 := by
    rw [UInt16.toNat_and]
    exact Nat.and_lt_two_pow w.toNat (by decide)
  rw [toNat_ofInt, fieldValue]
  cases hformat : Format.ofWord w with
  | register => rfl
  | shortImmediate => dsimp only; omega
  | branch => exact absurd hformat h

namespace Action

variable {β τ α ι : Type} [Bus β] [Observer τ]

/-! ## What a completed operation has kept -/

section Kept

variable {f : Registers → ι} {E : Effect → Prop}

omit [Bus β] [Observer τ] in
/-- What an action keeps it has kept when it succeeds. -/
theorem Keeps.of_ok {x : Action β τ α} (hx : Keeps f x) {m n : Machine β τ} {a : α}
    (h : x m = .ok a n) : f n.registers = f m.registers ∧ n.completed = m.completed := by
  rw [← leaves_of_ok h]
  exact ⟨hx.registers m, hx.completed m⟩

/-- A register that is not set. -/
theorem unmoved_get {r : Register} (h : ¬ E (.general r)) : Unmoved E (·.get r) where
  goto _ _ := rfl
  set q hq s v := (s.get_set q r v).trans (if_neg fun hr => h (by rwa [hr]))
  setSpecial _ _ _ _ := rfl
  compare _ _ _ := rfl

theorem unmoved_getSpecial (h : ¬ E .special) (k : SpecialIndex) : Unmoved E (·.getSpecial k) where
  goto _ _ := rfl
  set _ _ _ _ := rfl
  setSpecial hE := absurd hE h
  compare _ _ _ := rfl

theorem unmoved_comparison (h : ¬ E .comparison) : Unmoved E (·.comparison) where
  goto _ _ := rfl
  set _ _ _ _ := rfl
  setSpecial _ _ _ _ := rfl
  compare hE := absurd hE h

end Kept

variable {op : Opcode} {i : Instruction} {address : UInt32} {m n : Machine β τ}

/-- A software interrupt does not complete. -/
theorem ne_swi_of_perform_ok (h : perform op i address m = .ok () n) : op ≠ .swi := by
  rintro rfl
  obtain ⟨s, k, -, h⟩ := exists_of_bind_ok h
  obtain ⟨number, l, -, h⟩ := exists_of_bind_ok h
  cases h

/-- Only `ssr` sets a special register, and it is the one it names. -/
theorem getSpecial_of_perform_ok (h : perform op i address m = .ok () n) (k : SpecialIndex) :
    n.registers.getSpecial k =
      if op = .ssr ∧ k.val = (UInt32.ofInt i.value).toNat then m.registers.get i.a
      else m.registers.getSpecial k := by
  by_cases hop : op = .ssr
  · subst hop
    obtain ⟨s, l, hs, h⟩ := exists_of_bind_ok h
    cases hs
    obtain ⟨j, l, hj, h⟩ := exists_of_bind_ok h
    unfold specialIndex at hj
    split at hj
    · cases hj
      cases h
      show (m.registers.setSpecial _ _).getSpecial k = _
      rw [Registers.getSpecial_setSpecial]
      refine if_congr ?_ rfl rfl
      rw [Fin.ext_iff]
      exact ⟨fun hk => ⟨rfl, hk⟩, fun hk => hk.2⟩
    · cases hj
  · rw [if_neg (fun hssr => hop hssr.1)]
    -- an interrupt would set some too, but it does not complete
    have hnone : ¬ op.HasEffect i .special := by
      rintro (hssr | hswi)
      · exact hop hssr
      · exact ne_swi_of_perform_ok h hswi
    exact ((Keeps.perform (unmoved_getSpecial hnone k) address).of_ok h).1

theorem comparison_of_perform_ok (h : perform op i address m = .ok () n) :
    n.registers.comparison =
      if op = .cmp then .of (m.registers.get i.a) (m.registers.get i.b)
      else m.registers.comparison := by
  by_cases hop : op = .cmp
  · subst hop
    cases h
    rfl
  · rw [if_neg hop]
    exact ((Keeps.perform (unmoved_comparison hop) address).of_ok h).1

end Action

namespace Machine

variable {β τ : Type} [Bus β] [Observer τ]

/-- **`Footprint op i m n`** — going from `m` to `n` changes no more of the registers and flags than
a completed `op` with the fields of `i` does. -/
structure Footprint (op : Opcode) (i : Instruction) (m n : Machine β τ) : Prop where
  general : ∀ r, r ∉ op.sets i → n.registers.get r = m.registers.get r
  special : ∀ k, n.registers.getSpecial k =
    if op = .ssr ∧ (k.val : Int) = i.value then m.registers.get i.a else m.registers.getSpecial k
  comparison : n.registers.comparison =
    if op = .cmp then .of (m.registers.get i.a) (m.registers.get i.b) else m.registers.comparison
  halted : n.registers.halted = true ↔ op = .brk
  completed : n.completed = m.completed + 1

/-- **What a completed step has changed**, over any bus. -/
theorem footprint_of_step_ok {m n : Machine β τ} (hrunning : m.registers.halted = false)
    {p : Progress} (h : Action.step m = .ok p n) :
    ∃ word op, m.wordFetch.result = .ok word ∧ Opcode.ofWord? word.toUInt16 = some op ∧
      Footprint op (.decode word.toUInt16) m n := by
  obtain ⟨word, op, k, hword, hop, hperform, rfl, hconclude⟩ :=
    Action.exists_performed_of_step_ok hrunning h
  refine ⟨word, op, hword, hop, ?_⟩
  cases hconclude
  obtain ⟨hhalted, hcompleted⟩ := (Action.Keeps.perform
    (Action.untouched_halted.unmoved (fun _ _ _ => rfl) _) _).of_ok hperform
  constructor
  · intro r hr
    exact ((Action.Keeps.perform (Action.unmoved_get hr) _).of_ok hperform).1
  · intro j
    have hindex (hssr : op = .ssr) :
        ((UInt32.ofInt (Instruction.fieldValue word.toUInt16)).toNat : Int) =
          Instruction.fieldValue word.toUInt16 := by
      refine Instruction.toNat_ofInt_fieldValue ?_
      rw [Opcode.ofWord_of_ofWord? hop, hssr]
      decide
    refine (Action.getSpecial_of_perform_ok hperform j).trans (if_congr ?_ rfl rfl)
    refine and_congr_right fun hssr => ?_
    have := hindex hssr
    show j.val = (UInt32.ofInt (Instruction.fieldValue word.toUInt16)).toNat ↔
      (j.val : Int) = Instruction.fieldValue word.toUInt16
    omega
  · have hcomparison := Action.comparison_of_perform_ok hperform
    exact hcomparison
  · have hnot : k.registers.halted = false := hhalted.trans hrunning
    simp [hnot]
  · exact congrArg (· + 1) hcompleted

end Machine

/-! ## Where a memory may have changed -/

namespace Action

variable {τ α : Type} [Observer τ]

/-- A bare memory is changed by writes and by nothing else. -/
theorem MadeOf.bus_leaves {E : Effect → Prop} (hE : ¬ E .write) {x : Action Memory τ α}
    (h : MadeOf E x) (m : Machine Memory τ) : (x.leaves m).bus = m.bus := by
  induction h generalizing m with
  | pure | fail | registers | move | setRegister | setSpecial | compare | notify => rfl
  | readBus w addr =>
    by_cases hfits : m.bus.Fits addr w.bytes
    · rw [leaves_of_ok (readBus_of_fits hfits)]
    · rw [leaves_of_error (readBus_of_not_fits hfits)]
  | writeBus h => exact absurd h hE
  | @bind α γ x g _ _ ihx ihg =>
    have hfirst := ihx m
    cases hx : x m with
    | ok a k =>
      rw [leaves_of_ok hx] at hfirst
      rw [leaves_bind_of_ok hx, ihg, hfirst]
    | error f k =>
      rw [leaves_of_error hx] at hfirst
      rw [leaves_bind_of_error hx, hfirst]

/-- A write that succeeds changes the bytes it covers at most. -/
theorem agreesOn_of_writeBus_ok {w : Width} {addr v : UInt32} {m n : Machine Memory τ}
    (h : writeBus w addr v m = .ok () n) :
    m.bus.Fits addr w.bytes ∧
      Memory.AgreesOn {i | i < addr.toNat ∨ addr.toNat + w.bytes ≤ i} m.bus n.bus := by
  by_cases hfits : m.bus.Fits addr w.bytes
  · rw [writeBus_of_fits hfits] at h
    cases h
    exact Memory.agreesOn_of_write (Memory.write_of_fits hfits)
  · rw [writeBus_of_not_fits hfits] at h
    cases h

end Action

namespace Machine

variable {τ : Type} {m n k : Machine Memory τ} {mode : Mode} {w : Width}

/-- Behind the instruction word, the address of a load or store is where it was seen to be. -/
theorem eq_addressIn [Observer τ] {base e : UInt32} (h : m.pastWord.Addresses mode base e) :
    e = m.addressIn mode base := by
  cases mode with
  | indirect => exact h
  | absolute =>
    rw [h.2, m.ipAddress_pastWord]
    rfl
  | offset =>
    rw [h.2, m.ipAddress_pastWord, ← Arithmetic.signExtendShort_eq]
    rfl

/-- **`m.Writes op pos`** — if the next instruction is an `op`, it may write the byte at `pos`.  A
store writes what it accesses, `push` four bytes below its register A, and a call twelve bytes below
the stack pointer. -/
def Writes (m : Machine Memory τ) (op : Opcode) (pos : Nat) : Prop :=
  match op with
  | .store mode w =>
    let e := m.addressIn mode (m.registers.get m.nextInstruction.a)
    e.toNat ≤ pos ∧ pos < e.toNat + w.bytes
  | .push =>
    let a := m.registers.get m.nextInstruction.a
    a.toNat ≤ pos + 4 ∧ pos < a.toNat
  | .jsr | .jsra => m.registers.sp.toNat ≤ pos + 12 ∧ pos < m.registers.sp.toNat
  | _ => False

variable [Observer τ]

theorem agreesOn_of_store
    (h : Action.perform (.store mode w) m.nextInstruction m.registers.ipAddress m.pastWord =
      .ok () k) :
    Memory.AgreesOn {pos | ¬ m.Writes (.store mode w) pos} m.bus k.bus := by
  obtain ⟨s, _, hs, h⟩ := Action.exists_of_bind_ok h
  cases hs
  obtain ⟨e, l, heffective, hwrite⟩ := Action.exists_of_bind_ok h
  obtain ⟨haddresses, hl⟩ := addresses_of_ok heffective
  obtain rfl := eq_addressIn haddresses
  obtain ⟨-, hagrees⟩ := Action.agreesOn_of_writeBus_ok hwrite
  rw [hl.bus] at hagrees
  refine hagrees.mono fun pos hpos => ?_
  have hout : ¬ (_ ∧ _) := hpos
  exact (not_and_or.mp hout).imp Nat.not_le.mp Nat.not_lt.mp

theorem agreesOn_of_push
    (h : Action.perform .push m.nextInstruction m.registers.ipAddress m.pastWord = .ok () k) :
    Memory.AgreesOn {pos | ¬ m.Writes .push pos} m.bus k.bus := by
  obtain ⟨s, _, hs, h⟩ := Action.exists_of_bind_ok h
  cases hs
  obtain ⟨_, l, hwrite, hset⟩ := Action.exists_of_bind_ok h
  cases hset
  obtain ⟨hfits, hagrees⟩ := Action.agreesOn_of_writeBus_ok hwrite
  have hbelow : (m.registers.get m.nextInstruction.a - 4).toNat + 4 =
    (m.registers.get m.nextInstruction.a).toNat := Memory.toNat_sub_four hfits
  refine hagrees.mono fun pos hpos => ?_
  have hout : ¬ ((m.registers.get m.nextInstruction.a).toNat ≤ pos + 4 ∧
    pos < (m.registers.get m.nextInstruction.a).toNat) := hpos
  show pos < (m.registers.get m.nextInstruction.a - 4).toNat ∨
    (m.registers.get m.nextInstruction.a - 4).toNat + 4 ≤ pos
  omega

theorem agreesOn_of_call {p : Progress} (hrunning : m.registers.halted = false)
    (hop : m.nextInstruction.opcode = some .jsr ∨ m.nextInstruction.opcode = some .jsra)
    (h : Action.step m = .ok p n) :
    Memory.AgreesOn {pos | ¬ (m.registers.sp.toNat ≤ pos + 12 ∧ pos < m.registers.sp.toNat)}
      m.bus n.bus := by
  obtain ⟨target, l, hl, -, hfits, hconclude⟩ := exists_entered_of_step_ok hrunning hop h
  cases hconclude
  have hsp : l.registers.sp = m.registers.sp := hl.get .sp
  have hbus : (l.entered target).bus = m.bus.pushed m.registers.sp l.frame := by
    rw [← hl.bus, ← hsp]
    rfl
  have hslots : ∀ i < l.frame.length, m.bus.Fits (pushSlot m.registers.sp i) 4 := hfits
  constructor
  · show (l.entered target).bus.size = _
    rw [hbus, Memory.size_pushed]
  · intro pos hpos
    show (l.entered target).bus.byteAt pos = _
    rw [hbus]
    exact Memory.byteAt_pushed hslots hpos

/-- **Where a completed step has changed the memory.** -/
theorem agreesOn_of_step_ok {p : Progress} (hrunning : m.registers.halted = false)
    (h : Action.step m = .ok p n) :
    ∃ op, m.nextInstruction.opcode = some op ∧
      Memory.AgreesOn {pos | ¬ m.Writes op pos} m.bus n.bus := by
  obtain ⟨-, op, k, hop, hperform, -, hconclude⟩ := Action.exists_of_step_ok hrunning h
  refine ⟨op, hop, ?_⟩
  have hbus : n.bus = k.bus := by
    cases hconclude
    rfl
  by_cases hwrites : op.writes = true
  -- of the operations that write, each has its own place
  · cases op with
    | store mode w =>
      rw [hbus]
      exact agreesOn_of_store hperform
    | push =>
      rw [hbus]
      exact agreesOn_of_push hperform
    | jsr => exact agreesOn_of_call hrunning (.inl hop) h
    | jsra => exact agreesOn_of_call hrunning (.inr hop) h
    | _ => cases hwrites
  · have hkept := (Action.MadeOf.perform op m.nextInstruction m.registers.ipAddress).bus_leaves
      hwrites m.pastWord
    rw [Action.leaves_of_ok hperform] at hkept
    rw [hbus, hkept]
    exact .refl _ _

/-- **What one instruction changes.**  Over any bus, a step that succeeds has changed no more of the
registers and flags than its operation is there to change; a machine that has stopped does not
change at all; and on bare memory, a byte has changed only where a store, a `push` or a call has its
place to write. -/
theorem step_footprint {β : Type} [Bus β] :
    (∀ (m n : Machine β τ) (p : Progress), m.registers.halted = false → Action.step m = .ok p n →
      ∃ word op, m.wordFetch.result = .ok word ∧ Opcode.ofWord? word.toUInt16 = some op ∧
        Footprint op (.decode word.toUInt16) m n) ∧
    (∀ m : Machine β τ, m.registers.halted = true → Action.step m = .ok .halted m) ∧
    (∀ (m n : Machine Memory τ) (p : Progress), m.registers.halted = false →
      Action.step m = .ok p n →
      ∃ op, m.nextInstruction.opcode = some op ∧
        Memory.AgreesOn {pos | ¬ m.Writes op pos} m.bus n.bus) := by
  refine ⟨?_, ?_, ?_⟩
  · intro m n p hrunning h
    exact footprint_of_step_ok hrunning h
  · intro m hhalted
    rw [Action.step_apply, if_pos hhalted]
  · intro m n p hrunning h
    exact agreesOn_of_step_ok hrunning h

/-- A machine over ten bytes that is to push a word on the stack of its register 2. -/
def stacking : Machine Memory Unit where
  registers := (Registers.initial.set (.ofField 2) 8).set (.ofField 3) 0xAABBCCDD
  bus := ⟨⟨#[], #[0x23, 0x06, 1, 2, 3, 4, 5, 6, 7, 8], by decide⟩, by decide, by decide, by decide⟩
  observer := ()
  completed := 0

/-- The word lands right below the place that the register pointed to, and the register that it came
from keeps it. -/
theorem stacking_footprint :
    let n := stacking.next
    Action.step stacking = .ok .running n ∧ Footprint .push (.decode 0x0623) stacking n ∧
      Memory.AgreesOn {pos | ¬ stacking.Writes .push pos} stacking.bus n.bus ∧
      n.registers.get (.ofField 2) = 4 ∧ n.registers.get (.ofField 3) = 0xAABBCCDD ∧
      n.bus.byteAt 4 = 0xDD ∧ n.bus.byteAt 8 = 7 := by
  intro n
  have hstep : Action.step stacking = .ok .running n := rfl
  have hfetch : stacking.wordFetch.result = .ok 0x0623 := rfl
  have hpush : Opcode.ofWord? 0x0623 = some .push := by decide +kernel
  obtain ⟨hfootprints, -, hmemories⟩ := step_footprint (β := Memory) (τ := Unit)
  obtain ⟨word, op, hword, hop, hfootprint⟩ := hfootprints stacking n .running rfl hstep
  obtain ⟨op', hop', hagrees⟩ := hmemories stacking n .running rfl hstep
  cases hfetch.symm.trans hword
  cases hpush.symm.trans hop
  cases hpush.symm.trans hop'
  have hkept := hfootprint.general (.ofField 3) (by decide +kernel)
  have hout : ¬ stacking.Writes .push 8 := fun hin => absurd hin.2 (by decide +kernel)
  have hframe := hagrees.byteAt_eq 8 hout
  exact ⟨hstep, hfootprint, hagrees, rfl, hkept, rfl, hframe⟩

end Machine

end Moxie
