/-
# Moxie.Proofs.Machine.Effects — what an operation may change.

An action changes a machine in few ways: it sets a register, it writes to the bus, it reports an
event, it raises a fault.  Every action may also read and move the instruction pointer, and any
access may fail.  `MadeOf E x` says that `x` is put together from such steps, where `E` has the
effects of the first five kinds.  `Opcode.HasEffect` is the table of what the operations are made
of, and `MadeOf.perform` goes through them once.  Whatever is kept by the steps in `E` is then kept
by the operation, whether it faults or not; the operations need not be gone through again.
-/
import Moxie.Proofs.Machine.Steps

namespace Moxie

/-! ## The table -/

/-- A change that an operation can make.  The instruction pointer is not counted; every operation
may move it. -/
inductive Effect where
  /-- Set a general-purpose register. -/
  | general (r : Register)
  /-- Set a special register. -/
  | special
  /-- Set the comparison. -/
  | comparison
  /-- Write to the bus. -/
  | write
  /-- Report an event. -/
  | report (e : Event)
  /-- Stop with a fault other than that of an access. -/
  | raise (f : Fault)
  deriving DecidableEq

namespace Opcode

/-- **`op.sets i`** — the general-purpose registers that the operation sets when its fields are
those of `i`. -/
def sets (op : Opcode) (i : Instruction) : List Register :=
  match op with
  | .compute _ | .inc | .dec | .push | .loadImmediate _ | .load _ _ | .gsr => [i.a]
  | .pop => [i.a, i.b]
  | .jsr | .jsra | .ret => [.sp, .fp]
  | .nop | .brk | .cmp | .branch _ | .jmp | .jmpa | .store _ _ | .ssr | .swi => []

/-- The operations that write to the bus. -/
def writes : Opcode → Bool
  | .store _ _ | .push | .jsr | .jsra => true
  | _ => false

/-- The events that the operation reports. -/
def reports (op : Opcode) : Event → Prop
  | .operand _ => op.immediateWords = 2
  | .interrupted _ _ => op = .swi
  | _ => False

/-- **`op.canRaise f`** — `f` is of a kind that the operation can raise. -/
def canRaise (op : Opcode) : Fault → Bool
  | .illegalOpcode .. => false
  | .divisionByZero => op ∈ [.compute .div, .compute .mod, .compute .udiv, .compute .umod]
  | .unalignedJump _ => op ∈ [.jmp, .jmpa, .jsr, .jsra]
  | .noSpecialRegister _ => op ∈ [.gsr, .ssr]
  | .softwareInterrupt _ => op = .swi
  | .access _ => true

/-- **`op.HasEffect i e`** — the operation may have the effect `e`.  A software interrupt leaves its
cause in the special registers, although it ends in a fault. -/
def HasEffect (op : Opcode) (i : Instruction) : Effect → Prop
  | .general r => r ∈ op.sets i
  | .special => op = .ssr ∨ op = .swi
  | .comparison => op = .cmp
  | .write => op.writes = true
  | .report e => op.reports e
  | .raise f => op.canRaise f

end Opcode

namespace Action

variable {β τ : Type} [Bus β] [Observer τ]

/-! ## Actions and the steps they are made of -/

/-- **`MadeOf E x`** — `x` is put together from steps that have no other effects than those in
`E`. -/
inductive MadeOf (E : Effect → Prop) : {α : Type} → Action β τ α → Prop where
  | pure {α : Type} (a : α) : MadeOf E (Pure.pure a : Action β τ α)
  | fail {α : Type} {f : Fault} (h : E (.raise f)) : MadeOf E (Action.fail f : Action β τ α)
  | registers : MadeOf E Action.registers
  | move (ip : Registers → UInt32) : MadeOf E (updateRegisters fun s => { s with ip := ip s })
  | setRegister {r : Register} (h : E (.general r)) (v : UInt32) : MadeOf E (Action.setRegister r v)
  | setSpecial (h : E .special) (k : SpecialIndex) (v : UInt32) :
    MadeOf E (updateRegisters (·.setSpecial k v))
  | compare (h : E .comparison) (c : Comparison) :
    MadeOf E (updateRegisters fun s => { s with comparison := c })
  | notify {e : Event} (h : E (.report e)) : MadeOf E (Action.notify e)
  | readBus (w : Width) (addr : UInt32) : MadeOf E (Action.readBus w addr)
  | writeBus (h : E .write) (w : Width) (addr v : UInt32) : MadeOf E (Action.writeBus w addr v)
  | bind {α γ : Type} {x : Action β τ α} {g : α → Action β τ γ} (hx : MadeOf E x)
    (hg : ∀ a, MadeOf E (g a)) : MadeOf E (x >>= g)

namespace MadeOf

variable {E E' : Effect → Prop}

theorem mono (hE : ∀ e, E e → E' e) {α : Type} {x : Action β τ α} (h : MadeOf E x) :
    MadeOf E' x := by
  induction h with
  | pure a => exact .pure a
  | fail h => exact .fail (hE _ h)
  | registers => exact .registers
  | move ip => exact .move ip
  | setRegister h v => exact .setRegister (hE _ h) v
  | setSpecial h k v => exact .setSpecial (hE _ h) k v
  | compare h c => exact .compare (hE _ h) c
  | notify h => exact .notify (hE _ h)
  | readBus w addr => exact .readBus w addr
  | writeBus h w addr v => exact .writeBus (hE _ h) w addr v
  | bind _ _ ihx ihg => exact .bind ihx ihg

theorem goto (target : UInt32) : MadeOf E (Action.goto target : Action β τ Unit) :=
  .move fun _ => target / 2

theorem advance (words : UInt32) : MadeOf E (Action.advance words : Action β τ Unit) :=
  .move fun s => s.ip + words

theorem requireAligned {target : UInt32} (h : E (.raise (.unalignedJump target))) :
    MadeOf E (Action.requireAligned target : Action β τ Unit) := by
  unfold Action.requireAligned
  split
  · exact .pure ()
  · exact .fail h

theorem jump {target : UInt32} (h : E (.raise (.unalignedJump target))) :
    MadeOf E (Action.jump target : Action β τ Unit) :=
  .bind (.requireAligned h) fun _ => .goto target

theorem specialIndex {v : UInt32} (h : E (.raise (.noSpecialRegister v))) :
    MadeOf E (Action.specialIndex v : Action β τ SpecialIndex) := by
  unfold Action.specialIndex
  split
  · exact .pure _
  · exact .fail h

theorem interrupt {number address : UInt32} (h : E .special)
    (hreport : E (.report (.interrupted number address)))
    (hraise : E (.raise (.softwareInterrupt number))) :
    MadeOf E (Action.interrupt number address : Action β τ Unit) := by
  -- setting two registers at once is setting one after the other
  have hset : MadeOf E (updateRegisters fun s =>
      (s.setSpecial SpecialRegister.swiRequestNumber.index number).setSpecial
        SpecialRegister.exceptionTrigger.index ExceptionCause.softwareInterrupt.code :
      Action β τ Unit) :=
    .bind (.setSpecial h _ number) fun _ => .setSpecial h _ _
  exact .bind hset fun _ => .bind (.notify hreport) fun _ => .fail hraise

theorem operand (h : ∀ v, E (.report (.operand v))) :
    MadeOf E (Action.operand : Action β τ UInt32) := by
  refine .bind .registers fun s => .bind (.readBus _ _) fun v => ?_
  exact .bind (.advance 2) fun _ => .bind (.notify (h v)) fun _ => .pure v

theorem displacement : MadeOf E (Action.displacement : Action β τ UInt32) := by
  refine .bind .registers fun s => .bind (.readBus _ _) fun v => ?_
  exact .bind (.advance 1) fun _ => .pure _

theorem effectiveAddress {m : Mode} (h : m = .absolute → ∀ v, E (.report (.operand v)))
    (base : UInt32) : MadeOf E (Action.effectiveAddress m base : Action β τ UInt32) := by
  cases m with
  | indirect => exact .pure base
  | absolute => exact operand (h rfl)
  | offset => exact .bind displacement fun d => .pure (base + d)

section Stack

variable (hsp : E (.general .sp))

include hsp

theorem push (hwrite : E .write) (v : UInt32) : MadeOf E (Action.push v : Action β τ Unit) :=
  .bind .registers fun _ => .bind (.writeBus hwrite _ _ _) fun _ => .setRegister hsp _

theorem pop : MadeOf E (Action.pop : Action β τ UInt32) := by
  refine .bind .registers fun s => .bind (.readBus _ _) fun v => ?_
  exact .bind (.setRegister hsp _) fun _ => .pure v

variable (hfp : E (.general .fp))

include hfp

theorem call (hwrite : E .write) {target : UInt32} (h : E (.raise (.unalignedJump target))) :
    MadeOf E (Action.call target : Action β τ Unit) := by
  have hpush (v : UInt32) : MadeOf E (Action.push v : Action β τ Unit) := push hsp hwrite v
  refine .bind (.requireAligned h) fun _ => .bind .registers fun s => ?_
  refine .bind (hpush _) fun _ => .bind (hpush _) fun _ => .bind (hpush _) fun _ => ?_
  exact .bind .registers fun s => .bind (.setRegister hfp _) fun _ => .goto target

theorem ret : MadeOf E (Action.ret : Action β τ Unit) := by
  refine .bind .registers fun s => .bind (.setRegister hsp _) fun _ => ?_
  refine .bind (pop hsp) fun fp => .bind (.setRegister hfp _) fun _ =>
    .bind (pop hsp) fun address => ?_
  exact .bind (.goto address) fun _ => .bind (pop hsp) fun _ => .pure ()

end Stack

/-- **Every operation keeps to the table.** -/
theorem perform (op : Opcode) (i : Instruction) (address : UInt32) :
    MadeOf (op.HasEffect i) (Action.perform op i address : Action β τ Unit) := by
  refine .bind .registers fun s => ?_
  cases op with
  | nop | brk => exact .pure ()
  | compute c =>
    dsimp only
    cases hc : c.eval (s.get i.a) (s.get i.b) with
    | none =>
      refine .fail ?_
      rcases (Computation.eval_eq_none_iff.mp hc).2 with rfl | rfl | rfl | rfl <;> rfl
    | some v => exact .setRegister (.head _) v
  | inc | dec => exact .setRegister (.head _) _
  | cmp => exact .compare (by rfl) _
  | branch r =>
    dsimp only
    split
    · exact .advance _
    · exact .pure ()
  | jmp => exact .jump (by rfl)
  | jmpa => exact .bind (.operand fun _ => by rfl) fun target => .jump (by rfl)
  | jsr => exact .call (.head _) (.tail _ (.head _)) (by rfl) (by rfl)
  | jsra =>
    refine .bind (.operand fun _ => by rfl) fun target => ?_
    exact .call (.head _) (.tail _ (.head _)) (by rfl) (by rfl)
  | ret => exact .ret (.head _) (.tail _ (.head _))
  | push => exact .bind (.writeBus (by rfl) _ _ _) fun _ => .setRegister (.head _) _
  | pop =>
    refine .bind (.readBus _ _) fun v => ?_
    exact .bind (.setRegister (.head _) _) fun _ => .setRegister (.tail _ (.head _)) v
  | loadImmediate w => exact .bind (.operand fun _ => by rfl) fun v => .setRegister (.head _) _
  | load m w =>
    -- only an absolute address is a 32-bit operand, and reported as one
    have haddress : m = .absolute → (Opcode.load m w).immediateWords = 2 := by rintro rfl; rfl
    refine .bind (.effectiveAddress (fun hm _ => haddress hm) _) fun addr => ?_
    exact .bind (.readBus w addr) fun v => .setRegister (.head _) v
  | store m w =>
    have haddress : m = .absolute → (Opcode.store m w).immediateWords = 2 := by rintro rfl; rfl
    refine .bind (.effectiveAddress (fun hm _ => haddress hm) _) fun addr => ?_
    exact .writeBus (by rfl) w addr _
  | gsr => exact .bind (.specialIndex (by rfl)) fun k => .setRegister (.head _) _
  | ssr => exact .bind (.specialIndex (by rfl)) fun k => .setSpecial (.inl rfl) k _
  | swi =>
    exact .bind (.operand fun _ => by rfl) fun number => .interrupt (.inr rfl) (by rfl) (by rfl)

end MadeOf

end Action

end Moxie
