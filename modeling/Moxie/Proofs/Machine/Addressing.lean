/-
# Moxie.Proofs.Machine.Addressing — the three addressing modes agree.

A load or a store is the same in every mode once its effective address is known.  That it is `e`, for
a machine whose instruction pointer is past the instruction word, is `m.Addresses mode base e`: the
base register holds it, or the operand behind the word is it, or the two add up to it.  The address
is then computed without a fault and nothing but the instruction pointer moves
(`effectiveAddress_of_addresses`), so what remains is one access to bare memory.

What that access comes to depends on the width and the address only.  A load (`LoadsInto`) gives the
number that stands at the address in digits to base 256, a store (`StoresAt`) lays down the digits
of its value; either of them faults if the access does not fit, and then has done nothing.
-/
import Moxie.Proofs.Machine.Bare
import Moxie.Proofs.Word.Bits

namespace Moxie

/-- Sixteen bits read as signed. -/
theorem Arithmetic.signExtendShort_eq (v : UInt32) :
    signExtendShort v = UInt32.ofInt (Int.bmod v.toNat (2 ^ 16)) := by
  have hsigned : v.toUInt16.toInt16.toBitVec.toInt = Int.bmod v.toNat (2 ^ 16) := by
    rw [BitVec.toInt_eq_toNat_bmod]
    show Int.bmod ((v.toNat % 2 ^ 16 : Nat) : Int) (2 ^ 16) = _
    rw [Int.natCast_emod, Int.emod_bmod]
  rw [← hsigned, ← ofBitVec_ofInt]
  rfl

/-- The register that a store takes its value from. -/
def Mode.source (mode : Mode) (i : Instruction) : Register :=
  match mode with
  | .absolute => i.a
  | .indirect | .offset => i.b

namespace Machine

variable {τ : Type}

/-! ## Effective addresses -/

/-- **`m.Addresses mode base e`** — a load or store in mode `mode` whose base register holds `base`
finds its operand at the instruction pointer, and is to access address `e`. -/
def Addresses (m : Machine Memory τ) (mode : Mode) (base e : UInt32) : Prop :=
  match mode with
  | .indirect => e = base
  | .absolute =>
    m.bus.Fits m.registers.ipAddress 4 ∧ e = m.bus.valueAt .long m.registers.ipAddress
  | .offset =>
    m.bus.Fits m.registers.ipAddress 2 ∧
      e = base + UInt32.ofInt (Int.bmod (m.bus.valueAt .short m.registers.ipAddress).toNat (2 ^ 16))

variable [Observer τ] {m n : Machine Memory τ} {mode : Mode} {base e : UInt32}

/-- The address is computed, and nothing happens but that the operand is passed. -/
theorem effectiveAddress_of_addresses (h : m.Addresses mode base e) :
    ∃ n, Action.effectiveAddress mode base m = .ok e n ∧ m.SameButIp n := by
  cases mode with
  | indirect =>
    obtain rfl : e = base := h
    exact ⟨m, rfl, .refl m⟩
  | absolute =>
    obtain ⟨hfits, rfl⟩ := h
    exact ⟨m.pastOperand, Action.operand_of_fits hfits, m.sameButIp_pastOperand⟩
  | offset =>
    obtain ⟨hfits, rfl⟩ := h
    rw [← Arithmetic.signExtendShort_eq]
    exact ⟨_, Action.bind_of_ok (Action.displacement_of_fits hfits), rfl, rfl, rfl⟩

/-- Where an address is computed, it is the one of the mode. -/
theorem addresses_of_ok (h : Action.effectiveAddress mode base m = .ok e n) :
    m.Addresses mode base e ∧ m.SameButIp n := by
  cases mode with
  | indirect =>
    cases h
    exact ⟨rfl, .refl m⟩
  | absolute =>
    by_cases hfits : m.bus.Fits m.registers.ipAddress 4
    · have h' := (Action.operand_of_fits hfits).symm.trans h
      cases h'
      exact ⟨⟨hfits, rfl⟩, m.sameButIp_pastOperand⟩
    · have h' := (Action.operand_of_not_fits hfits).symm.trans h
      cases h'
  | offset =>
    by_cases hfits : m.bus.Fits m.registers.ipAddress 2
    · have h' := (Action.bind_of_ok (Action.displacement_of_fits hfits)).symm.trans h
      cases h'
      exact ⟨⟨hfits, by rw [Arithmetic.signExtendShort_eq]⟩, rfl, rfl, rfl⟩
    · have h' := (Action.bind_of_error (Action.displacement_of_not_fits hfits)).symm.trans h
      cases h'

/-! ## What loads and stores come to -/

/-- **`m.LoadsInto w e r result`** — a load of width `w` at `e` into register `r` has the result
`result`. -/
inductive LoadsInto (m : Machine Memory τ) (w : Width) (e : UInt32) (r : Register) :
    EStateM.Result Fault (Machine Memory τ) Progress → Prop where
  | loaded {n : Machine Memory τ} {v : UInt32} (hfits : e.toNat + w.bytes ≤ m.bus.size)
      (hv : v.toNat =
        Nat.ofDigits 256 ((List.range w.bytes).map fun i => (m.bus.byteAt (e.toNat + i)).toNat))
      (hregisters : n.registers = { m.registers.set r v with ip := n.registers.ip })
      (hbus : n.bus = m.bus) : LoadsInto m w e r (.ok .running n)
  | missed {n : Machine Memory τ} (hfits : m.bus.size < e.toNat + w.bytes) (hn : m.SameButIp n) :
    LoadsInto m w e r (.error (.access (.outOfRange ⟨e, w.bytes, m.bus.size⟩)) n)

/-- **`m.StoresAt w e v result`** — a store of the value `v` in width `w` at `e` has the result
`result`. -/
inductive StoresAt (m : Machine Memory τ) (w : Width) (e v : UInt32) :
    EStateM.Result Fault (Machine Memory τ) Progress → Prop where
  | stored {n : Machine Memory τ} (hfits : e.toNat + w.bytes ≤ m.bus.size)
      (hsize : n.bus.size = m.bus.size)
      (hbytes : ∀ pos, n.bus.byteAt pos =
        if e.toNat ≤ pos ∧ pos < e.toNat + w.bytes then
          UInt8.ofNat (v.toNat / 256 ^ (pos - e.toNat))
        else m.bus.byteAt pos)
      (hregisters : n.registers = { m.registers with ip := n.registers.ip }) :
    StoresAt m w e v (.ok .running n)
  | missed {n : Machine Memory τ} (hfits : m.bus.size < e.toNat + w.bytes) (hn : m.SameButIp n) :
    StoresAt m w e v (.error (.access (.outOfRange ⟨e, w.bytes, m.bus.size⟩)) n)

/-- **`m.ReadsBack w e v`** — a load of width `w` at `e`, in any mode and made by any machine whose
memory still has the same bytes there, gives `v` without the bits that the width drops. -/
def ReadsBack (m : Machine Memory τ) (w : Width) (e v : UInt32) : Prop :=
  ∀ (n : Machine Memory τ) (i : Instruction) (address : UInt32) (mode : Mode),
    Memory.AgreesOn {pos | e.toNat ≤ pos ∧ pos < e.toNat + w.bytes} m.bus n.bus →
    i.opcode = some (.load mode w) → n.Addresses mode (n.registers.get i.b) e →
      ∃ k, Action.execute i address n = .ok .running k ∧
        (k.registers.get i.a).toNat = v.toNat % 256 ^ w.bytes

end Machine

/-! ## Performing them -/

namespace Action

open Machine

variable {τ : Type} [Observer τ] {m k : Machine Memory τ} {i : Instruction}
  {mode : Mode} {w : Width} {e : UInt32} (address : UInt32)

theorem perform_load (h : effectiveAddress mode (m.registers.get i.b) m = .ok e k) :
    perform (.load mode w) i address m = (readBus w e >>= setRegister i.a) k :=
  (bind_of_ok rfl).trans (bind_of_ok h)

theorem perform_store (h : effectiveAddress mode (m.registers.get i.a) m = .ok e k) :
    perform (.store mode w) i address m = writeBus w e (m.registers.get (mode.source i)) k := by
  cases mode with
  | indirect | absolute | offset => exact (bind_of_ok rfl).trans (bind_of_ok h)

/-- **A load, in any mode.** -/
theorem loadsInto_execute (hop : i.opcode = some (.load mode w))
    (haddresses : m.Addresses mode (m.registers.get i.b) e) :
    m.LoadsInto w e i.a (execute i address m) := by
  obtain ⟨k, heffective, hk⟩ := effectiveAddress_of_addresses haddresses
  -- `k` has the memory of `m`, so whether the access fits does not depend on the mode
  by_cases hfits : m.bus.Fits e w.bytes
  · have hread : (readBus w e >>= setRegister i.a) k =
        .ok () { k with registers := k.registers.set i.a (m.bus.valueAt w e) } := by
      rw [← hk.bus] at hfits ⊢
      exact bind_of_ok (readBus_of_fits hfits)
    rw [execute_of_perform_ok hop ((perform_load address heffective).trans hread)]
    refine .loaded hfits (m.bus.toNat_valueAt w e) ?_ hk.bus
    show k.registers.set i.a _ = _
    rw [hk.registers]
    rfl
  · have hread : (readBus w e >>= setRegister i.a) k = .error (m.bus.miss e w.bytes) k := by
      rw [← hk.bus] at hfits ⊢
      exact bind_of_error (readBus_of_not_fits hfits)
    rw [execute_of_perform_error hop ((perform_load address heffective).trans hread)]
    exact .missed (Nat.not_le.mp hfits) hk

/-- **A store, in any mode.** -/
theorem storesAt_execute (hop : i.opcode = some (.store mode w))
    (haddresses : m.Addresses mode (m.registers.get i.a) e) :
    m.StoresAt w e (m.registers.get (mode.source i)) (execute i address m) := by
  obtain ⟨k, heffective, hk⟩ := effectiveAddress_of_addresses haddresses
  by_cases hfits : m.bus.Fits e w.bytes
  · have hwrite : writeBus w e (m.registers.get (mode.source i)) k =
        .ok () { k with bus := m.bus.put w e (m.registers.get (mode.source i)) } := by
      rw [← hk.bus] at hfits ⊢
      exact writeBus_of_fits hfits
    rw [execute_of_perform_ok hop ((perform_store address heffective).trans hwrite)]
    exact .stored hfits (Memory.size_put ..) (Memory.byteAt_put hfits) hk.registers
  · have hwrite : writeBus w e (m.registers.get (mode.source i)) k =
        .error (m.bus.miss e w.bytes) k := by
      rw [← hk.bus] at hfits ⊢
      exact writeBus_of_not_fits hfits
    rw [execute_of_perform_error hop ((perform_store address heffective).trans hwrite)]
    exact .missed (Nat.not_le.mp hfits) hk

end Action

namespace Machine

variable {τ : Type} [Observer τ] {m n : Machine Memory τ} {w : Width} {e v : UInt32}

/-- What a store has laid down is what any load finds. -/
theorem StoresAt.readsBack {p : Progress} (h : m.StoresAt w e v (.ok p n)) : n.ReadsBack w e v := by
  cases h with
  | stored hfits hsize hbytes hregisters =>
    intro k i address mode hagrees hop haddresses
    have hbyte : ∀ j < w.bytes, k.bus.byteAt (e.toNat + j) =
        (m.bus.put w e v).byteAt (e.toNat + j) := by
      intro j hj
      rw [hagrees.byteAt_eq _ ⟨by omega, by omega⟩, hbytes, Memory.byteAt_put hfits]
    have hvalue : k.bus.valueAt w e = w.truncate v := by
      rw [Memory.valueAt_congr hbyte, Memory.valueAt_put hfits]
    have hfitsk : e.toNat + w.bytes ≤ k.bus.size := by
      rwa [hagrees.size_eq, hsize]
    have hloads := Action.loadsInto_execute address hop haddresses
    generalize Action.execute i address k = result at hloads
    cases hloads with
    | loaded _ hv hregisters hbus =>
      refine ⟨_, rfl, ?_⟩
      rw [hregisters]
      show ((k.registers.set i.a _).get i.a).toNat = _
      rw [Registers.get_set, if_pos rfl, hv, ← Memory.toNat_valueAt, hvalue, Width.toNat_truncate]
    | missed hmisses hn => exact absurd hfitsk (Nat.not_le.mpr hmisses)

/-- **The modes agree.**  On bare memory, what a load or a store comes to is told by its width, by
its effective address and by its registers A and B, in whatever mode the address was given.  A load
fetches the number that stands there or misses the memory, a store lays its source register down
there or misses, and what was stored is what any load of that width finds there. -/
theorem modes_agree (m : Machine Memory τ) (i : Instruction) (address e : UInt32) (mode : Mode)
    (w : Width) :
    (i.opcode = some (.load mode w) → m.Addresses mode (m.registers.get i.b) e →
      m.LoadsInto w e i.a (Action.execute i address m)) ∧
    (i.opcode = some (.store mode w) → m.Addresses mode (m.registers.get i.a) e →
      m.StoresAt w e (m.registers.get (mode.source i)) (Action.execute i address m) ∧
        ∀ p n, Action.execute i address m = .ok p n →
          n.ReadsBack w e (m.registers.get (mode.source i))) := by
  refine ⟨Action.loadsInto_execute address, fun hop haddresses => ?_⟩
  have hstores := Action.storesAt_execute address hop haddresses
  refine ⟨hstores, fun p n h => ?_⟩
  rw [h] at hstores
  exact hstores.readsBack

/-- A machine over ten bytes whose operands were not fetched yet: a displacement of -2 and an
address. -/
def displaced : Machine Memory Unit where
  registers := (Registers.initial.set (.ofField 2) 10).set (.ofField 3) 0xAABBCCDD
  bus := ⟨⟨#[], #[0xFE, 0xFF, 8, 0, 0, 0, 0, 0, 0, 0], by decide⟩, by decide, by decide, by decide⟩
  observer := ()
  completed := 0

/-- A displaced store reaches the last two bytes, and an absolute load finds there what it
stored. -/
theorem displaced_modes_agree :
    let n := (Action.execute (.decode 0x3923) 0).leaves displaced
    displaced.Addresses .offset 10 8 ∧ n.Addresses .absolute 0 8 ∧
      Action.execute (.decode 0x3923) 0 displaced = .ok .running n ∧
      ∃ k, Action.execute (.decode 0x2240) 2 n = .ok .running k ∧
        (k.registers.get (.ofField 4)).toNat = 0xCCDD := by
  intro n
  have hdisplaced : displaced.Addresses .offset 10 8 := ⟨by decide, by decide +kernel⟩
  have habsolute : n.Addresses .absolute 0 8 := ⟨by decide +kernel, by decide +kernel⟩
  have hstore : Action.execute (.decode 0x3923) 0 displaced = .ok .running n := rfl
  have hagree := (modes_agree displaced (.decode 0x3923) 0 8 .offset .short).2 rfl hdisplaced
  have hreads := hagree.2 .running n hstore n (.decode 0x2240) 2 .absolute (.refl _ _) rfl habsolute
  exact ⟨hdisplaced, habsolute, hstore, hreads⟩

end Machine

end Moxie
