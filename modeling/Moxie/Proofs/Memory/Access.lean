/-
# Moxie.Proofs.Memory.Access — single accesses, read and write.

An access has two outcomes, and the address, the width and the size of the memory decide between
them.  Where it fits, a read gives the value that stands there (`valueAt`) and a write puts one
there (`put`); where it does not, neither does anything.  `toNat_valueAt` and `byteAt_put` say what
value and which bytes these are, in terms of digits to base 256.

What an access looks at or changes is a window of bytes.  Memories that agree on the window answer a
read alike (`read_congr`), and a write leaves a memory that agrees with the old one everywhere else
(`agreesOn_of_write`).
-/
import Mathlib.Data.Set.Basic
import Moxie.Proofs.Memory.Window

namespace Moxie

/-- Truncation keeps the remainder. -/
theorem Width.toNat_truncate (w : Width) (v : UInt32) :
    (w.truncate v).toNat = v.toNat % 256 ^ w.bytes := by
  rw [truncate, UInt32.toNat_and]
  cases w with
  | byte => exact Nat.and_two_pow_sub_one_eq_mod v.toNat 8
  | short => exact Nat.and_two_pow_sub_one_eq_mod v.toNat 16
  | long => exact Nat.and_two_pow_sub_one_eq_mod v.toNat 32

/-- A register is as wide as a long. -/
theorem Width.truncate_long (v : UInt32) : Width.long.truncate v = v :=
  UInt32.toNat_inj.mp ((toNat_truncate .long v).trans (Nat.mod_eq_of_lt v.toNat_lt))

namespace Memory

variable {m n : Memory} {w : Width} {addr v : UInt32}

theorem toNat_sizeWord (m : Memory) : m.sizeWord.toNat = m.size :=
  UInt32.toNat_ofNat_of_lt' m.size_lt

/-- What lies in a memory is decided by its size. -/
theorem fits_congr (h : n.size = m.size) {len : Nat} : n.Fits addr len ↔ m.Fits addr len := by
  rw [Fits, Fits, h]

/-! ## Reads -/

/-- **`m.valueAt w addr`** — the value of width `w` at `addr`, zero-extended; past the end of the
memory there are zeros. -/
def valueAt (m : Memory) (w : Width) (addr : UInt32) : UInt32 :=
  LittleEndian.decode ((List.range w.bytes).map fun i => m.byteAt (addr.toNat + i))

theorem read_of_fits (h : m.Fits addr w.bytes) : m.read w addr = .ok (m.valueAt w addr) := by
  rw [read, readBytes, if_pos h]
  rfl

theorem read_of_not_fits (h : ¬ m.Fits addr w.bytes) :
    m.read w addr = .error ⟨addr, w.bytes, m.size⟩ := by
  rw [read, readBytes, if_neg h]
  rfl

/-- A read fails exactly when it does not fit, and then it says what was asked of what. -/
theorem read_eq_error_iff {e : OutOfRange} :
    m.read w addr = .error e ↔ m.size < addr.toNat + w.bytes ∧ e = ⟨addr, w.bytes, m.size⟩ := by
  by_cases h : m.Fits addr w.bytes
  · rw [read_of_fits h]
    exact ⟨nofun, fun he => absurd h (Nat.not_le.mpr he.1)⟩
  · rw [read_of_not_fits h, Except.error.injEq, eq_comm (a := e)]
    exact ⟨fun he => ⟨Nat.not_le.mp h, he⟩, fun he => he.2⟩

/-- The value at an address is the number whose digits stand there. -/
theorem toNat_valueAt (m : Memory) (w : Width) (addr : UInt32) :
    (m.valueAt w addr).toNat =
      Nat.ofDigits 256 ((List.range w.bytes).map fun i => (m.byteAt (addr.toNat + i)).toNat) := by
  rw [valueAt, LittleEndian.toNat_decode, List.map_map]
  · rfl
  · rw [List.length_map, List.length_range]
    exact w.bytes_le_four

theorem valueAt_congr (h : ∀ i < w.bytes, n.byteAt (addr.toNat + i) = m.byteAt (addr.toNat + i)) :
    n.valueAt w addr = m.valueAt w addr :=
  congrArg LittleEndian.decode (List.map_congr_left fun i hi => h i (List.mem_range.mp hi))

/-! ## Writes -/

/-- **`m.put w addr v`** — `m` with the low bytes of `v` laid over it at `addr` in width `w`. -/
def put (m : Memory) (w : Width) (addr v : UInt32) : Memory :=
  m.overlay addr.toNat (LittleEndian.encode w.bytes v)

@[simp]
theorem size_put (m : Memory) (w : Width) (addr v : UInt32) : (m.put w addr v).size = m.size :=
  size_overlay ..

theorem write_of_fits (h : m.Fits addr w.bytes) : m.write w addr v = .ok (m.put w addr v) := by
  rw [write, storeBytes, if_pos (by rwa [LittleEndian.length_encode])]
  rfl

theorem write_of_not_fits (h : ¬ m.Fits addr w.bytes) :
    m.write w addr v = .error ⟨addr, w.bytes, m.size⟩ := by
  rw [write, storeBytes, if_neg (by rwa [LittleEndian.length_encode]), LittleEndian.length_encode]

/-- So does a write. -/
theorem write_eq_error_iff {e : OutOfRange} :
    m.write w addr v = .error e ↔ m.size < addr.toNat + w.bytes ∧ e = ⟨addr, w.bytes, m.size⟩ := by
  by_cases h : m.Fits addr w.bytes
  · rw [write_of_fits h]
    exact ⟨nofun, fun he => absurd h (Nat.not_le.mpr he.1)⟩
  · rw [write_of_not_fits h, Except.error.injEq, eq_comm (a := e)]
    exact ⟨fun he => ⟨Nat.not_le.mp h, he⟩, fun he => he.2⟩

/-- **A value is put down as its digits**, and nothing else changes. -/
theorem byteAt_put (h : m.Fits addr w.bytes) (pos : Nat) :
    (m.put w addr v).byteAt pos =
      if addr.toNat ≤ pos ∧ pos < addr.toNat + w.bytes then
        UInt8.ofNat (v.toNat / 256 ^ (pos - addr.toNat))
      else m.byteAt pos := by
  have hlength : addr.toNat + (LittleEndian.encode w.bytes v).length ≤ m.size := by
    rwa [LittleEndian.length_encode]
  rw [put, byteAt_overlay hlength, LittleEndian.length_encode]
  by_cases hin : addr.toNat ≤ pos ∧ pos < addr.toNat + w.bytes
  · have hlt : pos - addr.toNat < ((List.range w.bytes).map fun k =>
        UInt8.ofNat (v.toNat / 256 ^ k)).length := by
      rw [List.length_map, List.length_range]
      omega
    rw [if_pos hin, if_pos hin, LittleEndian.encode_eq_map, List.getD_eq_getElem _ _ hlt,
      List.getElem_map, List.getElem_range]
  · rw [if_neg hin, if_neg hin]

/-- What was put is read back, without the bits that the width drops. -/
theorem valueAt_put (h : m.Fits addr w.bytes) : (m.put w addr v).valueAt w addr = w.truncate v := by
  have hholds : (m.put w addr v).Holds addr.toNat (LittleEndian.encode w.bytes v) :=
    holds_overlay (by rwa [LittleEndian.length_encode])
  have hfits : (m.put w addr v).Fits addr w.bytes := (fits_congr (size_put ..)).mpr h
  obtain ⟨r, hread, hr⟩ := hholds.read
  rw [read_of_fits hfits] at hread
  rw [Except.ok.inj hread]
  exact UInt32.toNat_inj.mp (hr.trans (w.toNat_truncate v).symm)

/-! ## Memories that agree -/

/-- **`m.Covers addr len i`** — byte `i` is one of the `len` bytes from `addr` on, and all of those
lie in `m`. -/
def Covers (m : Memory) (addr : UInt32) (len i : Nat) : Prop :=
  m.Fits addr len ∧ addr.toNat ≤ i ∧ i < addr.toNat + len

/-- **`AgreesOn s m n`** — memories of one size that hold the same bytes at the positions in `s`. -/
structure AgreesOn (s : Set Nat) (m n : Memory) : Prop where
  size_eq : n.size = m.size
  byteAt_eq : ∀ i ∈ s, n.byteAt i = m.byteAt i

theorem AgreesOn.mono {s t : Set Nat} {m n : Memory} (h : AgreesOn t m n) (hst : s ⊆ t) :
    AgreesOn s m n :=
  ⟨h.size_eq, fun i hi => h.byteAt_eq i (hst hi)⟩

theorem AgreesOn.refl (s : Set Nat) (m : Memory) : AgreesOn s m m :=
  ⟨rfl, fun _ _ => rfl⟩

theorem AgreesOn.trans {s : Set Nat} {l m n : Memory} (h : AgreesOn s l m) (h' : AgreesOn s m n) :
    AgreesOn s l n :=
  ⟨h'.size_eq.trans h.size_eq, fun i hi => (h'.byteAt_eq i hi).trans (h.byteAt_eq i hi)⟩

/-- A read looks at the bytes it covers and at nothing else but the size. -/
theorem read_congr (hsize : n.size = m.size)
    (h : ∀ i, m.Covers addr w.bytes i → n.byteAt i = m.byteAt i) :
    n.read w addr = m.read w addr := by
  by_cases hfit : m.Fits addr w.bytes
  · rw [read_of_fits hfit, read_of_fits ((fits_congr hsize).mpr hfit)]
    exact congrArg Except.ok (valueAt_congr fun i hi => h _ ⟨hfit, by omega, by omega⟩)
  · rw [read_of_not_fits hfit, read_of_not_fits (mt (fits_congr hsize).mp hfit), hsize]

/-- **A write, exactly**: it happens when it fits, keeps the size, and changes covered bytes
only. -/
theorem agreesOn_of_write (h : m.write w addr v = .ok n) :
    m.Fits addr w.bytes ∧ AgreesOn {i | i < addr.toNat ∨ addr.toNat + w.bytes ≤ i} m n := by
  by_cases hfit : m.Fits addr w.bytes
  · rw [write_of_fits hfit] at h
    cases h
    refine ⟨hfit, size_put .., fun i hi => ?_⟩
    rw [byteAt_put hfit, if_neg]
    rcases hi with hi | hi <;> omega
  · rw [write_of_not_fits hfit] at h
    cases h

end Memory

end Moxie
