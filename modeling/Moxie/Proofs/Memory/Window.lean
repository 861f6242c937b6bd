/-
# Moxie.Proofs.Memory.Window — what stands where in a memory.

`m.Holds pos bs` says that the bytes `bs` lie in `m` from position `pos` on.  Positions are natural
numbers, so a window can be cut in two (`holds_append`) without a thought to the end of the address
space; that the window fits in the memory is part of the statement, and from it the addresses
follow.  Writing makes a window (`holds_overlay`), reading takes one in (`Holds.readBytes`,
`Holds.read`).
-/
import Mathlib.Data.List.GetD
import Moxie.Memory.Basic
import Moxie.Proofs.Word.LittleEndian

namespace Moxie.Memory

variable {m : Memory} {pos : Nat} {bs : List UInt8}

/-- **`m.Holds pos bs`** — the bytes `bs` lie in `m` from position `pos` on. -/
def Holds (m : Memory) (pos : Nat) (bs : List UInt8) : Prop :=
  pos + bs.length ≤ m.size ∧ ∀ i < bs.length, m.byteAt (pos + i) = bs.getD i 0

theorem Holds.le_size (h : m.Holds pos bs) : pos + bs.length ≤ m.size :=
  h.1

/-- **A window in two parts.** -/
theorem holds_append {front rest : List UInt8} :
    m.Holds pos (front ++ rest) ↔ m.Holds pos front ∧ m.Holds (pos + front.length) rest := by
  simp only [Holds, List.length_append]
  constructor
  · rintro ⟨hfit, hbytes⟩
    refine ⟨⟨by omega, fun i hi => ?_⟩, by omega, fun i hi => ?_⟩
    · rw [hbytes i (by omega), List.getD_append _ _ _ _ hi]
    · rw [Nat.add_assoc, hbytes (front.length + i) (by omega),
        List.getD_append_right _ _ _ _ (Nat.le_add_right ..), Nat.add_sub_cancel_left]
  · rintro ⟨⟨_, hfront⟩, hfit, hrest⟩
    refine ⟨by omega, fun i hi => ?_⟩
    by_cases hin : i < front.length
    · rw [hfront i hin, List.getD_append _ _ _ _ hin]
    · have h := hrest (i - front.length) (by omega)
      rw [Nat.add_assoc, Nat.add_sub_cancel' (Nat.not_lt.1 hin)] at h
      rw [h, List.getD_append_right _ _ _ _ (Nat.not_lt.1 hin)]

/-- The address a little into a window, as a machine word. -/
theorem Holds.toNat_add {addr : UInt32} {k : Nat} (h : m.Holds addr.toNat bs)
    (hk : k ≤ bs.length) : (addr + UInt32.ofNat k).toNat = addr.toNat + k := by
  have hfit := h.le_size
  have hsize : m.size < 4294967296 := m.size_lt
  rw [UInt32.toNat_add, UInt32.toNat_ofNat_of_lt' (by simp only [UInt32.size]; omega)]
  exact Nat.mod_eq_of_lt (by omega)

/-! ## Writing and reading -/

/-- What is laid over a memory is there. -/
theorem holds_overlay (h : pos + bs.length ≤ m.size) : (m.overlay pos bs).Holds pos bs := by
  refine ⟨by rwa [size_overlay], fun i hi => ?_⟩
  rw [byteAt_overlay h, if_pos (by omega), Nat.add_sub_cancel_left]

/-- Reading a window gives its bytes. -/
theorem Holds.readBytes {addr : UInt32} (h : m.Holds addr.toNat bs) :
    m.readBytes addr bs.length = .ok bs := by
  have hfits : m.Fits addr bs.length := h.le_size
  rw [Memory.readBytes, if_pos hfits]
  refine congrArg Except.ok (List.ext_getElem (by simp) fun i hi hi' => ?_)
  rw [List.getElem_map, List.getElem_range, h.2 i hi', List.getD_eq_getElem _ _ hi']

/-- Reading where a value was written in the same width gives the value's low bytes. -/
theorem Holds.read {w : Width} {addr v : UInt32}
    (h : m.Holds addr.toNat (LittleEndian.encode w.bytes v)) :
    ∃ r, m.read w addr = .ok r ∧ r.toNat = v.toNat % 256 ^ w.bytes := by
  have hread := h.readBytes
  rw [LittleEndian.length_encode] at hread
  refine ⟨_, by rw [Memory.read, hread]; rfl, ?_⟩
  exact LittleEndian.toNat_decode_encode w.bytes_le_four v

end Moxie.Memory
