/-
# Moxie.Machine.Histogram — which opcodes a run executes, and how often.

A histogram counts fetched instruction words by opcode, fetched words with no opcode, and fetched
32-bit operands.  It only ever counts, so what it shows does not depend on the order of events.

The counts are kept by the leading byte of the opcode's bits, which no two opcodes share
(`leadByte_injective`).
-/
import Moxie.Machine.Event

namespace Moxie

namespace Opcode

/-- The leading byte of an opcode's bits. -/
def leadByte (op : Opcode) : Fin 256 :=
  Fin.ofNat 256 (op.bits >>> 8).toNat

/-- Opcodes differ in their leading byte. -/
theorem leadByte_injective {a b : Opcode} (h : a.leadByte = b.leadByte) : a = b := by
  have key : ∀ x ∈ all, ∀ y ∈ all, x.leadByte = y.leadByte → x = y := by decide +kernel
  exact key a (mem_all a) b (mem_all b) h

end Opcode

/-- Counts of fetched instruction words and operands. -/
structure Histogram where
  /-- The count of each opcode, by its leading byte. -/
  counts : Vector UInt64 256
  /-- Words whose opcode bits are unassigned. -/
  illegal : UInt64
  /-- 32-bit operands. -/
  immediates : UInt64
  deriving DecidableEq

namespace Histogram

/-- The histogram of nothing. -/
def empty : Histogram :=
  ⟨Vector.replicate 256 0, 0, 0⟩

/-- Forget what was counted. -/
def clear (_ : Histogram) : Histogram :=
  .empty

/-- **`h.count op`** — how often `op` was fetched. -/
def count (h : Histogram) (op : Opcode) : UInt64 :=
  h.counts[op.leadByte]

/-- Count one instruction word. -/
def addInstruction (h : Histogram) (i : Instruction) : Histogram :=
  match i.opcode with
  | some op => { h with counts := h.counts.set op.leadByte (h.count op + 1) }
  | none => { h with illegal := h.illegal + 1 }

/-- Count one operand. -/
def addImmediate (h : Histogram) : Histogram :=
  { h with immediates := h.immediates + 1 }

instance : Observer Histogram where
  observe h
    | .fetched i _ => h.addInstruction i
    | .operand _ => h.addImmediate
    | _ => h

/-- Every opcode that was fetched with its count, in ascending order of opcode bits. -/
def entries (h : Histogram) : List (Opcode × UInt64) :=
  (Opcode.all.map fun op => (op, h.count op)).filter fun entry => entry.2 != 0

/-- How many instruction words were fetched. -/
def total (h : Histogram) : UInt64 :=
  (h.entries.map (·.2)).foldr (· + ·) 0 + h.illegal

/-- One entry ranks before another: the greater count first, then the smaller opcode bits. -/
def ranksBefore (x y : Opcode × UInt64) : Bool :=
  y.2 < x.2 || (x.2 == y.2 && x.1.bits ≤ y.1.bits)

/-- **`h.mostFrequent`** — the entries in order of rank. -/
def mostFrequent (h : Histogram) : List (Opcode × UInt64) :=
  h.entries.mergeSort ranksBefore

/-- Counting an instruction adds one to the count of its opcode and leaves the others. -/
theorem count_addInstruction (h : Histogram) (i : Instruction) (op : Opcode) :
    (h.addInstruction i).count op = if i.opcode = some op then h.count op + 1 else h.count op := by
  unfold addInstruction
  cases hi : i.opcode with
  | none => rfl
  | some x =>
    by_cases hx : x = op
    · subst hx
      simp [count]
    · have hne : x.leadByte.val ≠ op.leadByte.val := fun he =>
        hx (Opcode.leadByte_injective (Fin.ext he))
      simp [count, hx, hne]

end Histogram

end Moxie
