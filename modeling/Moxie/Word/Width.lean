/-
# Moxie.Word.Width — the three sizes in which the machine moves data.

Every load, store and zero-extension comes in the same three sizes.  Naming the size once lets the
instruction set, the memory and the bus each say what they do for *a width* instead of three times.
-/
namespace Moxie

/-- The size of one memory access. -/
inductive Width where
  | byte
  | short
  | long
  deriving DecidableEq

namespace Width

/-- How many bytes an access of this width covers. -/
def bytes : Width → Nat
  | .byte => 1
  | .short => 2
  | .long => 4

/-- The bits of a register that an access of this width carries. -/
def mask : Width → UInt32
  | .byte => 0xFF
  | .short => 0xFFFF
  | .long => 0xFFFFFFFF

/-- **`w.truncate v`** — the low bits of `v` that fit in `w`, the rest cleared. -/
def truncate (w : Width) (v : UInt32) : UInt32 :=
  v &&& w.mask

theorem bytes_pos (w : Width) : 0 < w.bytes := by
  cases w <;> decide

theorem bytes_le_four (w : Width) : w.bytes ≤ 4 := by
  cases w <;> decide

end Width

end Moxie
