/-
# Moxie.Word.LittleEndian — words as bytes, least significant byte first.

A word of `n` bytes is stored low byte first.  `encode` takes a word apart and `decode` puts bytes
together; on the `n ≤ 4` low bytes of a 32-bit word they are inverse to each other, and taking a
word apart loses exactly the bits above those bytes.
-/
namespace Moxie.LittleEndian

/-- **`encode n v`** — the `n` low bytes of `v`, least significant first. -/
def encode : Nat → UInt32 → List UInt8
  | 0, _ => []
  | n + 1, v => v.toUInt8 :: encode n (v / 256)

/-- **`decode bs`** — the word whose bytes are `bs`, least significant first. -/
def decode : List UInt8 → UInt32
  | [] => 0
  | b :: bs => b.toUInt32 + 256 * decode bs

@[simp]
theorem length_encode (n : Nat) (v : UInt32) : (encode n v).length = n := by
  induction n generalizing v with
  | zero => rfl
  | succ n ih => simp [encode, ih]

end Moxie.LittleEndian
