/-
# Moxie.Memory.ByteRow — a row of bytes of a fixed length, kept in blocks.

A row may be as long as an address space, and most of a long row is never touched.  It is therefore
not kept byte by byte but in blocks of 4096, and the blocks of a new row are all one block of zeros:
a block comes to be of its own when a byte in it is set.  Less than a block is left over at the end.

Nothing outside this module looks at the blocks.  A row is told by its size and its bytes
(`ext_get`), and `get_set` says what each position holds after one was set.
-/
namespace Moxie

/-- How many bytes there are in a block. -/
def blockSize : Nat := 4096

/-- A block of bytes. -/
abbrev Block := Vector UInt8 blockSize

namespace Block

/-- **`block.byte i`** — the byte of the block for position `i` of a row. -/
def byte (block : Block) (i : Nat) : UInt8 :=
  have hi : i % blockSize < blockSize := Nat.mod_lt i (by decide)
  block[i % blockSize]

/-- **`block.put i b`** — the block with `b` for position `i` of a row. -/
def put (block : Block) (i : Nat) (b : UInt8) : Block :=
  block.set (i % blockSize) b (Nat.mod_lt i (by decide))

theorem byte_put (block : Block) (i j : Nat) (b : UInt8) :
    (block.put i b).byte j = if j % blockSize = i % blockSize then b else block.byte j := by
  simp only [put, byte, Vector.getElem_set, eq_comm (a := j % blockSize)]

end Block

/-- A row of bytes. -/
structure ByteRow where
  /-- The whole blocks. -/
  blocks : Array Block
  /-- The bytes after the last block. -/
  rest : Array UInt8
  rest_lt : rest.size < blockSize
  deriving DecidableEq

namespace ByteRow

/-- How many bytes there are. -/
def size (r : ByteRow) : Nat :=
  blockSize * r.blocks.size + r.rest.size

/-- **`r.get i`** — the byte at position `i`; zero past the end. -/
def get (r : ByteRow) (i : Nat) : UInt8 :=
  match r.blocks[i / blockSize]? with
  | some block => block.byte i
  | none => r.rest.getD (i - blockSize * r.blocks.size) 0

/-- **`r.set i b`** — `r` with `b` at position `i`; nothing happens past the end. -/
def set (r : ByteRow) (i : Nat) (b : UInt8) : ByteRow :=
  if i / blockSize < r.blocks.size then
    { r with blocks := r.blocks.modify (i / blockSize) (·.put i b) }
  else
    { r with
      rest := r.rest.setIfInBounds (i - blockSize * r.blocks.size) b
      rest_lt := by rw [Array.size_setIfInBounds]; exact r.rest_lt }

/-- **`zeros n`** — a row of `n` zeros. -/
def zeros (n : Nat) : ByteRow where
  blocks := Array.replicate (n / blockSize) (Vector.replicate blockSize 0)
  rest := Array.replicate (n % blockSize) 0
  rest_lt := by rw [Array.size_replicate]; exact Nat.mod_lt n (by decide)

/-! ## Size and bytes -/

@[simp]
theorem size_set (r : ByteRow) (i : Nat) (b : UInt8) : (r.set i b).size = r.size := by
  unfold set
  split
  · simp only [size, Array.size_modify]
  · simp only [size, Array.size_setIfInBounds]

@[simp]
theorem size_zeros (n : Nat) : (zeros n).size = n := by
  simp only [size, zeros, Array.size_replicate]
  exact Nat.div_add_mod n blockSize

/-- A position lies in a block exactly when it lies before the bytes that are left over. -/
theorem div_blockSize_lt_iff (r : ByteRow) (i : Nat) :
    i / blockSize < r.blocks.size ↔ i < blockSize * r.blocks.size := by
  rw [Nat.div_lt_iff_lt_mul (by decide), Nat.mul_comm]

theorem get_of_lt {r : ByteRow} {i : Nat} (h : i / blockSize < r.blocks.size) :
    r.get i = r.blocks[i / blockSize].byte i := by
  rw [get, Array.getElem?_eq_getElem h]

theorem get_of_not_lt {r : ByteRow} {i : Nat} (h : ¬ i / blockSize < r.blocks.size) :
    r.get i = r.rest.getD (i - blockSize * r.blocks.size) 0 := by
  rw [get, Array.getElem?_eq_none (Nat.not_lt.mp h)]

/-- Setting a byte in a block. -/
theorem get_set_of_lt {r : ByteRow} {i : Nat} (hi : i / blockSize < r.blocks.size) (b : UInt8)
    (j : Nat) : (r.set i b).get j = if j = i then b else r.get j := by
  have hset : r.set i b = { r with blocks := r.blocks.modify (i / blockSize) (·.put i b) } :=
    if_pos hi
  have hsize : (r.set i b).blocks.size = r.blocks.size := by
    rw [hset, Array.size_modify]
  by_cases hj : j / blockSize < r.blocks.size
  · rw [get_of_lt (by rwa [hsize]), get_of_lt hj]
    simp only [hset, Array.getElem_modify]
    by_cases hblock : i / blockSize = j / blockSize
    · -- in one block the offsets tell the bytes apart
      have hoffset : j % blockSize = i % blockSize ↔ j = i := by
        refine ⟨fun hmod => ?_, fun hij => congrArg (· % blockSize) hij⟩
        rw [← Nat.div_add_mod j blockSize, ← hblock, hmod, Nat.div_add_mod]
      simp only [if_pos hblock, Block.byte_put, hoffset]
    · have hij : j ≠ i := by
        rintro rfl
        exact hblock rfl
      rw [if_neg hblock, if_neg hij]
  · have hij : j ≠ i := by
      rintro rfl
      exact hj hi
    rw [get_of_not_lt (by rwa [hsize]), get_of_not_lt hj, hsize, if_neg hij, hset]

/-- Setting a byte behind the blocks. -/
theorem get_set_of_not_lt {r : ByteRow} {i : Nat} (hi : ¬ i / blockSize < r.blocks.size)
    (hlt : i < r.size) (b : UInt8) (j : Nat) :
    (r.set i b).get j = if j = i then b else r.get j := by
  have hblocks : (r.set i b).blocks = r.blocks := by
    rw [set, if_neg hi]
  have hrest : (r.set i b).rest = r.rest.setIfInBounds (i - blockSize * r.blocks.size) b := by
    rw [set, if_neg hi]
  by_cases hj : j / blockSize < r.blocks.size
  · have hij : j ≠ i := by
      rintro rfl
      exact hi hj
    rw [get_of_lt (by rwa [hblocks]), get_of_lt hj, if_neg hij]
    simp only [hblocks]
  · rw [get_of_not_lt (by rwa [hblocks]), get_of_not_lt hj, hblocks, hrest]
    rw [div_blockSize_lt_iff] at hi hj
    rw [size] at hlt
    by_cases hij : j = i
    · subst hij
      have hin : j - blockSize * r.blocks.size < r.rest.size := by omega
      rw [if_pos rfl, Array.getD_eq_getD_getElem?, Array.getElem?_setIfInBounds_self_of_lt hin]
      rfl
    · have hne : i - blockSize * r.blocks.size ≠ j - blockSize * r.blocks.size := by omega
      rw [if_neg hij, Array.getD_eq_getD_getElem?, Array.getElem?_setIfInBounds_ne hne,
        Array.getD_eq_getD_getElem?]

/-- **Setting a byte.** -/
theorem get_set {r : ByteRow} {i : Nat} (hi : i < r.size) (b : UInt8) (j : Nat) :
    (r.set i b).get j = if j = i then b else r.get j := by
  by_cases hblock : i / blockSize < r.blocks.size
  · exact get_set_of_lt hblock b j
  · exact get_set_of_not_lt hblock hi b j

theorem get_zeros (n i : Nat) : (zeros n).get i = 0 := by
  by_cases h : i / blockSize < (zeros n).blocks.size
  · rw [get_of_lt h]
    simp only [zeros, Block.byte, Array.getElem_replicate, Vector.getElem_replicate]
  · rw [get_of_not_lt h]
    simp only [zeros, Array.getD_eq_getD_getElem?, Array.getElem?_replicate]
    split <;> rfl

/-! ## Rows told apart -/

/-- Rows of one size have as many blocks, and as many bytes are left over. -/
theorem size_eq_iff {r s : ByteRow} :
    r.size = s.size ↔ r.blocks.size = s.blocks.size ∧ r.rest.size = s.rest.size := by
  have hr := r.rest_lt
  have hs := s.rest_lt
  simp only [size, blockSize] at hr hs ⊢
  omega

/-- A row is its size and its bytes. -/
theorem ext_get {r s : ByteRow} (hsize : r.size = s.size) (h : ∀ i, r.get i = s.get i) : r = s := by
  obtain ⟨hblocks, hrest⟩ := size_eq_iff.mp hsize
  have hblocks' : r.blocks = s.blocks := by
    apply Array.ext hblocks
    intro q hr hs
    apply Vector.ext
    intro k hk
    -- byte `k` of block `q`
    have hdiv : (blockSize * q + k) / blockSize = q := by
      rw [Nat.mul_add_div (by decide), Nat.div_eq_of_lt hk, Nat.add_zero]
    have hmod : (blockSize * q + k) % blockSize = k := by
      rw [Nat.mul_add_mod, Nat.mod_eq_of_lt hk]
    have hbyte := h (blockSize * q + k)
    rw [get_of_lt (by rwa [hdiv]), get_of_lt (by rwa [hdiv])] at hbyte
    simpa only [hdiv, hmod, Block.byte] using hbyte
  have hrest' : r.rest = s.rest := by
    apply Array.ext hrest
    intro k hr hs
    have hbyte := h (blockSize * r.blocks.size + k)
    have hout : ¬ (blockSize * r.blocks.size + k) / blockSize < r.blocks.size := by
      rw [div_blockSize_lt_iff]
      omega
    rw [get_of_not_lt hout, get_of_not_lt (by rwa [← hblocks]), ← hblocks,
      Nat.add_sub_cancel_left] at hbyte
    simpa [Array.getD_eq_getD_getElem?, hr, hs] using hbyte
  cases r
  cases s
  cases hblocks'
  cases hrest'
  rfl

end ByteRow

end Moxie
