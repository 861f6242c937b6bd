/-
# Moxie.Memory.Basic — physical memory as a row of bytes.

A memory is a fixed number of bytes, addressed from zero.  Accesses of any width may start at any
address; values are little-endian.  The one thing that can go wrong is that an access does not lie
inside the memory, and this is judged on natural numbers: an access near the top of the address
space does not wrap around to address zero.

The view through which a memory is reasoned about is `byteAt`.  A memory is determined by its size
and its bytes (`ext_byteAt`), every write is an `overlay` of a list of bytes, and `byteAt_overlay`
says what each position holds afterwards.
-/
import Moxie.Memory.ByteRow
import Moxie.Text.Hex
import Moxie.Word.LittleEndian
import Moxie.Word.Width

namespace Moxie

/-! ## The bytes -/

/-- Physical memory.  Its size is even, at least four (the first stack slot lies four bytes below
the end) and below `2 ^ 32`. -/
structure Memory where
  /-- The contents, by address. -/
  row : ByteRow
  even_size : row.size % 2 = 0
  four_le_size : 4 ≤ row.size
  size_lt : row.size < UInt32.size
  deriving DecidableEq

/-- A size that no memory has. -/
structure InvalidSize where
  /-- The size asked for. -/
  size : Nat
  deriving DecidableEq

/-- The wording of a refused size. -/
def InvalidSize.message (e : InvalidSize) : String :=
  "invalid physical memory size " ++ toString e.size ++
    " (must be even, at least 4 and fit in 32 bits)"

/-- An access that does not lie inside a memory. -/
structure OutOfRange where
  /-- The first address of the access. -/
  address : UInt32
  /-- How many bytes it covers. -/
  length : Nat
  /-- The size of the memory. -/
  size : Nat
  deriving DecidableEq

/-- The wording of an access outside the memory. -/
def OutOfRange.message (e : OutOfRange) : String :=
  "physical access out of range: addr=" ++ Hex.fixed 8 e.address.toNat ++ " len=" ++
    toString e.length ++ " size=" ++ Hex.shortest e.size

namespace Memory

/-- The smallest size a memory can have. -/
def minSize : Nat := 4

/-- How many bytes there are. -/
def size (m : Memory) : Nat :=
  m.row.size

/-- The size as a machine word; by `size_lt` nothing is lost. -/
def sizeWord (m : Memory) : UInt32 :=
  UInt32.ofNat m.size

/-- **`zeroed size`** — a memory of `size` zero bytes, if a memory may have that size. -/
def zeroed (size : Nat) : Except InvalidSize Memory :=
  if h : size % 2 = 0 ∧ minSize ≤ size ∧ size < UInt32.size then
    .ok ⟨.zeros size, by simpa using h.1, by simpa [minSize] using h.2.1, by simpa using h.2.2⟩
  else
    .error ⟨size⟩

/-- **`m.byteAt i`** — the byte at position `i`; zero past the end. -/
def byteAt (m : Memory) (i : Nat) : UInt8 :=
  m.row.get i

/-- **`m.bytes`** — the bytes in order. -/
def bytes (m : Memory) : Array UInt8 :=
  ((List.range m.size).map m.byteAt).toArray

/-- **`m.Fits addr len`** — the `len` bytes from `addr` on lie inside `m`. -/
def Fits (m : Memory) (addr : UInt32) (len : Nat) : Prop :=
  addr.toNat + len ≤ m.size

instance (m : Memory) (addr : UInt32) (len : Nat) : Decidable (m.Fits addr len) :=
  inferInstanceAs (Decidable (_ ≤ _))

/-! ## Laying bytes over a memory -/

/-- `row` with `src` laid over it from position `start` on; what would reach past the end is
dropped. -/
def overlayRow (row : ByteRow) (start : Nat) : List UInt8 → ByteRow
  | [] => row
  | b :: src => overlayRow (row.set start b) (start + 1) src

@[simp]
theorem size_overlayRow (row : ByteRow) (start : Nat) (src : List UInt8) :
    (overlayRow row start src).size = row.size := by
  induction src generalizing row start with
  | nil => rfl
  | cons b src ih => simp [overlayRow, ih]

/-- **`m.overlay start src`** — `m` with `src` laid over it from position `start` on. -/
def overlay (m : Memory) (start : Nat) (src : List UInt8) : Memory where
  row := overlayRow m.row start src
  even_size := by rw [size_overlayRow]; exact m.even_size
  four_le_size := by rw [size_overlayRow]; exact m.four_le_size
  size_lt := by rw [size_overlayRow]; exact m.size_lt

@[simp]
theorem size_overlay (m : Memory) (start : Nat) (src : List UInt8) :
    (m.overlay start src).size = m.size :=
  size_overlayRow ..

/-- Inside the window the bytes laid over are read, outside it the old ones. -/
theorem get_overlayRow {row : ByteRow} {start : Nat} {src : List UInt8}
    (h : start + src.length ≤ row.size) (i : Nat) :
    (overlayRow row start src).get i =
      if start ≤ i ∧ i < start + src.length then src.getD (i - start) 0 else row.get i := by
  induction src generalizing row start with
  | nil =>
    rw [if_neg (by simp only [List.length_nil]; omega)]
    rfl
  | cons b src ih =>
    simp only [List.length_cons] at h
    rw [overlayRow, ih (by rw [ByteRow.size_set]; omega), ByteRow.get_set (by omega)]
    simp only [List.length_cons]
    by_cases hi : i = start
    · subst hi
      rw [if_neg (by omega), if_pos rfl, if_pos (by omega), Nat.sub_self, List.getD_cons_zero]
    · by_cases hw : start + 1 ≤ i ∧ i < start + 1 + src.length
      · rw [if_pos hw, if_pos (by omega)]
        obtain ⟨k, rfl⟩ : ∃ k, i = start + 1 + k := ⟨i - (start + 1), by omega⟩
        rw [show start + 1 + k - start = k + 1 by omega, Nat.add_sub_cancel_left,
          List.getD_cons_succ]
      · rw [if_neg hw, if_neg hi, if_neg (by omega)]

theorem byteAt_overlay {m : Memory} {start : Nat} {src : List UInt8}
    (h : start + src.length ≤ m.size) (i : Nat) :
    (m.overlay start src).byteAt i =
      if start ≤ i ∧ i < start + src.length then src.getD (i - start) 0 else m.byteAt i :=
  get_overlayRow h i

/-- A memory is its size and its bytes. -/
theorem ext_byteAt {m n : Memory} (hsize : m.size = n.size) (h : ∀ i, m.byteAt i = n.byteAt i) :
    m = n := by
  obtain ⟨a, _, _, _⟩ := m
  obtain ⟨b, _, _, _⟩ := n
  obtain rfl : a = b := ByteRow.ext_get hsize h
  rfl

/-! ## Accesses -/

/-- **`m.readBytes addr len`** — the `len` bytes from `addr` on. -/
def readBytes (m : Memory) (addr : UInt32) (len : Nat) : Except OutOfRange (List UInt8) :=
  if m.Fits addr len then
    .ok ((List.range len).map fun i => m.byteAt (addr.toNat + i))
  else
    .error ⟨addr, len, m.size⟩

/-- **`m.storeBytes addr src`** — `m` with `src` written from `addr` on, if it fits. -/
@[inline]
def storeBytes (m : Memory) (addr : UInt32) (src : List UInt8) : Except OutOfRange Memory :=
  if m.Fits addr src.length then
    .ok (m.overlay addr.toNat src)
  else
    .error ⟨addr, src.length, m.size⟩

/-- **`m.read w addr`** — the value of width `w` at `addr`, zero-extended. -/
def read (m : Memory) (w : Width) (addr : UInt32) : Except OutOfRange UInt32 :=
  (m.readBytes addr w.bytes).map LittleEndian.decode

/-- **`m.write w addr v`** — `m` with the low bytes of `v` written at `addr` in width `w`. -/
@[inline]
def write (m : Memory) (w : Width) (addr : UInt32) (v : UInt32) : Except OutOfRange Memory :=
  m.storeBytes addr (LittleEndian.encode w.bytes v)

/-- A one-line summary that leaves the contents out. -/
def summary (m : Memory) : String :=
  "PhysicalMemory \x7b size: " ++ toString m.size ++ ", .. \x7d"

/-- An access fails exactly when it does not fit, and then it says what was asked of what. -/
theorem readBytes_eq_error_iff {m : Memory} {addr : UInt32} {len : Nat} {e : OutOfRange} :
    m.readBytes addr len = .error e ↔ m.size < addr.toNat + len ∧ e = ⟨addr, len, m.size⟩ := by
  unfold readBytes
  split
  · rename_i h
    simp only [reduceCtorEq, false_iff, not_and]
    intro hlt
    exact absurd h (Nat.not_le.2 hlt)
  · rename_i h
    simp only [Except.error.injEq, eq_comm (a := e)]
    exact ⟨fun he => ⟨Nat.not_le.1 h, he⟩, fun he => he.2⟩

theorem storeBytes_eq_ok_iff {m n : Memory} {addr : UInt32} {src : List UInt8} :
    m.storeBytes addr src = .ok n ↔ m.Fits addr src.length ∧ n = m.overlay addr.toNat src := by
  unfold storeBytes
  split
  · rename_i h
    simp [h, eq_comm]
  · rename_i h
    simp [h]

end Memory

end Moxie
