/-
# Moxie.Proofs.Isa.Program — programs as lines, as bytes, and back.

A `Line` is one instruction as the source of a program states it: the opcode, the operands that go
into its word and the operand that follows the word.  Their types depend on the opcode, so a line
that the instruction set does not have cannot be written down.  `image` assembles lines into bytes;
`Memory.sweep` goes the other way, reading lines one after the other from memory.

The length of a line is known only from its opcode, so a sweep that misread one word would read all
that follows at wrong places.  The induction (`sweep_of_holds`) is therefore over the lines, with
the position as a variable: a line that stands in memory is read back (`lineAt_of_holds`), and its
size is the number of bytes that it was assembled into, which puts the sweep at the next line.
-/
import Moxie.Memory.Image
import Moxie.Proofs.Isa.Encoding
import Moxie.Proofs.Memory.Window

namespace Moxie

/-! ## Lines -/

/-- The operand of so many words that follows an instruction word. -/
inductive Operand : Nat → Type where
  /-- No operand. -/
  | none : Operand 0
  /-- A displacement. -/
  | offset (v : UInt16) : Operand 1
  /-- An immediate or an address. -/
  | long (v : UInt32) : Operand 2
  deriving DecidableEq

/-- One instruction of a program. -/
structure Line where
  /-- The operation. -/
  opcode : Opcode
  /-- What its word carries besides the opcode. -/
  fields : Fields opcode.format
  /-- What follows its word. -/
  operand : Operand opcode.immediateWords
  deriving DecidableEq

/-- The words of an operand as they follow one another. -/
def Operand.words {n : Nat} : Operand n → List UInt16
  | .none => []
  | .offset v => [v]
  | .long v => [(operandWords v).1, (operandWords v).2]

@[simp]
theorem Operand.length_words {n : Nat} (x : Operand n) : x.words.length = n := by
  cases x <;> rfl

namespace Line

/-- **`l.words?`** — the words of a line, if the assembler of its format takes it. -/
def words? (l : Line) : Option (List UInt16) :=
  match l.fields.assemble l.opcode with
  | .ok (some w) => some (w :: l.operand.words)
  | _ => none

/-- How many bytes a line takes. -/
def size (l : Line) : Nat :=
  2 + 2 * l.opcode.immediateWords

theorem words?_eq_some_iff {l : Line} {ws : List UInt16} :
    l.words? = some ws ↔
      ∃ w, l.fields.assemble l.opcode = .ok (some w) ∧ ws = w :: l.operand.words := by
  unfold words?
  split
  · rename_i w h
    simp [h, eq_comm]
  · rename_i h
    simp only [reduceCtorEq, false_iff, not_exists, not_and]
    exact fun w hw => absurd hw (h w)

end Line

/-! ## Images -/

/-- The bytes of words as they lie in memory. -/
def bytesOfWords (ws : List UInt16) : List UInt8 :=
  ws.flatMap fun w => LittleEndian.encode 2 w.toUInt32

@[simp]
theorem bytesOfWords_cons (w : UInt16) (ws : List UInt16) :
    bytesOfWords (w :: ws) = LittleEndian.encode 2 w.toUInt32 ++ bytesOfWords ws := rfl

@[simp]
theorem length_bytesOfWords (ws : List UInt16) : (bytesOfWords ws).length = 2 * ws.length := by
  induction ws with
  | nil => rfl
  | cons w ws ih => simp [ih]; omega

/-- A line is assembled into as many bytes as its size says. -/
theorem Line.length_bytesOfWords {l : Line} {ws : List UInt16} (h : l.words? = some ws) :
    (bytesOfWords ws).length = l.size := by
  obtain ⟨w, -, rfl⟩ := words?_eq_some_iff.1 h
  rw [Moxie.length_bytesOfWords, List.length_cons, Operand.length_words, size]
  omega

/-- The two words of a long operand lie in memory as the long does. -/
theorem bytesOfWords_operandWords (v : UInt32) :
    bytesOfWords [(operandWords v).1, (operandWords v).2] = LittleEndian.encode 4 v := by
  have hhigh : (v >>> 16).toNat = v.toNat / 65536 := by
    rw [UInt32.toNat_shiftRight, Nat.shiftRight_eq_div_pow]
    rfl
  have hlow : v.toUInt16.toUInt32.toNat = v.toNat % 65536 := by simp
  have hlow' : (v >>> 16).toUInt16.toUInt32.toNat = v.toNat / 65536 := by
    have := v.toNat_lt
    simp [hhigh]
    omega
  simp only [bytesOfWords, operandWords, List.flatMap_cons, List.flatMap_nil, List.append_nil,
    LittleEndian.encode, List.cons_append, List.nil_append, List.cons.injEq, and_true,
    ← UInt8.toNat_inj, UInt32.toNat_toUInt8, UInt32.toNat_div, hlow, hlow', UInt32.reduceToNat]
  omega

/-- **`image p`** — the bytes of the program `p`, line after line. -/
def image : List Line → Option (List UInt8)
  | [] => some []
  | l :: rest => do
    let ws ← l.words?
    let bytes ← image rest
    return bytesOfWords ws ++ bytes

theorem image_cons_eq_some_iff {l : Line} {rest : List Line} {bytes : List UInt8} :
    image (l :: rest) = some bytes ↔
      ∃ ws, l.words? = some ws ∧ ∃ tail, image rest = some tail ∧
        bytesOfWords ws ++ tail = bytes := by
  simp [image, Option.bind_eq_some_iff]

/-- Every program has an image. -/
theorem exists_image (p : List Line) : ∃ bytes, image p = some bytes := by
  induction p with
  | nil => exact ⟨[], rfl⟩
  | cons l rest ih =>
    obtain ⟨w, hw⟩ := l.fields.exists_assemble rfl
    obtain ⟨tail, htail⟩ := ih
    have hwords := Line.words?_eq_some_iff.2 ⟨w, hw, rfl⟩
    exact ⟨_, image_cons_eq_some_iff.2 ⟨_, hwords, tail, htail, rfl⟩⟩

/-- An image is made of words. -/
theorem length_image {p : List Line} {bytes : List UInt8} (h : image p = some bytes) :
    bytes.length % 2 = 0 := by
  induction p generalizing bytes with
  | nil =>
    cases h
    rfl
  | cons l rest ih =>
    obtain ⟨ws, -, tail, htail, rfl⟩ := image_cons_eq_some_iff.1 h
    have := ih htail
    rw [List.length_append, length_bytesOfWords]
    omega

/-! ## Reading lines from memory -/

namespace Memory

/-- **`m.operandAt addr n`** — the operand of `n` words at `addr`: none, a short or a long. -/
def operandAt (m : Memory) (addr : UInt32) : (n : Nat) → Option (Operand n)
  | 0 => some .none
  | 1 => (m.read .short addr).toOption.map fun v => .offset v.toUInt16
  | 2 => (m.read .long addr).toOption.map .long
  | _ => none

/-- **`m.lineAt addr`** — the line whose word stands at `addr`, its operand read from the address
after the word. -/
def lineAt (m : Memory) (addr : UInt32) : Option Line := do
  let word ← (m.read .short addr).toOption
  let i := Instruction.decode word.toUInt16
  let op ← i.opcode
  let fields ← Fields.ofInstruction? op.format i
  let operand ← m.operandAt (addr + 2) op.immediateWords
  return ⟨op, fields, operand⟩

/-- **`m.sweep stop pos`** — the lines from position `pos` up to `stop`, and the position after the
last of them. -/
def sweep (m : Memory) (stop pos : Nat) : Option (List Line × Nat) :=
  if pos < stop then do
    let l ← m.lineAt (UInt32.ofNat pos)
    let (rest, last) ← m.sweep stop (pos + l.size)
    return (l :: rest, last)
  else
    some ([], pos)
termination_by stop - pos
decreasing_by
  simp only [Line.size]
  omega

variable {m : Memory}

/-- A word that stands in memory is read back. -/
theorem Holds.read_word {w : UInt16} {addr : UInt32}
    (h : m.Holds addr.toNat (LittleEndian.encode 2 w.toUInt32)) :
    ∃ r, m.read .short addr = .ok r ∧ r.toUInt16 = w := by
  obtain ⟨r, hread, hr⟩ := Holds.read (w := .short) h
  have := w.toNat_lt
  refine ⟨r, hread, ?_⟩
  rw [← UInt16.toNat_inj, UInt32.toNat_toUInt16, hr, UInt16.toNat_toUInt32, Width.bytes]
  omega

/-- An operand that stands in memory is read back. -/
theorem operandAt_of_holds {n : Nat} {x : Operand n} {addr : UInt32}
    (h : m.Holds addr.toNat (bytesOfWords x.words)) : m.operandAt addr n = some x := by
  cases x with
  | none => rfl
  | offset v =>
    obtain ⟨r, hread, rfl⟩ := Holds.read_word h
    rw [operandAt, hread]
    rfl
  | long v =>
    rw [Operand.words, bytesOfWords_operandWords] at h
    obtain ⟨r, hread, hr⟩ := Holds.read (w := .long) h
    have hv : r = v := by
      rw [← UInt32.toNat_inj, hr]
      exact Nat.mod_eq_of_lt v.toNat_lt
    rw [operandAt, hread, hv]
    rfl

/-- **A line that stands in memory is read back.** -/
theorem lineAt_of_holds {l : Line} {ws : List UInt16} {addr : UInt32} (hws : l.words? = some ws)
    (h : m.Holds addr.toNat (bytesOfWords ws)) : m.lineAt addr = some l := by
  obtain ⟨w, hw, rfl⟩ := Line.words?_eq_some_iff.1 hws
  obtain ⟨hformat, hsum⟩ := Fields.assemble_eq_ok_iff.1 hw
  obtain ⟨hop, hfields⟩ := Fields.decode_of_toNat_eq hformat hsum
  rw [bytesOfWords_cons, holds_append, LittleEndian.length_encode] at h
  obtain ⟨hword, htail⟩ := h
  obtain ⟨r, hread, rfl⟩ := hword.read_word
  -- the word ends inside the memory, so the address after it does not wrap around
  have haddr : (addr + 2).toNat = addr.toNat + 2 := hword.toNat_add (k := 2) (by simp)
  have hoperand := operandAt_of_holds (haddr ▸ htail)
  simp only [lineAt, hread, Except.toOption, hop, hfields, hoperand, bind, Option.bind, pure]

/-- A sweep is over where it is to stop. -/
theorem sweep_self (m : Memory) (pos : Nat) : m.sweep pos pos = some ([], pos) := by
  rw [sweep, if_neg (Nat.lt_irrefl pos)]

/-- A sweep that reads a line goes on after it. -/
theorem sweep_of_lineAt {l : Line} {rest : List Line} {stop pos last : Nat} (hpos : pos < stop)
    (hline : m.lineAt (UInt32.ofNat pos) = some l)
    (hrest : m.sweep stop (pos + l.size) = some (rest, last)) :
    m.sweep stop pos = some (l :: rest, last) := by
  rw [sweep, if_pos hpos, hline]
  simp only [Option.bind_eq_bind, Option.bind_some, hrest, pure]

/-- **A program that stands in memory is read back**, up to its last byte and no further. -/
theorem sweep_of_holds {p : List Line} {bytes : List UInt8} {pos : Nat}
    (himage : image p = some bytes) (h : m.Holds pos bytes) :
    m.sweep (pos + bytes.length) pos = some (p, pos + bytes.length) := by
  induction p generalizing bytes pos with
  | nil =>
    cases himage
    exact m.sweep_self pos
  | cons l rest ih =>
    obtain ⟨ws, hws, tail, htail, rfl⟩ := image_cons_eq_some_iff.1 himage
    obtain ⟨hline, hrest⟩ := holds_append.1 h
    have hsize := Line.length_bytesOfWords hws
    -- a line is not empty, so it begins inside the memory and its position is an address
    have hpositive : 0 < l.size := by rw [Line.size]; omega
    have hfit := hline.le_size
    have hpos : (UInt32.ofNat pos).toNat = pos :=
      UInt32.toNat_ofNat_of_lt' (Nat.lt_trans (by omega : pos < m.size) m.size_lt)
    rw [← hpos] at hline
    rw [hsize] at hrest
    rw [List.length_append, hsize, ← Nat.add_assoc]
    exact sweep_of_lineAt (by omega) (lineAt_of_holds hws hline) (ih htail hrest)

/-- A segment that fits and is aligned is placed, and stands in memory afterwards. -/
theorem exists_place {m : Memory} {s : Segment} (haligned : s.Aligned)
    (hfits : m.Fits s.offset s.bytes.length) :
    ∃ n, m.place s = .ok n ∧ n.Holds s.offset.toNat s.bytes := by
  have hstore : m.storeBytes s.offset s.bytes = .ok (m.overlay s.offset.toNat s.bytes) :=
    storeBytes_eq_ok_iff.2 ⟨hfits, rfl⟩
  refine ⟨_, ?_, holds_overlay hfits⟩
  rw [place, if_pos haligned, hstore]
  rfl

end Memory

/-! ## The round trip -/

/-- Five lines with every format and every length of operand in them. -/
def sampleProgram : List Line :=
  [⟨.loadImmediate .long, .register (.ofField 2) (.ofField 0), .long 0xDEADBEEF⟩,
    ⟨.store .offset .short, .register (.ofField 1) (.ofField 2), .offset 0xFFFC⟩,
    ⟨.dec, .shortImmediate (.ofField 2) 255, .none⟩,
    ⟨.branch .ne, .branch (-512) (by decide), .none⟩,
    ⟨.brk, .register (.ofField 0) (.ofField 0), .none⟩]

/-- The image of the sample. -/
def sampleImage : List UInt8 :=
  [0x20, 0x01, 0xEF, 0xBE, 0xAD, 0xDE, 0x12, 0x39, 0xFC, 0xFF, 0xFF, 0x92, 0x00, 0xC6, 0x00, 0x35]

/-- **Programs survive being assembled and loaded, words survive being taken apart.**  Every program
has an image; wherever the image is placed in a memory, at an even offset and where it fits, a sweep
from there reads the program back and ends at the end of the image.  And every assigned word is
what the assembler of its format makes of its decoded fields. -/
theorem sweep_place_image :
    (∀ p : List Line, ∃ bytes, image p = some bytes ∧
      ∀ (m : Memory) (offset : UInt32), offset % 2 = 0 → m.Fits offset bytes.length →
        ∃ n, m.place ⟨offset, bytes⟩ = .ok n ∧
          n.sweep (offset.toNat + bytes.length) offset.toNat =
            some (p, offset.toNat + bytes.length)) ∧
    ∀ (w : UInt16) (op : Opcode), (Instruction.decode w).opcode = some op →
      (Instruction.decode w).format = op.format ∧
      ∃ x, Fields.ofInstruction? op.format (Instruction.decode w) = some x ∧
        x.assemble op = .ok (some w) := by
  refine ⟨fun p => ?_, fun w op h => ⟨Opcode.ofWord_of_ofWord? h, Fields.assemble_of_decode h⟩⟩
  obtain ⟨bytes, himage⟩ := exists_image p
  refine ⟨bytes, himage, fun m offset heven hfits => ?_⟩
  obtain ⟨n, hplace, hholds⟩ := Memory.exists_place (s := ⟨offset, bytes⟩)
    ⟨heven, length_image himage⟩ hfits
  exact ⟨n, hplace, Memory.sweep_of_holds himage hholds⟩

/-- The sample at the end of a memory that it just fits in. -/
theorem sample_sweep_place_image :
    image sampleProgram = some sampleImage ∧
    (∃ n, Memory.place ⟨⟨#[], Array.replicate 20 0, by decide⟩, by decide, by decide, by decide⟩
        ⟨4, sampleImage⟩ = .ok n ∧
      n.sweep 20 4 = some (sampleProgram, 20)) ∧
    ∃ x, Fields.ofInstruction? .branch (Instruction.decode 0xC600) = some x ∧
      x.assemble (.branch .ne) = .ok (some 0xC600) := by
  obtain ⟨hprograms, hwords⟩ := sweep_place_image
  have himage : image sampleProgram = some sampleImage := by decide
  obtain ⟨bytes, hbytes, hplace⟩ := hprograms sampleProgram
  obtain rfl : sampleImage = bytes := Option.some.inj (himage.symm.trans hbytes)
  exact ⟨himage, hplace _ 4 (by decide) (by decide), (hwords 0xC600 (.branch .ne) (by decide)).2⟩

end Moxie
