/-
# Moxie.Proofs.Isa.Encoding — an instruction word is a pattern plus an operand.

The opcode bits of a word are its high bits and the operand bits its low ones, so a word of opcode
`op` is the number `op.bits + x` for some `x` below the span of `op`'s format
(`ofWord?_eq_some_iff_exists`).  All of encoding and decoding is read off that sum: the assemblers
say which `x` they put there, `decode` says which fields an `x` stands for, and the two agree
because an operand below the span is determined by its fields.

- `registerWord_eq_ok_iff`, `immediateWord_eq_ok_iff`, `branchWord_eq_ok_iff` — what is assembled.
- `decode_register`, `decode_shortImmediate`, `decode_branch` — what is taken apart.
-/
import Moxie.Isa.Assembly
import Moxie.Proofs.Word.Bits

namespace Moxie

/-! ## High bits and low bits -/

/-- Words without a common bit are put together by addition. -/
theorem toNat_or_of_lt {p x : UInt16} (k : Nat) (hp : p.toNat % 2 ^ k = 0)
    (hx : x.toNat < 2 ^ k) : (p ||| x).toNat = p.toNat + x.toNat := by
  have hp' : p.toNat = 2 ^ k * (p.toNat / 2 ^ k) :=
    (Nat.mul_div_cancel' (Nat.dvd_of_mod_eq_zero hp)).symm
  rw [UInt16.toNat_or, hp', Nat.two_pow_add_eq_or_of_lt hx]

namespace Format

/-- How many operands share one pattern in a format. -/
def span : Format → Nat
  | .register => 256
  | .shortImmediate => 4096
  | .branch => 1024

theorem span_pos (f : Format) : 0 < f.span := by
  cases f <;> decide

/-- The format is the top two bits of the number. -/
theorem ofWord_eq (w : UInt16) :
    ofWord w =
      if w.toNat / 16384 = 3 then .branch else if w.toNat / 16384 = 2 then .shortImmediate
        else .register := by
  have htop : (w >>> 14).toNat = w.toNat / 16384 := by
    rw [UInt16.toNat_shiftRight, Nat.shiftRight_eq_div_pow]
    rfl
  have hbranch : w >>> 14 = 3 ↔ w.toNat / 16384 = 3 := by rw [← htop, ← UInt16.toNat_inj]; rfl
  have himmediate : w >>> 14 = 2 ↔ w.toNat / 16384 = 2 := by rw [← htop, ← UInt16.toNat_inj]; rfl
  unfold ofWord
  split
  · rename_i h
    rw [if_pos (hbranch.1 h)]
  · rename_i h
    rw [if_neg (by rw [himmediate.1 h]; decide), if_pos (himmediate.1 h)]
  · rename_i hb hi
    rw [if_neg (fun h => hb (hbranch.2 h)), if_neg (fun h => hi (himmediate.2 h))]

/-- Words that differ in an operand only have one format. -/
theorem ofWord_eq_of_div_eq (f : Format) {v w : UInt16}
    (h : v.toNat / f.span = w.toNat / f.span) : ofWord v = ofWord w := by
  have htop : v.toNat / 16384 = w.toNat / 16384 := by
    cases f <;> (simp only [span] at h; omega)
  rw [ofWord_eq, ofWord_eq, htop]

/-- Masking a word takes its operand away. -/
theorem toNat_and_mask (f : Format) (w : UInt16) :
    (w &&& f.mask).toNat = f.span * (w.toNat / f.span) := by
  rw [UInt16.toNat_and]
  cases f with
  | register => exact and_high_bits (w := 16) (k := 8) w.toNat_lt
  | shortImmediate => exact and_high_bits (w := 16) (k := 12) w.toNat_lt
  | branch => exact and_high_bits (w := 16) (k := 10) w.toNat_lt

end Format

namespace Opcode

/-! ## The word of an opcode -/

/-- The pattern of an opcode leaves the operand zero. -/
theorem bits_mod_span (op : Opcode) : op.bits.toNat % op.format.span = 0 := by
  have h := congrArg UInt16.toNat (format_bits op).2
  rw [Format.toNat_and_mask] at h
  rw [← h]
  exact Nat.mul_mod_right ..

/-- A word has opcode `op` exactly when it differs from `op`'s pattern in the operand only. -/
theorem ofWord?_eq_some_iff_div {w : UInt16} {op : Opcode} :
    ofWord? w = some op ↔ w.toNat / op.format.span = op.bits.toNat / op.format.span := by
  rw [ofWord?_eq_some_iff]
  constructor
  · intro h
    -- the mask is that of the word's own format, which has yet to be seen to be the opcode's
    have hbits := congrArg UInt16.toNat h
    rw [Format.toNat_and_mask] at hbits
    have hdiv : op.bits.toNat / (Format.ofWord w).span = w.toNat / (Format.ofWord w).span := by
      rw [hbits, Nat.mul_div_cancel_left _ (Format.span_pos _)]
    have hformat : op.format = Format.ofWord w :=
      (format_bits op).1.symm.trans (Format.ofWord_eq_of_div_eq _ hdiv)
    rw [hformat]
    exact hdiv.symm
  · intro h
    have hformat : Format.ofWord w = op.format :=
      (Format.ofWord_eq_of_div_eq _ h).trans (format_bits op).1
    rw [← UInt16.toNat_inj, hformat, Format.toNat_and_mask, h,
      Nat.mul_div_cancel' (Nat.dvd_of_mod_eq_zero (bits_mod_span op))]

/-- **The word of an opcode.**  A word has opcode `op` exactly when it is `op`'s pattern plus an
operand of `op`'s format. -/
theorem ofWord?_eq_some_iff_exists {w : UInt16} {op : Opcode} :
    ofWord? w = some op ↔ ∃ x < op.format.span, w.toNat = op.bits.toNat + x := by
  rw [ofWord?_eq_some_iff_div]
  have hbits := Nat.mul_div_cancel' (Nat.dvd_of_mod_eq_zero (bits_mod_span op))
  constructor
  · intro h
    refine ⟨w.toNat % op.format.span, Nat.mod_lt _ (Format.span_pos _), ?_⟩
    rw [← hbits, ← h]
    exact (Nat.div_add_mod ..).symm
  · rintro ⟨x, hx, h⟩
    rw [h, ← hbits, Nat.mul_add_div (Format.span_pos _), Nat.div_eq_of_lt hx, Nat.add_zero,
      Nat.mul_div_cancel_left _ (Format.span_pos _)]

/-- An assigned word is in the format of its opcode. -/
theorem ofWord_of_ofWord? {w : UInt16} {op : Opcode} (h : ofWord? w = some op) :
    Format.ofWord w = op.format :=
  (Format.ofWord_eq_of_div_eq _ (ofWord?_eq_some_iff_div.1 h)).trans (format_bits op).1

/-! ## What is assembled -/

/-- An assembler gets past its check exactly on the opcodes of its format. -/
theorem requireFormat_bind_eq_ok_iff {α : Type} {op : Opcode} {f : Format}
    {rest : Unit → Except FormatMismatch α} {r : α} :
    (op.requireFormat f >>= rest) = .ok r ↔ op.format = f ∧ rest () = .ok r := by
  unfold requireFormat
  split
  · rename_i hf
    exact ⟨fun h => ⟨hf, h⟩, fun h => h.2⟩
  · rename_i hf
    exact ⟨nofun, fun h => absurd h.1 hf⟩

/-- A register number moved `k` bits up. -/
theorem toNat_register_shiftLeft (a : Register) {k : UInt16} (hk : k ≤ 8) :
    (UInt16.ofNat a.val <<< k).toNat = a.val * 2 ^ k.toNat := by
  have hk' : k.toNat ≤ 8 := hk
  have hpow : 2 ^ k.toNat ≤ 2 ^ 8 := Nat.pow_le_pow_right (by decide) hk'
  have hlt : a.val * 2 ^ k.toNat < 2 ^ 16 :=
    Nat.lt_of_le_of_lt (Nat.mul_le_mul (Nat.le_of_lt a.isLt) hpow) (by decide)
  rw [UInt16.toNat_shiftLeft, UInt16.toNat_ofNat_of_lt' (Nat.lt_trans a.isLt (by decide)),
    Nat.mod_eq_of_lt (by omega : k.toNat < 16), Nat.shiftLeft_eq, Nat.mod_eq_of_lt hlt]

/-- A pattern, a register number above `k` low bits, and those bits. -/
theorem toNat_pattern_or {op : Opcode} {a : Register} {k low : UInt16} (hk : k ≤ 8)
    (hspan : op.format.span = 16 * 2 ^ k.toNat) (hlow : low.toNat < 2 ^ k.toNat) :
    (op.bits ||| UInt16.ofNat a.val <<< k ||| low).toNat =
      op.bits.toNat + (a.val * 2 ^ k.toNat + low.toNat) := by
  have hbits := bits_mod_span op
  have hpow : 2 ^ (k.toNat + 4) = 16 * 2 ^ k.toNat := by rw [Nat.pow_add, Nat.mul_comm]
  have ha := toNat_register_shiftLeft a hk
  have hhigh : (op.bits ||| UInt16.ofNat a.val <<< k).toNat =
      op.bits.toNat + a.val * 2 ^ k.toNat := by
    rw [toNat_or_of_lt (k.toNat + 4), ha]
    · rw [hpow, ← hspan, hbits]
    · rw [ha, hpow]
      exact Nat.mul_lt_mul_of_pos_right a.isLt (Nat.two_pow_pos _)
  have hdvd : 2 ^ k.toNat ∣ op.format.span := ⟨16, by rw [hspan, Nat.mul_comm]⟩
  have hzero : (op.bits ||| UInt16.ofNat a.val <<< k).toNat % 2 ^ k.toNat = 0 := by
    rw [hhigh, Nat.add_mul_mod_self_right]
    exact Nat.mod_eq_zero_of_dvd (Nat.dvd_trans hdvd (Nat.dvd_of_mod_eq_zero hbits))
  rw [toNat_or_of_lt k.toNat hzero hlow, hhigh, Nat.add_assoc]

/-- The word on two registers carries `16 a + b`. -/
theorem registerWord_eq_ok_iff {op : Opcode} {a b : Register} {w : UInt16} :
    op.registerWord a b = .ok w ↔
      op.format = .register ∧ w.toNat = op.bits.toNat + (16 * a.val + b.val) := by
  unfold registerWord
  rw [requireFormat_bind_eq_ok_iff]
  refine and_congr_right fun hf => ?_
  have hb : (UInt16.ofNat b.val).toNat = b.val :=
    UInt16.toNat_ofNat_of_lt' (Nat.lt_trans b.isLt (by decide))
  have hword : (op.bits ||| UInt16.ofNat a.val <<< 4 ||| UInt16.ofNat b.val).toNat =
      op.bits.toNat + (a.val * 16 + (UInt16.ofNat b.val).toNat) :=
    toNat_pattern_or (k := 4) (by decide) (by rw [hf]; rfl) (by rw [hb]; exact b.isLt)
  rw [hb, Nat.mul_comm] at hword
  rw [← hword, UInt16.toNat_inj, eq_comm (a := w)]
  simp only [pure, Except.pure, Except.ok.injEq]

/-- The word on a register and a byte carries `256 a + v`. -/
theorem immediateWord_eq_ok_iff {op : Opcode} {a : Register} {v : UInt8} {w : UInt16} :
    op.immediateWord a v = .ok w ↔
      op.format = .shortImmediate ∧ w.toNat = op.bits.toNat + (256 * a.val + v.toNat) := by
  unfold immediateWord
  rw [requireFormat_bind_eq_ok_iff]
  refine and_congr_right fun hf => ?_
  have hv : v.toUInt16.toNat = v.toNat := UInt8.toNat_toUInt16 v
  have hword : (op.bits ||| UInt16.ofNat a.val <<< 8 ||| v.toUInt16).toNat =
      op.bits.toNat + (a.val * 256 + v.toUInt16.toNat) :=
    toNat_pattern_or (k := 8) (by decide) (by rw [hf]; rfl) (by rw [hv]; exact v.toNat_lt)
  rw [hv, Nat.mul_comm] at hword
  rw [← hword, UInt16.toNat_inj, eq_comm (a := w)]
  simp only [pure, Except.pure, Except.ok.injEq]

/-- There is a word for exactly the displacements of ten signed bits, and it carries the
displacement modulo 1024. -/
theorem branchWord_eq_ok_iff {op : Opcode} {d : Int} {w : UInt16} :
    op.branchWord d = .ok (some w) ↔
      op.format = .branch ∧ (-512 ≤ d ∧ d ≤ 511) ∧
        w.toNat = op.bits.toNat + (d % 1024).toNat := by
  unfold branchWord
  rw [requireFormat_bind_eq_ok_iff]
  refine and_congr_right fun hf => ?_
  have hbits := bits_mod_span op
  rw [hf, Format.span] at hbits
  have hd : (UInt16.ofInt d &&& 0x3FF).toNat = (d % 1024).toNat := by
    rw [UInt16.toNat_and, UInt16.ofInt,
      UInt16.toNat_ofNat_of_lt' (by simp only [UInt16.size]; omega)]
    exact (Nat.and_two_pow_sub_one_eq_mod _ 10).trans (by omega)
  have hword : (op.bits ||| (UInt16.ofInt d &&& 0x3FF)).toNat =
      op.bits.toNat + (d % 1024).toNat := by
    rw [toNat_or_of_lt 10 hbits (by omega), hd]
  rw [← hword, UInt16.toNat_inj, eq_comm (a := w)]
  simp [pure, Except.pure]

end Opcode

/-! ## What is taken apart -/

namespace Instruction

variable {op : Opcode} {w : UInt16}

/-- A pattern plus an operand is a word of the opcode and of its format. -/
theorem ofWord_of_toNat_eq {x : Nat} (hx : x < op.format.span) (h : w.toNat = op.bits.toNat + x) :
    Opcode.ofWord? w = some op ∧ Format.ofWord w = op.format :=
  have hop := Opcode.ofWord?_eq_some_iff_exists.2 ⟨x, hx, h⟩
  ⟨hop, Opcode.ofWord_of_ofWord? hop⟩

theorem decode_register {a b : Register} (hf : op.format = .register)
    (h : w.toNat = op.bits.toNat + (16 * a.val + b.val)) :
    decode w = ⟨w, some op, a, b, 0⟩ := by
  have hbits := Opcode.bits_mod_span op
  rw [hf, Format.span] at hbits
  obtain ⟨hop, hformat⟩ := ofWord_of_toNat_eq (by rw [hf, Format.span]; omega) h
  rw [hf] at hformat
  have ha : (w >>> 4).toNat % 16 = a.val := by
    rw [UInt16.toNat_shiftRight, Nat.shiftRight_eq_div_pow]
    show w.toNat / 2 ^ 4 % 16 = a.val
    omega
  have hb : w.toNat % 16 = b.val := by omega
  simp only [decode, fieldA, fieldB, fieldValue, hformat, hop, mk.injEq, true_and, and_true]
  exact ⟨Fin.ext ha, Fin.ext hb⟩

theorem decode_shortImmediate {a : Register} {v : UInt8} (hf : op.format = .shortImmediate)
    (h : w.toNat = op.bits.toNat + (256 * a.val + v.toNat)) :
    decode w = ⟨w, some op, a, Register.ofField 0, v.toNat⟩ := by
  have hbits := Opcode.bits_mod_span op
  have hv := v.toNat_lt
  rw [hf, Format.span] at hbits
  obtain ⟨hop, hformat⟩ := ofWord_of_toNat_eq (by rw [hf, Format.span]; omega) h
  rw [hf] at hformat
  have ha : (w >>> 8).toNat % 16 = a.val := by
    rw [UInt16.toNat_shiftRight, Nat.shiftRight_eq_div_pow]
    show w.toNat / 2 ^ 8 % 16 = a.val
    omega
  have hlow : (w &&& 0xFF).toNat = v.toNat := by
    rw [UInt16.toNat_and]
    exact (Nat.and_two_pow_sub_one_eq_mod _ 8).trans (by omega)
  simp only [decode, fieldA, fieldB, fieldValue, hformat, hop, hlow, mk.injEq, true_and, and_true]
  exact Fin.ext ha

theorem decode_branch {d : Int} (hf : op.format = .branch) (hd : -512 ≤ d ∧ d ≤ 511)
    (h : w.toNat = op.bits.toNat + (d % 1024).toNat) :
    decode w = ⟨w, some op, Register.ofField 0, Register.ofField 0, d⟩ := by
  have hbits := Opcode.bits_mod_span op
  rw [hf, Format.span] at hbits
  obtain ⟨hop, hformat⟩ := ofWord_of_toNat_eq (by rw [hf, Format.span]; omega) h
  rw [hf] at hformat
  have hvalue : Int.bmod w.toNat 1024 = d := by
    rw [Int.bmod_def]
    split <;> omega
  simp only [decode, fieldA, fieldB, fieldValue, hformat, hop, hvalue]

end Instruction

/-! ## The operands of a word -/

/-- The operands in an instruction word of a format. -/
inductive Fields : Format → Type where
  /-- Two registers. -/
  | register (a b : Register) : Fields .register
  /-- A register and a byte. -/
  | shortImmediate (a : Register) (v : UInt8) : Fields .shortImmediate
  /-- A displacement in words that ten signed bits can hold. -/
  | branch (d : Int) (bounds : -512 ≤ d ∧ d ≤ 511) : Fields .branch
  deriving DecidableEq

namespace Fields

variable {f : Format} {op : Opcode} {w : UInt16}

/-- The operand bits. -/
def code : Fields f → Nat
  | .register a b => 16 * a.val + b.val
  | .shortImmediate a v => 256 * a.val + v.toNat
  | .branch d _ => (d % 1024).toNat

/-- **`x.assemble op`** — the word of `op` with the operands `x`, by the assembler of their
format. -/
def assemble (op : Opcode) : Fields f → Except FormatMismatch (Option UInt16)
  | .register a b => (op.registerWord a b).map some
  | .shortImmediate a v => (op.immediateWord a v).map some
  | .branch d _ => op.branchWord d

/-- **`ofInstruction? f i`** — the operands of a decoded word, read in the format `f`; there are
none if the value is not one that the format has. -/
def ofInstruction? : (f : Format) → Instruction → Option (Fields f)
  | .register, i => some (.register i.a i.b)
  | .shortImmediate, i =>
    if 0 ≤ i.value ∧ i.value ≤ 255 then some (.shortImmediate i.a (UInt8.ofInt i.value)) else none
  | .branch, i => if h : -512 ≤ i.value ∧ i.value ≤ 511 then some (.branch i.value h) else none

theorem code_lt (x : Fields f) : x.code < f.span := by
  cases x with
  | register a b => simp only [code, Format.span]; omega
  | shortImmediate a v =>
    have := v.toNat_lt
    simp only [code, Format.span]
    omega
  | branch d _ => simp only [code, Format.span]; omega

/-- Every number below the span is the operand bits of some fields. -/
theorem exists_code_eq {n : Nat} (hn : n < f.span) : ∃ x : Fields f, x.code = n := by
  cases f with
  | register =>
    rw [Format.span] at hn
    refine ⟨.register ⟨n / 16, by omega⟩ ⟨n % 16, by omega⟩, ?_⟩
    rw [code]
    exact Nat.div_add_mod n 16
  | shortImmediate =>
    rw [Format.span] at hn
    refine ⟨.shortImmediate ⟨n / 256, by omega⟩ (UInt8.ofNat n), ?_⟩
    rw [code, UInt8.toNat_ofNat']
    exact Nat.div_add_mod n 256
  | branch =>
    rw [Format.span] at hn
    have hmod : Int.bmod n 1024 % 1024 = n := by rw [Int.bmod_def]; split <;> omega
    refine ⟨.branch (Int.bmod n 1024) ?_, by rw [code, hmod]; rfl⟩
    rw [Int.bmod_def]
    split <;> omega

/-- **What is assembled**: the pattern of the opcode plus the operand bits. -/
theorem assemble_eq_ok_iff {x : Fields f} :
    x.assemble op = .ok (some w) ↔ op.format = f ∧ w.toNat = op.bits.toNat + x.code := by
  have hmap : ∀ {r : Except FormatMismatch UInt16}, r.map some = .ok (some w) ↔ r = .ok w := by
    intro r
    cases r <;> simp [Except.map]
  cases x with
  | register a b => exact hmap.trans Opcode.registerWord_eq_ok_iff
  | shortImmediate a v => exact hmap.trans Opcode.immediateWord_eq_ok_iff
  | branch d bounds =>
    exact Opcode.branchWord_eq_ok_iff.trans (and_congr_right fun _ => and_iff_right bounds)

/-- **What is taken apart**: the fields are found again from the sum. -/
theorem decode_of_toNat_eq {x : Fields f} (hf : op.format = f)
    (h : w.toNat = op.bits.toNat + x.code) :
    (Instruction.decode w).opcode = some op ∧ ofInstruction? f (Instruction.decode w) = some x := by
  cases x with
  | register a b =>
    rw [Instruction.decode_register hf h]
    exact ⟨rfl, rfl⟩
  | shortImmediate a v =>
    have hlt := v.toNat_lt
    have hv : UInt8.ofInt v.toNat = v := by
      rw [UInt8.ofInt, ← UInt8.toNat_inj,
        UInt8.toNat_ofNat_of_lt' (by simp only [UInt8.size]; omega)]
      omega
    rw [Instruction.decode_shortImmediate hf h]
    have hbyte : (0 : Int) ≤ v.toNat ∧ (v.toNat : Int) ≤ 255 := by omega
    refine ⟨rfl, ?_⟩
    rw [ofInstruction?, if_pos hbyte, hv]
  | branch d bounds =>
    rw [Instruction.decode_branch hf bounds h]
    exact ⟨rfl, dif_pos bounds⟩

/-- Every line has a word: nothing that the types admit is refused. -/
theorem exists_assemble (x : Fields f) (hf : op.format = f) :
    ∃ w, x.assemble op = .ok (some w) := by
  have hlt : op.bits.toNat + x.code < UInt16.size := by
    -- a pattern is a multiple of the span, so there is room for the operand above it
    have hbits := op.bits_mod_span
    have hword := op.bits.toNat_lt
    have hcode := x.code_lt
    rw [hf] at hbits
    simp only [UInt16.size]
    cases f <;> (simp only [Format.span] at hbits hcode; omega)
  exact ⟨_, assemble_eq_ok_iff.2 ⟨hf, UInt16.toNat_ofNat_of_lt' hlt⟩⟩

/-- **Assembling undoes decoding.**  The operand bits of an assigned word are those of some fields,
and these are the fields that `decode` finds. -/
theorem assemble_of_decode (h : (Instruction.decode w).opcode = some op) :
    ∃ x, ofInstruction? op.format (Instruction.decode w) = some x ∧
      x.assemble op = .ok (some w) := by
  obtain ⟨n, hn, hw⟩ := Opcode.ofWord?_eq_some_iff_exists.1 h
  obtain ⟨x, rfl⟩ := exists_code_eq hn
  exact ⟨x, (decode_of_toNat_eq rfl hw).2, assemble_eq_ok_iff.2 ⟨rfl, hw⟩⟩

end Fields

end Moxie
