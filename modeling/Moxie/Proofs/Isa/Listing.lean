/-
# Moxie.Proofs.Isa.Listing — what can be told from a listing line.

A line shows the mnemonic and, by the opcode, some of the operand fields: `Opcode.shown` is the
table.  Two lines are the same exactly when the opcodes are and the shown fields agree
(`text_eq_iff`), and of words without an opcode, when the words are.

The line is taken apart from the left.  No mnemonic has a space in it, so the mnemonic ends at the
first one; no register's name has a comma or a bracket in it, so the name ends there; and numbers
can be told apart.
-/
import Mathlib.Algebra.Ring.Nat
import Moxie.Isa.Listing

namespace Moxie

/-! ## Lists and texts cut at a separator -/

/-- A row that begins with a separator, or is empty. -/
def OpensWith {α : Type} (c : α) (s : List α) : Prop :=
  ∀ d ∈ s.head?, d = c

/-- What precedes the first separator can be told, and so can the rest. -/
theorem append_inj_of_opensWith {α : Type} [DecidableEq α] {c : α} {x y s t : List α} (hx : c ∉ x)
    (hy : c ∉ y) (hs : OpensWith c s) (ht : OpensWith c t) (h : x ++ s = y ++ t) :
    x = y ∧ s = t := by
  have htake : ∀ x s : List α, c ∉ x → OpensWith c s → (x ++ s).takeWhile (· ≠ c) = x := by
    intro x s hx hs
    rw [List.takeWhile_append_of_pos]
    · cases s with
      | nil => rw [List.takeWhile_nil, List.append_nil]
      | cons d s =>
        obtain rfl : d = c := hs d rfl
        rw [List.takeWhile_cons_of_neg (by simp), List.append_nil]
    · intro d hd
      have hne : d ≠ c := by
        rintro rfl
        exact hx hd
      simpa using hne
  have hxy : x = y := by
    rw [← htake x s hx hs, h, htake y t hy ht]
  subst hxy
  exact ⟨rfl, List.append_cancel_left h⟩

/-- The same of texts: `x` and `y` end where the separator begins. -/
theorem append_inj_of_separator {x y sep s t : String} (c : Char) (hsep : sep.toList.head? = some c)
    (hx : c ∉ x.toList) (hy : c ∉ y.toList) (h : x ++ sep ++ s = y ++ sep ++ t) :
    x = y ∧ s = t := by
  rw [← String.toList_inj, String.toList_append, String.toList_append, String.toList_append,
    String.toList_append, List.append_assoc, List.append_assoc] at h
  have hopens : ∀ u : String, OpensWith c (sep.toList ++ u.toList) := by
    intro u d hd
    rw [List.head?_append, hsep] at hd
    exact (Option.some.inj hd).symm
  obtain ⟨hxy, hrest⟩ := append_inj_of_opensWith hx hy (hopens s) (hopens t) h
  exact ⟨String.toList_inj.mp hxy, String.toList_inj.mp (List.append_cancel_left hrest)⟩

/-! ## Names and numbers -/

/-- No name of a register has one of the characters in it that may follow it in a line. -/
theorem Register.notMem_name : ∀ r : Register, ',' ∉ r.name.toList ∧ ')' ∉ r.name.toList := by
  decide

/-- A register's name between fixed texts can be told, and so can what follows. -/
theorem Register.name_separated {r q : Register} {lead sep s t : String} (c : Char)
    (hc : c = ',' ∨ c = ')') (hsep : sep.toList.head? = some c) (hlead : c ∉ lead.toList)
    (h : lead ++ r.name ++ sep ++ s = lead ++ q.name ++ sep ++ t) : r = q ∧ s = t := by
  have hname : ∀ p : Register, c ∉ (lead ++ p.name).toList := by
    intro p hmem
    rw [String.toList_append] at hmem
    rcases List.mem_append.mp hmem with hmem | hmem
    · exact hlead hmem
    · rcases hc with rfl | rfl
      · exact (notMem_name p).1 hmem
      · exact (notMem_name p).2 hmem
  obtain ⟨hname, hrest⟩ := append_inj_of_separator c hsep (hname r) (hname q) h
  exact ⟨name_injective r q ((String.append_right_inj lead).mp hname), hrest⟩

/-- Two names between fixed texts can both be told. -/
theorem Register.names_separated {r q u v : Register} {lead sep : String} (c : Char)
    (hc : c = ',' ∨ c = ')') (hsep : sep.toList.head? = some c) (hlead : c ∉ lead.toList) :
    lead ++ r.name ++ sep ++ u.name = lead ++ q.name ++ sep ++ v.name ↔ r = q ∧ u = v := by
  constructor
  · intro h
    obtain ⟨hfirst, hsecond⟩ := name_separated c hc hsep hlead h
    exact ⟨hfirst, name_injective u v hsecond⟩
  · rintro ⟨rfl, rfl⟩
    rfl

/-- The decimal digits of a number tell it. -/
theorem decimal_injective {n m : Nat} (h : toString n = toString m) : n = m := by
  rw [Nat.toString_eq_ofList_toDigits, Nat.toString_eq_ofList_toDigits] at h
  -- reading the digits gives the number back
  rw [← @Nat.ofDigitChars_ten_toDigits n, String.ofList_injective h, Nat.ofDigitChars_ten_toDigits]

namespace Instruction

/-- **`signedWith plus v`** — a number in decimal, with `plus` in front of it where the minus would
be. -/
def signedWith (plus : String) (v : Int) : String :=
  if v < 0 then "-" ++ toString v.natAbs else plus ++ toString v.natAbs

variable {v u : Int}

/-- A number with its sign can be told if the two signs can. -/
theorem signedWith_injective {plus : String}
    (hplus : ∀ n m : Nat, "-" ++ toString n ≠ plus ++ toString m)
    (h : signedWith plus v = signedWith plus u) : v = u := by
  have habs : ∀ {lead : String}, lead ++ toString v.natAbs = lead ++ toString u.natAbs →
      v.natAbs = u.natAbs :=
    fun hab => decimal_injective ((String.append_right_inj _).mp hab)
  unfold signedWith at h
  split at h <;> split at h
  · have := habs h
    omega
  · exact absurd h (hplus _ _)
  · exact absurd h.symm (hplus _ _)
  · have := habs h
    omega

theorem signedText_injective (h : signedText v = signedText u) : v = u := by
  have hplus : ∀ n m : Nat, "-" ++ toString n ≠ "+" ++ toString m := by
    intro n m hnm
    rw [← String.toList_inj, String.toList_append, String.toList_append] at hnm
    exact absurd (List.cons.inj hnm).1 (by decide)
  exact signedWith_injective hplus h

theorem toString_eq_signedWith (v : Int) : toString v = signedWith "" v := by
  cases v with
  | ofNat n => exact String.empty_append.symm
  | negSucc n => exact (if_pos (Int.negSucc_lt_zero n)).symm

/-- A number without a plus can be told too, since no digit is a minus. -/
theorem toString_int_injective (h : toString v = toString u) : v = u := by
  have hplus : ∀ n m : Nat, "-" ++ toString n ≠ "" ++ toString m := by
    intro n m hnm
    have hminus : '-' ∈ (toString m).toList := by
      rw [← String.empty_append (s := toString m), ← hnm, String.toList_append]
      exact List.mem_append_left _ (by decide)
    rw [Nat.toString_eq_ofList_toDigits, String.toList_ofList] at hminus
    exact absurd (Nat.isDigit_of_mem_toDigits (by decide) (by decide) hminus) (by decide)
  rw [toString_eq_signedWith, toString_eq_signedWith] at h
  exact signedWith_injective hplus h

end Instruction

/-- As many digits as are written tell a number. -/
theorem Hex.lastDigits_injective {k n m : Nat} (h : lastDigits k n = lastDigits k m) :
    n % 16 ^ k = m % 16 ^ k := by
  have hdigit : ∀ x < 16, ∀ y < 16, Nat.digitChar x = Nat.digitChar y → x = y := by
    decide
  induction k generalizing n m with
  | zero => rw [Nat.pow_zero, Nat.mod_one, Nat.mod_one]
  | succ k ih =>
    obtain ⟨hfront, hlast⟩ := List.append_inj' h rfl
    have hlow := hdigit _ (Nat.mod_lt n (by decide)) _ (Nat.mod_lt m (by decide))
      (List.singleton_inj.mp hlast)
    rw [Nat.pow_succ', Nat.mod_mul, Nat.mod_mul, hlow, ih hfront]

theorem Hex.fixed_injective {k n m : Nat} (h : fixed k n = fixed k m) : n % 16 ^ k = m % 16 ^ k :=
  lastDigits_injective (String.ofList_injective ((String.append_right_inj _).mp h))

/-! ## The shown fields -/

/-- An operand field of an instruction word. -/
inductive OperandField where
  | a
  | b
  | value
  deriving DecidableEq

/-- **`op.shown`** — the operand fields that a line with this opcode shows. -/
def Opcode.shown : Opcode → List OperandField
  | .nop | .ret | .brk | .jsra | .jmpa | .swi => []
  | .jsr | .jmp | .loadImmediate _ | .load .absolute _ | .store .absolute _ => [.a]
  | .inc | .dec | .gsr | .ssr => [.a, .value]
  | .branch _ => [.value]
  | .load _ _ | .store _ _ | .compute _ | .cmp | .push | .pop => [.a, .b]

namespace Instruction

/-- **`i.AgreesOn fields j`** — the instructions agree in these fields. -/
structure AgreesOn (i : Instruction) (fields : List OperandField) (j : Instruction) : Prop where
  a : .a ∈ fields → i.a = j.a
  b : .b ∈ fields → i.b = j.b
  value : .value ∈ fields → i.value = j.value

variable {i j : Instruction}

theorem agreesOn_nil : i.AgreesOn [] j := by
  constructor <;> intro h <;> cases h

theorem agreesOn_a_iff : i.AgreesOn [.a] j ↔ i.a = j.a := by
  constructor
  · intro h
    exact h.a (by decide)
  · intro ha
    exact ⟨fun _ => ha, fun h => absurd h (by decide), fun h => absurd h (by decide)⟩

theorem agreesOn_value_iff : i.AgreesOn [.value] j ↔ i.value = j.value := by
  constructor
  · intro h
    exact h.value (by decide)
  · intro hvalue
    exact ⟨fun h => absurd h (by decide), fun h => absurd h (by decide), fun _ => hvalue⟩

theorem agreesOn_a_b_iff : i.AgreesOn [.a, .b] j ↔ i.a = j.a ∧ i.b = j.b := by
  constructor
  · intro h
    exact ⟨h.a (by decide), h.b (by decide)⟩
  · rintro ⟨ha, hb⟩
    exact ⟨fun _ => ha, fun _ => hb, fun h => absurd h (by decide)⟩

theorem agreesOn_a_value_iff : i.AgreesOn [.a, .value] j ↔ i.a = j.a ∧ i.value = j.value := by
  constructor
  · intro h
    exact ⟨h.a (by decide), h.value (by decide)⟩
  · rintro ⟨ha, hvalue⟩
    exact ⟨fun _ => ha, fun h => absurd h (by decide), fun _ => hvalue⟩

/-- **The operands of a line tell the shown fields**, and nothing else. -/
theorem operandText_eq_iff (op : Opcode) :
    operandText op i.a.name i.b.name i.value = operandText op j.a.name j.b.name j.value ↔
      i.AgreesOn op.shown j := by
  have hname : ∀ {r q : Register}, r.name = q.name ↔ r = q :=
    ⟨Register.name_injective _ _, congrArg _⟩
  cases op with
  | nop | brk | ret | jsra | jmpa | swi => exact iff_of_true rfl agreesOn_nil
  | jsr | jmp => exact (String.append_right_inj _).trans (hname.trans agreesOn_a_iff.symm)
  | loadImmediate w =>
    exact (String.append_left_inj _).trans
      ((String.append_right_inj _).trans (hname.trans agreesOn_a_iff.symm))
  | inc | dec | gsr | ssr =>
    refine Iff.trans ?_ agreesOn_a_value_iff.symm
    constructor
    · intro h
      obtain ⟨ha, hvalue⟩ := Register.name_separated ',' (.inl rfl) (by decide) (by decide) h
      exact ⟨ha, toString_int_injective hvalue⟩
    · rintro ⟨ha, hvalue⟩
      rw [ha, hvalue]
      rfl
  | branch r =>
    refine Iff.trans (String.append_right_inj _) (Iff.trans ?_ agreesOn_value_iff.symm)
    exact ⟨signedText_injective, congrArg signedText⟩
  | compute | cmp | push | pop =>
    exact (Register.names_separated ',' (.inl rfl) (by decide) (by decide)).trans
      agreesOn_a_b_iff.symm
  | load m w =>
    cases m with
    | absolute =>
      exact (String.append_left_inj _).trans
        ((String.append_right_inj _).trans (hname.trans agreesOn_a_iff.symm))
    | indirect | offset =>
      exact (String.append_left_inj _).trans
        ((Register.names_separated ',' (.inl rfl) (by decide) (by decide)).trans
          agreesOn_a_b_iff.symm)
  | store m w =>
    cases m with
    | absolute => exact (String.append_right_inj _).trans (hname.trans agreesOn_a_iff.symm)
    | indirect | offset =>
      exact (Register.names_separated ')' (.inr rfl) (by decide) (by decide)).trans
        agreesOn_a_b_iff.symm

/-! ## Whole lines -/

/-- What a line begins with: the mnemonic, or that the word is data. -/
def heading (i : Instruction) : String :=
  match i.opcode with
  | none => ".word"
  | some op => op.mnemonic

/-- What follows on it. -/
def details (i : Instruction) : String :=
  match i.opcode with
  | none => " " ++ Hex.fixed 4 i.word.toNat
  | some op => operandText op i.a.name i.b.name i.value

theorem text_eq (i : Instruction) : i.text = i.heading ++ i.details := by
  unfold text heading details
  cases i.opcode with
  | none => exact (String.append_assoc : ".word" ++ " " ++ _ = _)
  | some op => rfl

/-- No heading has a space in it. -/
theorem notMem_heading (i : Instruction) : ' ' ∉ i.heading.toList := by
  have hall : ∀ op ∈ Opcode.all, ' ' ∉ op.mnemonic.toList := by decide +kernel
  unfold heading
  cases i.opcode with
  | none => decide
  | some op => exact hall op (Opcode.mem_all op)

/-- The operands follow after a space, if there are any. -/
theorem opensWith_operandText (op : Opcode) (a b : String) (value : Int) :
    OpensWith ' ' (operandText op a b value).toList := by
  cases op with
  | load m w => cases m <;> simp [OpensWith, operandText]
  | store m w => cases m <;> simp [OpensWith, operandText]
  | _ => simp [OpensWith, operandText]

theorem opensWith_details (i : Instruction) : OpensWith ' ' i.details.toList := by
  unfold details
  cases i.opcode with
  | none => simp [OpensWith]
  | some op => exact opensWith_operandText op _ _ _

/-- A heading tells the opcode. -/
theorem heading_injective (h : i.heading = j.heading) : i.opcode = j.opcode := by
  have hall : ∀ x ∈ Opcode.all, x.mnemonic ≠ ".word" ∧
      ∀ y ∈ Opcode.all, x.mnemonic = y.mnemonic → x = y := by decide +kernel
  unfold heading at h
  cases hi : i.opcode with
  | none =>
    cases hj : j.opcode with
    | none => rfl
    | some y =>
      rw [hi, hj] at h
      exact absurd h.symm (hall y (Opcode.mem_all y)).1
  | some x =>
    cases hj : j.opcode with
    | none =>
      rw [hi, hj] at h
      exact absurd h (hall x (Opcode.mem_all x)).1
    | some y =>
      rw [hi, hj] at h
      exact congrArg some ((hall x (Opcode.mem_all x)).2 y (Opcode.mem_all y) h)

/-- **A line tells the opcode and the shown fields**, and of a word without an opcode the word. -/
theorem text_eq_iff :
    i.text = j.text ↔ i.opcode = j.opcode ∧ (i.opcode = none → i.word = j.word) ∧
      ∀ op, i.opcode = some op → i.AgreesOn op.shown j := by
  constructor
  · intro h
    rw [text_eq, text_eq, ← String.toList_inj, String.toList_append, String.toList_append] at h
    obtain ⟨hheading, hdetails⟩ := append_inj_of_opensWith i.notMem_heading j.notMem_heading
      i.opensWith_details j.opensWith_details h
    have hop := heading_injective (String.toList_inj.mp hheading)
    rw [String.toList_inj, details, details, ← hop] at hdetails
    refine ⟨hop, ?_, ?_⟩
    · intro hnone
      rw [hnone] at hdetails
      have hword := Hex.fixed_injective ((String.append_right_inj _).mp hdetails)
      have hi : i.word.toNat < 16 ^ 4 := i.word.toNat_lt
      have hj : j.word.toNat < 16 ^ 4 := j.word.toNat_lt
      rw [Nat.mod_eq_of_lt hi, Nat.mod_eq_of_lt hj] at hword
      exact UInt16.toNat_inj.mp hword
    · intro op hsome
      rw [hsome] at hdetails
      exact (operandText_eq_iff op).mp hdetails
  · rintro ⟨hop, hword, hfields⟩
    unfold text
    rw [← hop]
    cases hi : i.opcode with
    | none => rw [hword hi]
    | some op => exact congrArg (op.mnemonic ++ ·) ((operandText_eq_iff op).mpr (hfields op hi))

end Instruction

end Moxie
