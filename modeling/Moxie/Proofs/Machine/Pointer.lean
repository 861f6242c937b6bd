/-
# Moxie.Proofs.Machine.Pointer — stacks kept by any register.

The instructions `push` and `pop` name their pointer, so every register can keep a stack of its own.
A row of pushes through a pointer and as many pops through it are nested like brackets: the last pop
belongs to the first push, and between the two lie the other pushes and pops.  Whatever those do
below the first word, they bring the pointer back to it and leave it as it is.  So the claim about
rows goes by induction on the pushes, with the last pop taken off (`pops_undo_pushes`), and nothing
has to be said about what stands where in between.

A source may be the pointer itself, and then its old value is what is pushed.  Destinations may
repeat, but may not be the pointer.
-/
import Moxie.Proofs.Isa.Encoding
import Moxie.Proofs.Machine.Frames

namespace Moxie

/-- **`onRegisters op a b`** — the instruction that the word of `op` on two registers is decoded
to. -/
def Instruction.onRegisters (op : Opcode) (a b : Register) : Instruction :=
  .decode (op.bits ||| UInt16.ofNat a.val <<< 4 ||| UInt16.ofNat b.val)

/-- That word is the assembled one, and its fields are the two registers. -/
theorem Instruction.onRegisters_eq (op : Opcode) (a b : Register) (hf : op.format = .register) :
    ∃ w, op.registerWord a b = .ok w ∧ onRegisters op a b = decode w ∧
      onRegisters op a b = ⟨w, some op, a, b, 0⟩ := by
  have hword : op.registerWord a b =
      .ok (op.bits ||| UInt16.ofNat a.val <<< 4 ||| UInt16.ofNat b.val) := by
    rw [Opcode.registerWord, Opcode.requireFormat, if_pos hf]
    rfl
  exact ⟨_, hword, rfl, decode_register hf (Opcode.registerWord_eq_ok_iff.mp hword).2⟩

/-! ## Single pushes and pops -/

namespace Machine

variable {τ : Type}

/-- **`m.pushedOn p v`** — the machine after `m` has pushed `v` on the stack whose pointer is
`p`. -/
def pushedOn (m : Machine Memory τ) (p : Register) (v : UInt32) : Machine Memory τ :=
  ⟨m.registers.set p (m.registers.get p - 4), m.bus.put .long (m.registers.get p - 4) v,
    m.observer, m.completed⟩

theorem get_pushedOn (m : Machine Memory τ) (p r : Register) (v : UInt32) :
    (m.pushedOn p v).registers.get r = if r = p then m.registers.get p - 4 else m.registers.get r :=
  Registers.get_set ..

/-- **`m.poppedFrom p c`** — the machine after `m` has popped into `c` from the stack whose pointer
is `p`. -/
def poppedFrom (m : Machine Memory τ) (p c : Register) : Machine Memory τ :=
  m.withRegisters ((m.registers.set p (m.registers.get p + 4)).set c
    (m.bus.valueAt .long (m.registers.get p)))

end Machine

namespace Action

variable {τ : Type} [Observer τ] {m n : Machine Memory τ} {p b c : Register} {address : UInt32}

theorem execute_push_of_fits (h : m.bus.Fits (m.registers.get p - 4) 4) :
    execute (.onRegisters .push p b) address m =
      .ok .running (m.pushedOn p (m.registers.get b)) := by
  obtain ⟨w, -, -, hi⟩ := Instruction.onRegisters_eq .push p b rfl
  have hop : (⟨w, some .push, p, b, 0⟩ : Instruction).opcode = some .push := rfl
  rw [hi]
  refine execute_of_perform_ok hop ?_
  exact (bind_of_ok rfl).trans (bind_of_ok (writeBus_of_fits (w := .long) h))

/-- A push that was performed had room. -/
theorem fits_of_execute_push {q : Progress}
    (h : execute (.onRegisters .push p b) address m = .ok q n) :
    m.bus.Fits (m.registers.get p - 4) 4 := by
  by_contra hfits
  obtain ⟨w, -, -, hi⟩ := Instruction.onRegisters_eq .push p b rfl
  have hmiss : perform .push ⟨w, some .push, p, b, 0⟩ address m =
      .error (m.bus.miss (m.registers.get p - 4) 4) m :=
    (bind_of_ok rfl).trans (bind_of_error (writeBus_of_not_fits (w := .long) hfits))
  rw [hi, execute_of_perform_error rfl hmiss] at h
  cases h

theorem execute_pop_of_fits (h : m.bus.Fits (m.registers.get p) 4) :
    execute (.onRegisters .pop p c) address m = .ok .running (m.poppedFrom p c) := by
  obtain ⟨w, -, -, hi⟩ := Instruction.onRegisters_eq .pop p c rfl
  have hop : (⟨w, some .pop, p, c, 0⟩ : Instruction).opcode = some .pop := rfl
  rw [hi]
  refine execute_of_perform_ok hop ?_
  exact (bind_of_ok rfl).trans (bind_of_ok (readBus_of_fits (w := .long) h))

/-! ## Rows of instructions -/

/-- **`executeAll is`** — perform some instructions in order, each with the address from which its
word was fetched. -/
def executeAll {β : Type} [Bus β] : List (Instruction × UInt32) → Action β τ Unit
  | [] => return ()
  | i :: is => do
    let _ ← execute i.1 i.2
    executeAll is

theorem executeAll_append {β : Type} [Bus β] {m n k : Machine β τ}
    {front rest : List (Instruction × UInt32)} (hfront : executeAll front m = .ok () n)
    (hrest : executeAll rest n = .ok () k) : executeAll (front ++ rest) m = .ok () k := by
  induction front generalizing m with
  | nil =>
    cases hfront
    exact hrest
  | cons i front ih =>
    obtain ⟨q, l, hi, hfront⟩ := exists_of_bind_ok hfront
    exact (bind_of_ok hi).trans (ih hfront)

/-- **`onPointer op p xs`** — a row of instructions `op` on the pointer `p`, each with a register
and an address of its own. -/
def onPointer (op : Opcode) (p : Register) (xs : List (Register × UInt32)) :
    List (Instruction × UInt32) :=
  xs.map fun x => (.onRegisters op p x.1, x.2)

end Action

/-! ## What a row of pushes and pops leaves -/

namespace Machine

variable {τ : Type}

/-- **`m.Rewound p words taken k`** — `k` is `m` again, except in the registers `taken` and in some
words right below the pointer `p`. -/
structure Rewound (m : Machine Memory τ) (p : Register) (words : Nat) (taken : List Register)
    (k : Machine Memory τ) : Prop where
  pointer : k.registers.get p = m.registers.get p
  general : ∀ r, r ≠ p → r ∉ taken → k.registers.get r = m.registers.get r
  others : k.registers = { m.registers with general := k.registers.general }
  observer : k.observer = m.observer
  completed : k.completed = m.completed
  /-- Counting down to the last of the words does not wrap around. -/
  below : 4 * words ≤ (m.registers.get p).toNat
  /-- The words lie in the memory. -/
  inside : ∀ pos, (m.registers.get p).toNat ≤ pos + 4 * words → pos < (m.registers.get p).toNat →
    pos < m.bus.size
  bus : Memory.AgreesOn
    {pos | pos + 4 * words < (m.registers.get p).toNat ∨ (m.registers.get p).toNat ≤ pos}
    m.bus k.bus

/-- Nothing was pushed. -/
theorem Rewound.refl (m : Machine Memory τ) (p : Register) : m.Rewound p 0 [] m where
  pointer := rfl
  general _ _ _ := rfl
  others := rfl
  observer := rfl
  completed := rfl
  below := Nat.zero_le _
  inside _ hle hlt := absurd hlt (Nat.not_lt.mpr hle)
  bus := .refl _ _

variable {m k : Machine Memory τ} {p c : Register} {v : UInt32} {words : Nat}
  {taken : List Register}

/-- The word below the pointer is where it was when the words below that are done with. -/
theorem Rewound.valueAt_eq (h : (m.pushedOn p v).Rewound p words taken k)
    (hfits : m.bus.Fits (m.registers.get p - 4) 4) :
    k.registers.get p = m.registers.get p - 4 ∧
      k.bus.valueAt .long (m.registers.get p - 4) = v := by
  have hpointer : (m.pushedOn p v).registers.get p = m.registers.get p - 4 :=
    (m.get_pushedOn p p v).trans (if_pos rfl)
  refine ⟨h.pointer.trans hpointer, ?_⟩
  have hkept : k.bus.valueAt .long (m.registers.get p - 4) =
      (m.pushedOn p v).bus.valueAt .long (m.registers.get p - 4) := by
    refine Memory.valueAt_congr fun i _ => h.bus.byteAt_eq _ (Or.inr ?_)
    rw [hpointer]
    exact Nat.le_add_right ..
  exact hkept.trans ((Memory.valueAt_put (w := .long) hfits).trans (Width.truncate_long v))

/-- **One bracket more**: a push before, and a pop behind. -/
theorem Rewound.bracket (h : (m.pushedOn p v).Rewound p words taken k)
    (hfits : m.bus.Fits (m.registers.get p - 4) 4) (hc : c ≠ p) :
    m.Rewound p (words + 1) (taken ++ [c]) (k.poppedFrom p c) ∧
      (k.poppedFrom p c).registers.get c = v := by
  obtain ⟨hk, hvalue⟩ := h.valueAt_eq hfits
  have hpointer : (m.pushedOn p v).registers.get p = m.registers.get p - 4 :=
    (m.get_pushedOn p p v).trans (if_pos rfl)
  have hpopped : ∀ r, (k.poppedFrom p c).registers.get r =
      if r = c then v else if r = p then m.registers.get p else k.registers.get r := by
    intro r
    show ((k.registers.set p _).set c _).get r = _
    rw [Registers.get_set, Registers.get_set, hk, hvalue, UInt32.sub_add_cancel]
  have hlow := Memory.toNat_sub_four hfits
  have hend : (m.registers.get p - 4).toNat + 4 ≤ m.bus.size := hfits
  have hbelow := h.below
  rw [hpointer] at hbelow
  refine ⟨⟨?_, ?_, ?_, h.observer, h.completed, ?_, ?_, ?_⟩, ?_⟩
  · rw [hpopped, if_neg hc.symm, if_pos rfl]
  · intro r hr htaken
    rw [List.mem_append, List.mem_singleton, not_or] at htaken
    rw [hpopped, if_neg htaken.2, if_neg hr, h.general r hr htaken.1, get_pushedOn, if_neg hr]
  · exact congrArg
      (fun s : Registers => { s with general := (k.poppedFrom p c).registers.general }) h.others
  · omega
  · intro pos _ hlt
    omega
  · have hput := (Memory.agreesOn_of_write (Memory.write_of_fits (w := .long) (v := v) hfits)).2
    refine Memory.AgreesOn.trans (hput.mono ?_) (h.bus.mono ?_)
    · intro pos hpos
      rcases hpos with hpos | hpos
      · exact Or.inl (by omega)
      · exact Or.inr (by rw [Width.bytes]; omega)
    · intro pos hpos
      rw [hpointer]
      rcases hpos with hpos | hpos
      · exact Or.inl (by omega)
      · exact Or.inr (by omega)
  · rw [hpopped, if_pos rfl]

variable [Observer τ] {n : Machine Memory τ}

/-- **Pops undo pushes.**  Where a row of pushes through a pointer succeeds, as many pops through it
do, and what they leave is the machine from before the pushes, except in their destinations and in
the words that were pushed.  Those lie right below the pointer, in the memory.  Each pop delivers
what its counterpart, counted from the other end, found in its source and stored. -/
theorem pops_undo_pushes (p : Register) (bs cs : List (Register × UInt32))
    (hlength : cs.length = bs.length) (hcs : ∀ c ∈ cs, c.1 ≠ p)
    (h : Action.executeAll (Action.onPointer .push p bs) m = .ok () n) :
    ∃ k, Action.executeAll (Action.onPointer .pop p cs) n = .ok () k ∧
      m.Rewound p bs.length (cs.map (·.1)) k ∧
      ∀ i j b c, i + j + 1 = bs.length → cs[i]? = some c → bs[j]? = some b →
        ∃ before after,
          Action.executeAll (Action.onPointer .push p (bs.take j)) m = .ok () before ∧
          Action.executeAll (Action.onPointer .pop p (cs.take (i + 1))) n = .ok () after ∧
          after.registers.get c.1 = before.registers.get b.1 := by
  induction bs generalizing m cs with
  | nil =>
    obtain rfl := List.eq_nil_of_length_eq_zero hlength
    cases h
    refine ⟨n, rfl, .refl n p, ?_⟩
    intro i j b c hij
    exact absurd hij (Nat.succ_ne_zero _)
  | cons first bs ih =>
    -- the last pop belongs to the first push
    rcases cs.eq_nil_or_concat with rfl | ⟨inner, last, rfl⟩
    · exact absurd hlength.symm (Nat.succ_ne_zero _)
    rw [List.concat_eq_append] at hlength hcs ⊢
    have hinner : inner.length = bs.length := by
      simpa using hlength
    have hlast : last.1 ≠ p := hcs last (by simp)
    obtain ⟨q, l, hpush, hrest⟩ := Action.exists_of_bind_ok h
    have hfits := Action.fits_of_execute_push hpush
    rw [Action.execute_push_of_fits hfits] at hpush
    cases hpush
    obtain ⟨k, hpops, hrewound, hdelivers⟩ :=
      ih inner hinner (fun c hc => hcs c (List.mem_append_left _ hc)) hrest
    obtain ⟨hk, -⟩ := hrewound.valueAt_eq hfits
    have hpop : Action.execute (.onRegisters .pop p last.1) last.2 k =
        .ok .running (k.poppedFrom p last.1) := by
      apply Action.execute_pop_of_fits
      rw [hk, Memory.fits_congr hrewound.bus.size_eq]
      exact (Memory.fits_congr (Memory.size_put ..)).mpr hfits
    have hall : Action.executeAll (Action.onPointer .pop p (inner ++ [last])) n =
        .ok () (k.poppedFrom p last.1) := by
      rw [Action.onPointer, List.map_append]
      exact Action.executeAll_append hpops (Action.bind_of_ok hpop)
    obtain ⟨hbracket, hvalue⟩ := hrewound.bracket hfits hlast
    refine ⟨k.poppedFrom p last.1, hall, ?_, ?_⟩
    · rw [List.map_append]
      exact hbracket
    · intro i j b c hij hi hj
      rw [List.length_cons] at hij
      cases j with
      | zero =>
        obtain rfl : first = b := Option.some.inj hj
        obtain rfl : i = inner.length := by omega
        rw [List.getElem?_concat_length] at hi
        obtain rfl := Option.some.inj hi
        refine ⟨m, k.poppedFrom p last.1, rfl, ?_, hvalue⟩
        rw [List.take_of_length_le (by simp)]
        exact hall
      | succ j =>
        have hlt : i < inner.length := by omega
        rw [List.getElem?_append_left hlt] at hi
        obtain ⟨before, after, hbefore, hafter, heq⟩ := hdelivers i j b c (by omega) hi hj
        refine ⟨before, after, ?_, ?_, heq⟩
        · exact (Action.bind_of_ok (Action.execute_push_of_fits hfits)).trans hbefore
        · rw [List.take_append_of_le_length hlt]
          exact hafter

/-- A machine over sixteen bytes with `$r5` pointing behind the last one. -/
def saving : Machine Memory Unit where
  registers := (Registers.initial.set (.ofField 7) 16).set (.ofField 3) 0xAABBCCDD
  bus := ⟨⟨#[], Array.replicate 16 0, by decide⟩, by decide, by decide, by decide⟩
  observer := ()
  completed := 0

/-- Through `$r5`, itself and then `$r1` are pushed; both are popped into `$r7`, which ends with the
pointer. -/
theorem saving_pops_undo_pushes :
    let bs : List (Register × UInt32) := [(.ofField 7, 100), (.ofField 3, 102)]
    let cs : List (Register × UInt32) := [(.ofField 9, 104), (.ofField 9, 106)]
    let pushes := Action.onPointer .push (.ofField 7) bs
    (∀ c ∈ cs, c.1 ≠ .ofField 7) ∧
      Action.executeAll pushes saving = .ok () ((Action.executeAll pushes).leaves saving) ∧
      ∃ k, Action.executeAll (Action.onPointer .pop (.ofField 7) cs)
          ((Action.executeAll pushes).leaves saving) = .ok () k ∧
        saving.Rewound (.ofField 7) 2 [.ofField 9, .ofField 9] k ∧
        k.registers.get (.ofField 9) = 16 := by
  intro bs cs pushes
  have hcs : ∀ c ∈ cs, c.1 ≠ .ofField 7 :=
    List.forall_mem_cons.mpr ⟨by decide, List.forall_mem_singleton.mpr (by decide)⟩
  have hpushes : Action.executeAll pushes saving =
      .ok () ((Action.executeAll pushes).leaves saving) := by rfl
  obtain ⟨k, hpops, hrewound, hdelivers⟩ := pops_undo_pushes (.ofField 7) bs cs rfl hcs hpushes
  obtain ⟨before, after, hbefore, hafter, heq⟩ := hdelivers 1 0 _ _ rfl rfl rfl
  cases hbefore
  cases hpops.symm.trans hafter
  exact ⟨hcs, hpushes, k, hpops, hrewound, heq⟩

end Machine

end Moxie
