/-
# Moxie.Proofs.Machine.Comparisons — conditional branches over whole runs.

A comparison is made by one instruction and read by others, with anything in between.  Only a `cmp`
that completes writes it (`Machine.comparison_next`): all other instructions leave it alone, also
when they fault, and so does a reset.  So after any run it is that of the last `cmp` in the run
(`Machine.comparison_through`), and what a branch does can be told from the operands of that `cmp`.

A run here is a list of episodes.  Between the turns of the machine its bus may be replaced, its
observer and the count too; only its registers are written by nobody but itself.

A branch carries its displacement in ten signed bits.  `Machine.step_of_branch` follows it through
the word that is made of it, the displacement that is decoded from the word, and the sum modulo the
address space.
-/
import Moxie.Proofs.Machine.Inline
import Moxie.Proofs.Isa.Encoding

namespace Moxie

/-! ## What the relations mean -/

namespace Relation

/-- **`r.Holds a b`** — two registers with the values `a` and `b` stand in the relation `r`, as
signed numbers or, in the `u` forms, as unsigned ones. -/
def Holds (r : Relation) (a b : UInt32) : Prop :=
  match r with
  | .eq => a.toInt32.toInt = b.toInt32.toInt
  | .ne => a.toInt32.toInt ≠ b.toInt32.toInt
  | .lt => a.toInt32.toInt < b.toInt32.toInt
  | .gt => a.toInt32.toInt > b.toInt32.toInt
  | .le => a.toInt32.toInt ≤ b.toInt32.toInt
  | .ge => a.toInt32.toInt ≥ b.toInt32.toInt
  | .ltu => a.toNat < b.toNat
  | .gtu => a.toNat > b.toNat
  | .leu => a.toNat ≤ b.toNat
  | .geu => a.toNat ≥ b.toNat

/-- Words differ where they do as signed numbers. -/
theorem holds_ne_iff {a b : UInt32} : ne.Holds a b ↔ a ≠ b := by
  rw [Holds, ne_eq, Int32.toInt_inj]
  exact not_congr ⟨congrArg Int32.toUInt32, congrArg UInt32.toInt32⟩

end Relation

namespace Comparison

/-- **A comparison answers for its operands.** -/
theorem satisfies_of (r : Relation) (a b : UInt32) :
    (of a b).satisfies r = true ↔ r.Holds a b := by
  cases r <;>
    simp [satisfies, of, Relation.Holds, Int.compare_eq_lt, Int.compare_eq_gt, Int.isLE_compare,
      Int.isGE_compare, Nat.compare_eq_lt, Nat.compare_eq_gt, Nat.isLE_compare, Nat.isGE_compare]

/-- Where nothing was compared the relations are those of a value with itself. -/
theorem of_self (v : UInt32) : of v v = equal := by
  simp [of, equal]

end Comparison

namespace Machine

variable {β τ : Type} [Bus β] [Observer τ]

/-! ## What one step does to the comparison -/

/-- **`m.compared`** — the operands of the `cmp` that the next step of `m` completes, if it does
that. -/
def compared (m : Machine β τ) : Option (UInt32 × UInt32) :=
  match m.wordFetch.result, Action.step.answer m with
  | .ok word, .ok _ =>
    let i := Instruction.decode word.toUInt16
    if m.registers.halted = false ∧ i.opcode = some .cmp then
      some (m.registers.get i.a, m.registers.get i.b)
    else none
  | _, _ => none

section Step

variable {m : Machine β τ}

theorem compared_of_halted (h : m.registers.halted = true) : m.compared = none := by
  unfold compared
  split
  · rw [if_neg (by rw [h]; exact fun hnot => Bool.noConfusion hnot.1)]
  · rfl

theorem compared_of_no_word {e : AccessError} (h : m.wordFetch.result = .error e) :
    m.compared = none := by
  rw [compared, h]

theorem compared_of_ne_cmp {word : UInt32} (h : m.wordFetch.result = .ok word)
    (hop : Opcode.ofWord? word.toUInt16 ≠ some .cmp) : m.compared = none := by
  rw [compared, h]
  cases Action.step.answer m with
  | error f => rfl
  | ok p => exact if_neg fun hcmp => hop hcmp.2

theorem compared_of_cmp (hrunning : m.registers.halted = false) {word : UInt32}
    (h : m.wordFetch.result = .ok word) (hop : Opcode.ofWord? word.toUInt16 = some .cmp)
    {p : Progress} (hanswer : Action.step.answer m = .ok p) :
    m.compared = some (m.registers.get (Instruction.decode word.toUInt16).a,
      m.registers.get (Instruction.decode word.toUInt16).b) := by
  rw [compared, h, hanswer]
  exact if_pos ⟨hrunning, hop⟩

/-- The comparison is no business of the writes to registers. -/
theorem untouched_comparison : Action.Untouched (·.comparison) :=
  ⟨fun _ _ _ => rfl, fun _ _ _ => rfl, fun _ _ => rfl⟩

/-- Everything but a `cmp` leaves the comparison as it is, whether it faults or not. -/
theorem comparison_next_of_ne_cmp (hrunning : m.registers.halted = false) {word : UInt32}
    (h : m.wordFetch.result = .ok word) (hne : Opcode.ofWord? word.toUInt16 ≠ some .cmp) :
    m.next.registers.comparison = m.registers.comparison := by
  cases hop : Opcode.ofWord? word.toUInt16 with
  | none =>
    rw [next, Action.leaves_of_error (Action.step_of_illegal hrunning h hop)]
    rfl
  | some op =>
    have hkeeps : Action.Keeps (·.comparison)
        (Action.perform op (.decode word.toUInt16) m.registers.ipAddress : Action β τ Unit) :=
      .perform (untouched_comparison.unmoved
        (fun hcmp => absurd (hop.trans (congrArg some hcmp)) hne) _) _
    have hkept := hkeeps.registers (m.pastFetched word)
    cases hperform : Action.perform op (.decode word.toUInt16) m.registers.ipAddress
      (m.pastFetched word) with
    | ok u n =>
      rw [Action.leaves_of_ok hperform] at hkept
      rw [next, Action.leaves_of_ok (Action.step_of_perform_ok hrunning h hop hperform)]
      exact hkept
    | error f n =>
      rw [Action.leaves_of_error hperform] at hkept
      rw [next, Action.leaves_of_error (Action.step_of_perform_error hrunning h hop hperform)]
      exact hkept

/-- A `cmp` has no way to fault. -/
theorem comparison_next_of_cmp (hrunning : m.registers.halted = false) {word : UInt32}
    (h : m.wordFetch.result = .ok word) (hop : Opcode.ofWord? word.toUInt16 = some .cmp) :
    Action.step.answer m = .ok .running ∧
      m.next.registers.comparison = .of (m.registers.get (Instruction.decode word.toUInt16).a)
        (m.registers.get (Instruction.decode word.toUInt16).b) := by
  have hstep := Action.step_of_perform_ok hrunning h hop rfl
  exact ⟨Action.answer_of_ok hstep, by rw [next, Action.leaves_of_ok hstep]; rfl⟩

/-- **The comparison changes with a completed `cmp` and with nothing else.** -/
theorem comparison_next (m : Machine β τ) :
    m.next.registers.comparison =
      m.compared.elim m.registers.comparison fun p => .of p.1 p.2 := by
  cases hrunning : m.registers.halted with
  | true =>
    rw [compared_of_halted hrunning, next, Action.leaves, Action.step_apply, if_pos hrunning]
    rfl
  | false =>
    cases h : m.wordFetch.result with
    | error e =>
      rw [compared_of_no_word h, next, Action.leaves_of_error (Action.step_of_no_word hrunning h)]
      rfl
    | ok word =>
      by_cases hop : Opcode.ofWord? word.toUInt16 = some .cmp
      · obtain ⟨hanswer, hcomparison⟩ := comparison_next_of_cmp hrunning h hop
        rw [compared_of_cmp hrunning h hop hanswer]
        exact hcomparison
      · rw [compared_of_ne_cmp h hop]
        exact comparison_next_of_ne_cmp hrunning h hop

end Step

omit [Observer τ] in
theorem comparison_reset (m : Machine β τ) (start : UInt32) :
    ((Action.reset start).leaves m).registers.comparison = m.registers.comparison := by
  by_cases heven : start % 2 = 0
  · have h : (Action.reset start : Action β τ Unit) = _ := if_pos heven
    rw [h]
    rfl
  · have h : (Action.reset start : Action β τ Unit) = _ := if_neg heven
    rw [h]
    rfl

end Machine

/-! ## Runs -/

/-- What can happen to a machine without its registers being written from outside. -/
inductive Episode (β τ : Type) where
  | turn (t : Turn)
  /-- The bus, the observer and the count are replaced. -/
  | refit (bus : β) (observer : τ) (completed : UInt64)

namespace Machine

variable {β τ : Type} [Bus β] [Observer τ]

/-- The machine after one episode. -/
def undergo (m : Machine β τ) : Episode β τ → Machine β τ
  | .turn t => m.turn t
  | .refit bus observer completed => ⟨m.registers, bus, observer, completed⟩

/-- **`m.through run`** — the machine after a run of episodes, faults included. -/
def through (m : Machine β τ) (run : List (Episode β τ)) : Machine β τ :=
  run.foldl undergo m

/-- **`m.comparisons run`** — the operands of each `cmp` that is completed in a run, the first one
first. -/
def comparisons (m : Machine β τ) : List (Episode β τ) → List (UInt32 × UInt32)
  | [] => []
  | .turn .step :: run => m.compared.toList ++ m.next.comparisons run
  | .turn (.reset start) :: run => (m.turn (.reset start)).comparisons run
  | .refit bus observer completed :: run =>
    (m.undergo (.refit bus observer completed)).comparisons run

/-- **After a run the comparison is that of its last `cmp`**, if it has one. -/
theorem comparison_through (m : Machine β τ) (run : List (Episode β τ)) :
    (m.through run).registers.comparison =
      (m.comparisons run).getLast?.elim m.registers.comparison fun p => .of p.1 p.2 := by
  induction run generalizing m with
  | nil => rfl
  | cons e run ih =>
    refine (ih (m.undergo e)).trans ?_
    cases e with
    | turn t =>
      cases t with
      | step =>
        rw [comparisons, List.getLast?_append]
        show (m.next.comparisons run).getLast?.elim m.next.registers.comparison _ = _
        cases (m.next.comparisons run).getLast? with
        | some p => rfl
        | none =>
          show m.next.registers.comparison = m.compared.toList.getLast?.elim _ _
          rw [comparison_next]
          cases m.compared <;> rfl
      | reset start =>
        show _ = ((m.turn (.reset start)).comparisons run).getLast?.elim _ _
        rw [← comparison_reset m start]
        rfl
    | refit bus observer completed => rfl

/-! ## Branches -/

/-- **`m.BranchesOn a b`** — whatever branch the next step of `m` executes, it branches if the two
values stand in its relation, from the word behind it by as many words as it was made with, and
otherwise goes on behind itself. -/
def BranchesOn (m : Machine β τ) (a b : UInt32) : Prop :=
  ∀ (r : Relation) (d : Int) (w : UInt16) (word : UInt32),
    m.registers.halted = false → (Opcode.branch r).branchWord d = .ok (some w) →
    m.wordFetch.result = .ok word → word.toUInt16 = w →
    Action.step.answer m = .ok .running ∧
      (r.Holds a b → (m.next.registers.ipAddress.toNat : Int) =
        (m.registers.ipAddress.toNat + 2 + 2 * d) % UInt32.size) ∧
      (¬ r.Holds a b → (m.next.registers.ipAddress.toNat : Int) =
        (m.registers.ipAddress.toNat + 2) % UInt32.size)

/-- A displacement in words, counted in bytes. -/
theorem toNat_ipAddress_displaced (ip : UInt32) (d : Int) :
    (((ip + 1 + UInt32.ofInt d) * 2).toNat : Int) = ((ip * 2).toNat + 2 + 2 * d) % UInt32.size := by
  simp only [UInt32.toNat_mul, UInt32.toNat_add, toNat_ofInt, UInt32.toNat_ofNat, UInt32.size]
  omega

/-- The same without a displacement. -/
theorem toNat_ipAddress_following (ip : UInt32) :
    (((ip + 1) * 2).toNat : Int) = ((ip * 2).toNat + 2) % UInt32.size := by
  simp only [UInt32.toNat_mul, UInt32.toNat_add, UInt32.toNat_ofNat, UInt32.size]
  omega

/-- A branch never faults, and asks the comparison whether to branch. -/
theorem step_of_branch {m : Machine β τ} (hrunning : m.registers.halted = false) {r : Relation}
    {d : Int} {w : UInt16} (hw : (Opcode.branch r).branchWord d = .ok (some w)) {word : UInt32}
    (h : m.wordFetch.result = .ok word) (heq : word.toUInt16 = w) :
    Action.step.answer m = .ok .running ∧
      m.next.registers.ip =
        if m.registers.comparison.satisfies r then m.registers.ip + 1 + UInt32.ofInt d
        else m.registers.ip + 1 := by
  obtain ⟨hformat, hd, hbits⟩ := Opcode.branchWord_eq_ok_iff.mp hw
  have hdecode : Instruction.decode word.toUInt16 =
      ⟨w, some (.branch r), Register.ofField 0, Register.ofField 0, d⟩ := by
    rw [heq]
    exact Instruction.decode_branch hformat hd hbits
  have hop : Opcode.ofWord? word.toUInt16 = some (.branch r) := by
    rw [← Instruction.opcode_decode, hdecode]
  obtain ⟨n, hperform, hip⟩ : ∃ n : Machine β τ,
      Action.perform (.branch r) (.decode word.toUInt16) m.registers.ipAddress
        (m.pastFetched word) = .ok () n ∧
      n.registers.ip =
        if m.registers.comparison.satisfies r then m.registers.ip + 1 + UInt32.ofInt d
        else m.registers.ip + 1 := by
    rw [hdecode]
    show ∃ n, (if m.registers.comparison.satisfies r then Action.advance (UInt32.ofInt d)
      else pure ()) (m.pastFetched word) = .ok () n ∧ _
    split
    · exact ⟨_, rfl, rfl⟩
    · exact ⟨_, rfl, rfl⟩
  have hstep := Action.step_of_perform_ok hrunning h hop hperform
  refine ⟨Action.answer_of_ok hstep, ?_⟩
  rw [next, Action.leaves_of_ok hstep]
  exact hip

/-- A machine branches on the operands of its comparison. -/
theorem branchesOn_of_comparison {m : Machine β τ} {a b : UInt32}
    (hcomparison : m.registers.comparison = .of a b) : m.BranchesOn a b := by
  intro r d w word hrunning hw h heq
  obtain ⟨hanswer, hip⟩ := step_of_branch hrunning hw h heq
  rw [hcomparison] at hip
  refine ⟨hanswer, fun hholds => ?_, fun hnot => ?_⟩
  · rw [if_pos ((Comparison.satisfies_of r a b).mpr hholds)] at hip
    rw [Registers.ipAddress, hip]
    exact toNat_ipAddress_displaced _ d
  · rw [if_neg (fun hs => hnot ((Comparison.satisfies_of r a b).mp hs))] at hip
    rw [Registers.ipAddress, hip]
    exact toNat_ipAddress_following _

/-- **Branches go by the last comparison of the run.**  Whatever a machine has been through, it
branches on the operands of the last `cmp` that it completed, and a new machine that has completed
none as on two equal values.  There is a word for exactly the displacements of ten signed bits. -/
theorem branchesOn_through (run : List (Episode β τ)) :
    (∀ (m : Machine β τ) a b, (m.comparisons run).getLast? = some (a, b) →
      (m.through run).BranchesOn a b) ∧
    (∀ (bus : β) (observer : τ), (new bus observer).comparisons run = [] →
      ∀ v, ((new bus observer).through run).BranchesOn v v) ∧
    ∀ r d, (∃ w, (Opcode.branch r).branchWord d = .ok (some w)) ↔ -512 ≤ d ∧ d ≤ 511 := by
  refine ⟨fun m a b hlast => ?_, fun bus observer hnone v => ?_, fun r d => ?_⟩
  · refine branchesOn_of_comparison ?_
    rw [comparison_through, hlast]
    rfl
  · refine branchesOn_of_comparison ?_
    rw [comparison_through, hnone, Comparison.of_self]
    rfl
  · constructor
    · rintro ⟨w, hw⟩
      exact (Opcode.branchWord_eq_ok_iff.mp hw).2.1
    · intro hd
      exact Fields.exists_assemble (.branch d hd) rfl

/-- A machine over six bytes: a `cmp` of -1 with 1, a word that is no instruction, and a branch back
to the `cmp` if less. -/
def wavering : Machine Memory Unit where
  registers := (Registers.initial.set (.ofField 2) 0xFFFFFFFF).set (.ofField 3) 1
  bus := ⟨⟨#[], #[0x23, 0x0E, 0xFF, 0xFF, 0xFD, 0xCB], by decide⟩, by decide, by decide, by decide⟩
  observer := ()
  completed := 0

/-- The comparison lasts through a fault, a reset that is refused and one that is not. -/
theorem wavering_branches :
    let n := wavering.through [.turn .step, .turn .step, .turn (.reset 3), .turn (.reset 4)]
    (Opcode.branch .lt).branchWord (-3) = .ok (some 0xCBFD) ∧ n.wordFetch.result = .ok 0xCBFD ∧
      Relation.lt.Holds 0xFFFFFFFF 1 ∧ n.registers.ipAddress = 4 ∧
      Action.step.answer n = .ok .running ∧ n.next.registers.ipAddress.toNat = 0 := by
  intro n
  have hlast : (wavering.comparisons
      [.turn .step, .turn .step, .turn (.reset 3), .turn (.reset 4)]).getLast? =
        some (0xFFFFFFFF, 1) := by
    decide +kernel
  have hrunning : n.registers.halted = false := by decide +kernel
  have hword : (Opcode.branch .lt).branchWord (-3) = .ok (some 0xCBFD) := by decide +kernel
  have hfetch : n.wordFetch.result = .ok 0xCBFD := by decide +kernel
  have hholds : Relation.lt.Holds 0xFFFFFFFF 1 := by unfold Relation.Holds; decide
  have haddress : n.registers.ipAddress = 4 := by decide +kernel
  have hbranches := (branchesOn_through _).1 wavering _ _ hlast
  obtain ⟨hanswer, htaken, -⟩ := hbranches .lt (-3) 0xCBFD 0xCBFD hrunning hword hfetch rfl
  refine ⟨hword, hfetch, hholds, haddress, hanswer, ?_⟩
  have hto := htaken hholds
  rw [show (wavering.through _).registers.ipAddress = 4 from haddress] at hto
  exact Int.ofNat.inj hto

end Machine

end Moxie
