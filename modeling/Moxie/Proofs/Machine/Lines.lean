/-
# Moxie.Proofs.Machine.Lines — a machine in front of its program.

`Ahead m p` says that the machine `m` is running and that the lines of `p` stand from its
instruction pointer on.  From there on the encoding is out of sight: what a line does is told by its
opcode and its operands, with one lemma for each kind of line.  Lines that only compute are
straight: they set registers and go on behind themselves.  `Line.Computes` says what they make of
the registers and `Ahead.straight` that a row of them is run as it reads.  Branches, calls, stores
and the end of a program have lemmas of their own; a return is the matter of `Machine.Entered`.

`Leads m k n` is a batch of `k` steps that completes, so what is known of batches holds for runs
that are put together of such pieces: the pieces add up (`Leads.trans`), and a run from a reset that
has come in such pieces to a step that stops has its answer and its count (`exists_execute_eq`).
-/
import Moxie.Proofs.Isa.Program
import Moxie.Proofs.Machine.Arithmetic
import Moxie.Proofs.Machine.Execution
import Moxie.Proofs.Machine.Frames

namespace Moxie

/-! ## Lines in memory -/

/-- The instruction that a word of `op` with the operands `x` is decoded to. -/
def Fields.instruction {f : Format} (op : Opcode) (w : UInt16) : Fields f → Instruction
  | .register a b => ⟨w, some op, a, b, 0⟩
  | .shortImmediate a v => ⟨w, some op, a, .ofField 0, v.toNat⟩
  | .branch d _ => ⟨w, some op, .ofField 0, .ofField 0, d⟩

theorem Fields.opcode_instruction {f : Format} (op : Opcode) (w : UInt16) (x : Fields f) :
    (x.instruction op w).opcode = some op := by
  cases x <;> rfl

theorem Fields.decode_eq {f : Format} {op : Opcode} {w : UInt16} {x : Fields f}
    (h : x.assemble op = .ok (some w)) : .decode w = x.instruction op w := by
  obtain ⟨hf, hw⟩ := assemble_eq_ok_iff.mp h
  cases x with
  | register a b => exact Instruction.decode_register hf hw
  | shortImmediate a v => exact Instruction.decode_shortImmediate hf hw
  | branch d bounds => exact Instruction.decode_branch hf bounds hw

namespace Memory

variable {m n : Memory}

/-- A window is there as long as nothing is written to it. -/
theorem Holds.of_agreesOn {s : Set Nat} {pos : Nat} {bs : List UInt8} (h : m.Holds pos bs)
    (hagree : AgreesOn s m n) (hs : ∀ i, pos ≤ i → i < pos + bs.length → i ∈ s) :
    n.Holds pos bs := by
  constructor
  · rw [hagree.size_eq]
    exact h.le_size
  · intro i hi
    rw [hagree.byteAt_eq _ (hs (pos + i) (Nat.le_add_right ..) (Nat.add_lt_add_left hi pos))]
    exact h.2 i hi

/-- A long that stands in memory is its value. -/
theorem Holds.valueAt {addr v : UInt32} (h : m.Holds addr.toNat (LittleEndian.encode 4 v)) :
    m.Fits addr 4 ∧ m.valueAt .long addr = v := by
  have hfits : m.Fits addr 4 := h.le_size
  obtain ⟨r, hread, hr⟩ := Holds.read (w := .long) h
  rw [read_of_fits (w := .long) hfits, Except.ok.injEq] at hread
  refine ⟨hfits, UInt32.toNat_inj.mp ?_⟩
  rw [hread, hr]
  exact Nat.mod_eq_of_lt v.toNat_lt

/-- **`m.HasLine addr l`** — the line `l` is assembled at `addr`. -/
def HasLine (m : Memory) (addr : UInt32) (l : Line) : Prop :=
  ∃ ws, l.words? = some ws ∧ m.Holds addr.toNat (bytesOfWords ws)

/-- **`m.Stands addr p`** — the lines of `p` stand in `m` one after the other from `addr` on. -/
def Stands (m : Memory) : UInt32 → List Line → Prop
  | _, [] => True
  | addr, l :: p => m.HasLine addr l ∧ m.Stands (addr + UInt32.ofNat l.size) p

/-- An image is as long as its lines are together. -/
theorem length_of_image {p : List Line} {bytes : List UInt8} (h : image p = some bytes) :
    bytes.length = (p.map Line.size).sum := by
  induction p generalizing bytes with
  | nil =>
    cases h
    rfl
  | cons l p ih =>
    obtain ⟨ws, hws, tail, htail, rfl⟩ := image_cons_eq_some_iff.mp h
    rw [List.length_append, Line.length_bytesOfWords hws, ih htail, List.map_cons, List.sum_cons]

/-- The image of a program is its lines. -/
theorem stands_of_holds {p : List Line} {bytes : List UInt8} {addr : UInt32}
    (himage : image p = some bytes) (h : m.Holds addr.toNat bytes) : m.Stands addr p := by
  induction p generalizing bytes addr with
  | nil => trivial
  | cons l p ih =>
    obtain ⟨ws, hws, tail, htail, rfl⟩ := image_cons_eq_some_iff.mp himage
    have hsize := Line.length_bytesOfWords hws
    have haddr : (addr + UInt32.ofNat l.size).toNat = addr.toNat + l.size := by
      apply h.toNat_add
      rw [List.length_append, hsize]
      exact Nat.le_add_right ..
    obtain ⟨hline, hrest⟩ := holds_append.mp h
    rw [hsize, ← haddr] at hrest
    exact ⟨⟨ws, hws, hline⟩, ih htail hrest⟩

theorem Stands.drop {p : List Line} {addr : UInt32} (k : Nat) (h : m.Stands addr p) :
    m.Stands (addr + UInt32.ofNat ((p.take k).map Line.size).sum) (p.drop k) := by
  induction k generalizing p addr with
  | zero =>
    rw [List.take_zero]
    exact (UInt32.add_zero addr).symm ▸ h
  | succ k ih =>
    cases p with
    | nil => trivial
    | cons l p =>
      rw [List.take_succ_cons, List.map_cons, List.sum_cons, UInt32.ofNat_add, ← UInt32.add_assoc]
      exact ih h.2

variable {addr : UInt32} {l : Line}

/-- The word of a line is fetched and decoded. -/
theorem HasLine.decode (h : m.HasLine addr l) :
    m.Fits addr 2 ∧
      ∃ w, .decode (m.valueAt .short addr).toUInt16 = l.fields.instruction l.opcode w := by
  obtain ⟨ws, hws, hholds⟩ := h
  obtain ⟨w, hw, rfl⟩ := Line.words?_eq_some_iff.mp hws
  obtain ⟨hword, -⟩ := holds_append.mp hholds
  have hfits : m.Fits addr 2 := hword.le_size
  obtain ⟨r, hread, hr⟩ := hword.read_word
  rw [read_of_fits (w := .short) hfits, Except.ok.injEq] at hread
  refine ⟨hfits, w, ?_⟩
  rw [hread, hr]
  exact Fields.decode_eq hw

/-- So is its long operand. -/
theorem HasLine.operand {v : UInt32} (h : m.HasLine addr l)
    (hv : l.operand.words = [(operandWords v).1, (operandWords v).2]) :
    m.Fits (addr + 2) 4 ∧ m.valueAt .long (addr + 2) = v := by
  obtain ⟨ws, hws, hholds⟩ := h
  obtain ⟨w, hw, rfl⟩ := Line.words?_eq_some_iff.mp hws
  rw [bytesOfWords_cons, holds_append, LittleEndian.length_encode, hv,
    bytesOfWords_operandWords] at hholds
  obtain ⟨hword, htail⟩ := hholds
  have haddr : (addr + 2).toNat = addr.toNat + 2 := hword.toNat_add (k := 2) (by simp)
  rw [← haddr] at htail
  exact htail.valueAt

end Memory

/-! ## Runs in pieces -/

namespace Machine

section Pieces

variable {β τ : Type} [Bus β] [Observer τ] {m n l : Machine β τ} {j k : Nat}

/-- **`m.Leads k n`** — `k` steps of `m` complete and lead to `n`. -/
def Leads (m : Machine β τ) (k : Nat) (n : Machine β τ) : Prop :=
  m.runBatch k = (⟨k, .completed⟩, n)

theorem leads_of_step (hrunning : m.registers.halted = false) (h : Action.step m = .ok .running n) :
    m.Leads 1 n := by
  rw [Leads, runBatch_of_not_halted hrunning]
  exact runFrom_of_running h 0 0

theorem Leads.running (h : m.Leads k n) : n.registers.halted = false := by
  have hhalted := (m.accounts_runBatch k).halted_iff
  rw [h] at hhalted
  exact Bool.eq_false_iff.mpr (mt hhalted.mp nofun)

theorem Leads.trans (h : m.Leads j n) (h' : n.Leads k l) : m.Leads (j + k) l := by
  have hending : (m.runBatch j).1.ending = .completed := by rw [h]
  rw [Leads, runBatch_add_of_completed hending, h, h']

/-- **A run of completed pieces and a last step that stops** has its answer under every bound that
is large enough. -/
theorem exists_execute_eq {start : UInt32} {r : Machine β τ}
    (hreset : Action.reset start m = .ok () r) (hrunning : r.registers.halted = false)
    (h : r.Leads k n) (hstep : Action.step n = .ok .halted l) :
    ∃ e, (∀ bound, k + 1 ≤ bound → m.execute bound start = (some (.ok ()), e)) ∧
      e.registers = l.registers ∧ e.bus = l.bus ∧
        e.completed = r.completed + UInt64.ofNat (k + 1) := by
  have hbatch : r.runBatch (k + 1) = (⟨k + 1, .halted⟩, l) := by
    have hending : (r.runBatch k).1.ending = .completed := by rw [h]
    have hlast : n.runBatch 1 = (⟨1, .halted⟩, l) := by
      rw [runBatch_of_not_halted h.running]
      exact runFrom_of_halted hstep 0 0
    rw [runBatch_add_of_completed hending, h, hlast]
  obtain ⟨-, -, -, hcount, -⟩ := runBatch_add r (k + 1) 0
  rw [hbatch] at hcount
  have hended : (r.runBatch (k + 1)).1.ending ≠ .completed := by
    rw [hbatch]
    exact nofun
  have hrun : ∀ bound, k + 1 ≤ bound → m.execute bound start = m.execute (k + 1) start := by
    intro bound hbound
    obtain ⟨d, rfl⟩ := Nat.exists_eq_add_of_le hbound
    have hsame := runBatch_add_of_ended hended d
    have hevents : r.batchEvents (k + 1 + d) = r.batchEvents (k + 1) := by
      refine batchEvents_eq_of_ended ?_ hended
      rwa [hsame]
    rw [execute_eq hreset hrunning, execute_eq hreset hrunning, hsame, hevents]
  obtain ⟨e, he, hregisters, hbus, hcompleted⟩ : ∃ e, m.execute (k + 1) start = (some (.ok ()), e) ∧
      e.registers = l.registers ∧ e.bus = l.bus ∧
        e.completed = r.completed + UInt64.ofNat (k + 1) := by
    rw [execute_eq hreset hrunning, hbatch]
    exact ⟨_, rfl, rfl, rfl, hcount⟩
  exact ⟨e, fun bound hbound => (hrun bound hbound).trans he, hregisters, hbus, hcompleted⟩

end Pieces

end Machine

/-! ## Operations that go through -/

/-- A call whose slots lie in the memory goes through. -/
theorem Action.call_of_fits {τ : Type} [Observer τ] {m : Machine Memory τ} {target : UInt32}
    (heven : target % 2 = 0) (hfits : ∀ j < 3, m.bus.Fits (pushSlot m.registers.sp j) 4) :
    call target m = .ok () (m.entered target) := by
  have hrow := row_call heven m
  cases hcall : call target m with
  | ok a n =>
    rw [hcall] at hrow
    cases hrow with
    | done => rfl
  | error f n =>
    rw [hcall] at hrow
    cases hrow with
    | stopped hj hstops => exact absurd (hfits _ hj) hstops.not_fits

namespace Machine

variable {τ : Type}

/-! ## Lines at the instruction pointer -/

/-- A word and a long operand are six bytes. -/
theorem ipAddress_pastOperand [Observer τ] (m : Machine Memory τ) :
    m.pastWord.pastOperand.registers.ipAddress = m.registers.ipAddress + 6 := by
  have hadvance := m.pastWord.registers.ipAddress_advance 2
  rw [ipAddress_pastWord, UInt32.add_assoc] at hadvance
  exact hadvance

/-- **`m.Ahead p`** — `m` is running, and the lines of `p` stand from its instruction pointer on. -/
structure Ahead (m : Machine Memory τ) (p : List Line) : Prop where
  running : m.registers.halted = false
  stands : m.bus.Stands m.registers.ipAddress p

variable [Observer τ] {m n k : Machine Memory τ} {l : Line} {p : List Line}

omit [Observer τ] in
/-- The first line is what is fetched. -/
theorem Ahead.opcode_eq (h : m.Ahead (l :: p)) :
    m.bus.Fits m.registers.ipAddress 2 ∧ m.nextInstruction.opcode = some l.opcode := by
  obtain ⟨hfits, w, hw⟩ := h.stands.1.decode
  refine ⟨hfits, ?_⟩
  rw [nextInstruction, hw, Fields.opcode_instruction]

omit [Observer τ] in
theorem Ahead.followingAddress (h : m.Ahead (l :: p)) :
    m.followingAddress = m.registers.ipAddress + UInt32.ofNat l.size := by
  obtain ⟨-, hop⟩ := h.opcode_eq
  rw [Machine.followingAddress, hop, Line.size, UInt32.ofNat_add, ← UInt32.add_assoc]
  rfl

/-- A line whose operation goes through is concluded. -/
theorem Ahead.step_eq (h : m.Ahead (l :: p))
    (hperform : ∀ w, Action.perform l.opcode (l.fields.instruction l.opcode w) m.registers.ipAddress
      m.pastWord = .ok () k) :
    Action.step m = Action.conclude (if l.opcode = .brk then .halted else .running) k := by
  obtain ⟨hword, w, hw⟩ := h.stands.1.decode
  have hexecute := Action.execute_of_perform_ok (l.fields.opcode_instruction l.opcode w)
    (hperform w)
  rw [Action.step_of_fits h.running hword, nextInstruction, hw]
  exact Action.bind_of_ok hexecute

theorem Ahead.leads (h : m.Ahead (l :: p)) (hbrk : l.opcode ≠ .brk)
    (hperform : ∀ w, Action.perform l.opcode (l.fields.instruction l.opcode w) m.registers.ipAddress
      m.pastWord = .ok () k) :
    m.Leads 1 { k with completed := k.completed + 1 } := by
  have hstep := h.step_eq hperform
  rw [if_neg hbrk] at hstep
  exact leads_of_step h.running hstep

/-- Its long operand is fetched. -/
theorem Ahead.operand {v : UInt32} (h : m.Ahead (l :: p))
    (hv : l.operand.words = [(operandWords v).1, (operandWords v).2]) :
    Action.operand m.pastWord = .ok v m.pastWord.pastOperand := by
  obtain ⟨hfits, hvalue⟩ := h.stands.1.operand hv
  have hinline : m.inlineOperand = v := hvalue
  rw [Action.operand_pastWord_of_fits hfits, hinline]

omit [Observer τ] in
/-- **A reset** to the address of a program. -/
theorem exists_reset_ahead (m : Machine Memory τ) {start : UInt32} (heven : start % 2 = 0)
    (hstands : m.bus.Stands start p) :
    ∃ r, Action.reset start m = .ok () r ∧ r.Ahead p ∧ r.registers.ipAddress = start ∧
      r.registers.sp = m.bus.sizeWord - 4 ∧ r.registers.fp = m.bus.sizeWord - 4 ∧
      r.bus = m.bus ∧ r.completed = m.completed := by
  refine ⟨_, congrFun (if_pos heven) m, ⟨rfl, ?_⟩, half_doubled heven, ?_, ?_, rfl, rfl⟩
  · show m.bus.Stands (start / 2 * 2) p
    rwa [half_doubled heven]
  · exact (Registers.get_set ..).trans
      ((if_neg (by decide)).trans ((Registers.get_set ..).trans (if_pos rfl)))
  · exact (Registers.get_set ..).trans (if_pos rfl)

/-- What lies behind the first line is ahead of a machine that went on there. -/
theorem Ahead.next (h : m.Ahead (l :: p)) {j : Nat} (hleads : m.Leads j n) (hbus : n.bus = m.bus)
    (hip : n.registers.ipAddress = m.registers.ipAddress + UInt32.ofNat l.size) : n.Ahead p := by
  refine ⟨hleads.running, ?_⟩
  rw [hbus, hip]
  exact h.stands.2

end Machine

/-! ### Lines that compute -/

/-- **`l.Computes b s t`** — over the memory `b`, the line `l` makes `t` of the registers `s`, and
goes on behind itself. -/
inductive Line.Computes (b : Memory) : Line → Registers → Registers → Prop where
  | compute {c : Computation} {x y : Register} {s : Registers} {v : UInt32}
      (h : c.eval (s.get x) (s.get y) = some v) :
      Computes b ⟨.compute c, .register x y, .none⟩ s (s.set x v)
  | inc (x : Register) (v : UInt8) (s : Registers) :
      Computes b ⟨.inc, .shortImmediate x v, .none⟩ s (s.set x (s.get x + UInt32.ofInt v.toNat))
  | dec (x : Register) (v : UInt8) (s : Registers) :
      Computes b ⟨.dec, .shortImmediate x v, .none⟩ s (s.set x (s.get x - UInt32.ofInt v.toNat))
  | cmp (x y : Register) (s : Registers) :
      Computes b ⟨.cmp, .register x y, .none⟩ s
        { s with comparison := .of (s.get x) (s.get y) }
  | loadImmediate (w : Width) (x y : Register) (v : UInt32) (s : Registers) :
      Computes b ⟨.loadImmediate w, .register x y, .long v⟩ s (s.set x (w.truncate v))
  | load {w : Width} {x y : Register} {s : Registers} (h : b.Fits (s.get y) w.bytes) :
      Computes b ⟨.load .indirect w, .register x y, .none⟩ s (s.set x (b.valueAt w (s.get y)))

/-- What is not a general-purpose register has no bearing on those that are. -/
theorem Registers.get_mk (s : Registers) (special : Vector UInt32 10) (ip : UInt32) (c : Comparison)
    (halted : Bool) (r : Register) :
    (Registers.mk s.general special ip c halted).get r = s.get r := rfl

/-- **`Straight b ls s t`** — the lines `ls`, one after the other, make `t` of the registers `s`. -/
inductive Straight (b : Memory) : List Line → Registers → Registers → Prop where
  | nil (s : Registers) : Straight b [] s s
  | cons {l : Line} {ls : List Line} {s t u : Registers} (h : l.Computes b s t)
      (hs : Straight b ls t u) : Straight b (l :: ls) s u

/-- The instruction pointer is not computed with. -/
theorem Line.Computes.withIp {b : Memory} {l : Line} {s t : Registers} (h : l.Computes b s t)
    (ip : UInt32) : l.Computes b { s with ip } { t with ip } := by
  cases h with
  | compute h => exact .compute h
  | inc x v => exact .inc x v _
  | dec x v => exact .dec x v _
  | cmp x y => exact .cmp x y _
  | loadImmediate w x y v => exact .loadImmediate w x y v _
  | load h => exact .load h

theorem Straight.withIp {b : Memory} {ls : List Line} {s t : Registers} (h : Straight b ls s t)
    (ip : UInt32) : Straight b ls { s with ip } { t with ip } := by
  induction h with
  | nil s => exact .nil _
  | cons h _ ih => exact .cons (h.withIp ip) ih

namespace Machine

variable {τ : Type} [Observer τ] {m n : Machine Memory τ} {l : Line} {ls p : List Line}
  {t : Registers}

/-- A line without an operand that is performed by changing registers. -/
theorem Ahead.computes_of_perform (h : m.Ahead (l :: p)) (hbrk : l.opcode ≠ .brk)
    (hsize : l.size = 2)
    (hperform : ∀ w, Action.perform l.opcode (l.fields.instruction l.opcode w) m.registers.ipAddress
      m.pastWord = .ok () (m.pastWord.withRegisters { t with ip := m.registers.ip + 1 })) :
    ∃ n, m.Leads 1 n ∧ n.registers = { t with ip := n.registers.ip } ∧ n.bus = m.bus ∧
      n.registers.ipAddress = m.registers.ipAddress + UInt32.ofNat l.size := by
  refine ⟨_, h.leads hbrk hperform, rfl, rfl, ?_⟩
  rw [hsize]
  exact m.registers.ipAddress_advance 1

/-- **One line that computes.** -/
theorem Ahead.computes (h : m.Ahead (l :: p)) (hl : l.Computes m.bus m.registers t) :
    ∃ n, m.Leads 1 n ∧ n.registers = { t with ip := n.registers.ip } ∧ n.bus = m.bus ∧
      n.registers.ipAddress = m.registers.ipAddress + UInt32.ofNat l.size := by
  generalize hs : m.registers = s at hl
  cases hl with
  | compute hv =>
    subst hs
    exact h.computes_of_perform nofun rfl fun w => Action.perform_compute_of_eval hv
  | inc x v =>
    subst hs
    exact h.computes_of_perform nofun rfl fun w => rfl
  | dec x v =>
    subst hs
    exact h.computes_of_perform nofun rfl fun w => rfl
  | cmp x y =>
    subst hs
    exact h.computes_of_perform nofun rfl fun w => rfl
  | load hfits =>
    subst hs
    have hread : Action.readBus _ _ m.pastWord = .ok _ m.pastWord := Action.readBus_of_fits hfits
    exact h.computes_of_perform nofun rfl fun w =>
      (Action.bind_of_ok rfl).trans ((Action.bind_of_ok rfl).trans (Action.bind_of_ok hread))
  | loadImmediate w x y v =>
    subst hs
    have hperform : ∀ word, Action.perform (.loadImmediate w)
        (Fields.instruction (.loadImmediate w) word (.register x y))
          m.registers.ipAddress m.pastWord =
          .ok () (m.pastWord.pastOperand.withRegisters
            (m.pastWord.pastOperand.registers.set x (w.truncate v))) :=
      fun word => (Action.bind_of_ok rfl).trans (Action.bind_of_ok (h.operand rfl))
    exact ⟨_, h.leads nofun hperform, rfl, rfl, m.ipAddress_pastOperand⟩

/-- **Lines that compute are run as they read.** -/
theorem Ahead.straight (h : m.Ahead (ls ++ p)) (hs : Straight m.bus ls m.registers t) :
    ∃ n, m.Leads ls.length n ∧ n.registers = { t with ip := n.registers.ip } ∧ n.bus = m.bus ∧
      n.registers.ipAddress = m.registers.ipAddress + UInt32.ofNat (ls.map Line.size).sum ∧
      n.Ahead p := by
  induction ls generalizing m t with
  | nil =>
    cases hs
    refine ⟨m, ?_, rfl, rfl, (UInt32.add_zero _).symm, h⟩
    exact runBatch_of_not_halted h.running 0
  | cons l ls ih =>
    cases hs with
    | cons hl hs =>
      obtain ⟨k, hk, hregisters, hbus, hip⟩ := h.computes hl
      have hrest : Straight k.bus ls k.registers { t with ip := k.registers.ip } := by
        rw [hregisters, hbus]
        exact hs.withIp _
      obtain ⟨n, hn, hregisters', hbus', hip', hahead⟩ := ih (h.next hk hbus hip) hrest
      refine ⟨n, ?_, hregisters', hbus'.trans hbus, ?_, hahead⟩
      · rw [List.length_cons, Nat.add_comm]
        exact hk.trans hn
      · rw [hip', hip, List.map_cons, List.sum_cons, UInt32.ofNat_add, UInt32.add_assoc]

/-! ### Other lines -/

/-- **A branch** counts its words from behind itself. -/
theorem Ahead.branches {r : Relation} {d : Int} {bounds : -512 ≤ d ∧ d ≤ 511}
    (h : m.Ahead (⟨.branch r, .branch d bounds, .none⟩ :: p)) :
    ∃ n, m.Leads 1 n ∧ n.registers = { m.registers with ip := n.registers.ip } ∧ n.bus = m.bus ∧
      n.registers.ipAddress =
        if m.registers.comparison.satisfies r then m.registers.ipAddress + 2 + 2 * UInt32.ofInt d
        else m.registers.ipAddress + 2 := by
  by_cases hr : m.registers.comparison.satisfies r = true
  · have hperform : ∀ w, Action.perform (.branch r)
        (Fields.instruction (.branch r) w (.branch d bounds)) m.registers.ipAddress m.pastWord =
          .ok () (m.pastWord.withRegisters (m.pastWord.registers.advance (UInt32.ofInt d))) :=
      fun w => (Action.bind_of_ok rfl).trans (congrFun (if_pos hr) _)
    refine ⟨_, h.leads nofun hperform, rfl, rfl, ?_⟩
    rw [if_pos hr, ← m.ipAddress_pastWord]
    exact m.pastWord.registers.ipAddress_advance _
  · have hperform : ∀ w, Action.perform (.branch r)
        (Fields.instruction (.branch r) w (.branch d bounds)) m.registers.ipAddress m.pastWord =
          .ok () m.pastWord :=
      fun w => (Action.bind_of_ok rfl).trans (congrFun (if_neg hr) _)
    refine ⟨_, h.leads nofun hperform, rfl, rfl, ?_⟩
    rw [if_neg hr]
    exact m.ipAddress_pastWord

/-- **A store** to an absolute address. -/
theorem Ahead.stores {w : Width} {x y : Register} {v : UInt32}
    (h : m.Ahead (⟨.store .absolute w, .register x y, .long v⟩ :: p))
    (hfits : m.bus.Fits v w.bytes) :
    ∃ n, m.Leads 1 n ∧ n.registers = { m.registers with ip := n.registers.ip } ∧
      n.bus = m.bus.put w v (m.registers.get x) ∧
      n.registers.ipAddress = m.registers.ipAddress + 6 := by
  have hwrite : Action.writeBus w v (m.registers.get x) m.pastWord.pastOperand =
      .ok () { m.pastWord.pastOperand with bus := m.bus.put w v (m.registers.get x) } :=
    Action.writeBus_of_fits hfits
  have haddress : Action.effectiveAddress .absolute (m.registers.get x) m.pastWord =
      .ok v m.pastWord.pastOperand := h.operand rfl
  have hperform : ∀ word, Action.perform (.store .absolute w)
      (Fields.instruction (.store .absolute w) word (.register x y))
          m.registers.ipAddress m.pastWord =
        .ok () { m.pastWord.pastOperand with bus := m.bus.put w v (m.registers.get x) } :=
    fun word => (Action.bind_of_ok rfl).trans ((Action.bind_of_ok haddress).trans hwrite)
  exact ⟨_, h.leads nofun hperform, rfl, rfl, m.ipAddress_pastOperand⟩

/-- **A call** with room for its frame. -/
theorem Ahead.calls {x y : Register} {target : UInt32}
    (h : m.Ahead (⟨.jsra, .register x y, .long target⟩ :: p)) (heven : target % 2 = 0)
    (hfits : ∀ j < 3, m.bus.Fits (pushSlot m.registers.sp j) 4) :
    ∃ c, m.Leads 1 c ∧ m.Entered c ∧ c.registers.ipAddress = target ∧
      (∀ r, r ≠ .sp → r ≠ .fp → c.registers.get r = m.registers.get r) ∧
      c.bus = m.bus.pushed m.registers.sp [0, m.followingAddress, m.registers.fp] := by
  obtain ⟨-, hop⟩ := h.opcode_eq
  have hcall := Action.call_of_fits (m := m.pastWord.pastOperand) heven hfits
  have hperform : ∀ w, Action.perform .jsra (Fields.instruction .jsra w (.register x y))
      m.registers.ipAddress m.pastWord = .ok () (m.pastWord.pastOperand.entered target) := by
    intro w
    rw [← hcall]
    exact (Action.bind_of_ok rfl).trans (Action.bind_of_ok (h.operand rfl))
  have hbehind : m.followingAddress = m.pastWord.pastOperand.registers.ipAddress := by
    rw [h.followingAddress, ipAddress_pastOperand]
    rfl
  refine ⟨_, h.leads nofun hperform, ?_, ?_, ?_, ?_⟩
  · exact entered_of_step_ok h.running (.inr hop) (h.step_eq hperform)
  · exact half_doubled heven
  · intro r hsp hfp
    exact (Registers.get_set ..).trans
      ((if_neg hfp).trans ((Registers.get_set ..).trans (if_neg hsp)))
  · rw [hbehind]
    rfl

/-- **The end of a program.** -/
theorem Ahead.stops {x y : Register} (h : m.Ahead (⟨.brk, .register x y, .none⟩ :: p)) :
    ∃ n, Action.step m = .ok .halted n ∧
      n.registers = { m.registers with ip := n.registers.ip, halted := true } ∧ n.bus = m.bus :=
  ⟨_, h.step_eq fun _ => rfl, rfl, rfl⟩

end Machine

end Moxie
