/-
# Moxie.Proofs.Programs.Sum — a program that sums up values.

The program has two parts.  The main part puts the address and the number of the values into
registers, calls the other, and stores what that leaves.  The other part, the sum, goes through the
values with a pointer and a count, and returns when the count has come down to the zero that it
keeps for comparison.

One round of the loop adds one value (`Machine.Round`).  What the loop adds up to goes by induction
on the values that are left; the invariant is that the pointer stands before them and the count is
their number (`Machine.Facing`).  The call and the return around the loop are `Machine.Entered`'s
matter: the loop writes nothing and leaves the frame pointer alone.  The whole run is the pieces one
after the other (`execute_main`).
-/
import Moxie.Proofs.Machine.Comparisons
import Moxie.Proofs.Machine.Lines

namespace Moxie

/-! ## The program -/

namespace SumProgram

/-- `$r0`, the address of the next value. -/
def pointer : Register := .ofField 2

/-- `$r1`, how many values are left. -/
def count : Register := .ofField 3

/-- `$r2`, the sum so far. -/
def total : Register := .ofField 4

/-- `$r3`, the value that is added. -/
def value : Register := .ofField 5

/-- `$r4`, a zero. -/
def zero : Register := .ofField 6

/-- The sum and the zero are cleared. -/
def clearing : List Line :=
  [⟨.compute .xor, .register total total, .none⟩,
    ⟨.compute .xor, .register zero zero, .none⟩]

/-- One value is added. -/
def adding : List Line :=
  [⟨.load .indirect .long, .register value pointer, .none⟩,
    ⟨.compute .add, .register total value, .none⟩,
    ⟨.inc, .shortImmediate pointer 4, .none⟩,
    ⟨.dec, .shortImmediate count 1, .none⟩,
    ⟨.cmp, .register count zero, .none⟩]

/-- Back to the next value if there is one, and back to the caller otherwise. -/
def leaving : List Line :=
  [⟨.branch .ne, .branch (-6) (by decide), .none⟩,
    ⟨.ret, .register (.ofField 0) (.ofField 0), .none⟩]

/-- The sum: `$r2` becomes the sum of `$r1` longs at `$r0`. -/
def sumLines : List Line :=
  clearing ++ (adding ++ leaving)

/-- Where a program stands, what it sums up and where its result goes. -/
structure Setting where
  /-- The address of the main part. -/
  main : UInt32
  /-- The address of the sum. -/
  sum : UInt32
  /-- The address of the values. -/
  data : UInt32
  /-- The address of the result. -/
  result : UInt32
  /-- The values. -/
  values : List UInt32

namespace Setting

variable (s : Setting)

/-- The operands of the call are set. -/
def preparing : List Line :=
  [⟨.loadImmediate .long, .register pointer (.ofField 0), .long s.data⟩,
    ⟨.loadImmediate .long, .register count (.ofField 0), .long (UInt32.ofNat s.values.length)⟩]

/-- The main part. -/
def mainLines : List Line :=
  s.preparing ++
    [⟨.jsra, .register (.ofField 0) (.ofField 0), .long s.sum⟩,
      ⟨.store .absolute .long, .register total (.ofField 0), .long s.result⟩,
      ⟨.brk, .register (.ofField 0) (.ofField 0), .none⟩]

/-- The bytes of the values. -/
def dataBytes : List UInt8 :=
  s.values.flatMap (LittleEndian.encode 4)

/-- The stretches of a memory of `size` bytes that the program has to do with, each with its length:
the two parts, the values, the result and the frame of the call. -/
def stretches (size : Nat) : List (Nat × Nat) :=
  [(s.main.toNat, 26), (s.sum.toNat, 18), (s.data.toNat, 4 * s.values.length), (s.result.toNat, 4),
    (size - 16, 12)]

/-- **`s.Loaded m`** — both parts are assembled at even addresses, there are values and they are
stored, and nothing that the program has to do with overlaps. -/
structure Loaded (m : Memory) : Prop where
  nonempty : 1 ≤ s.values.length
  main_even : s.main % 2 = 0
  sum_even : s.sum % 2 = 0
  main_holds : ∃ bytes, image s.mainLines = some bytes ∧ m.Holds s.main.toNat bytes
  sum_holds : ∃ bytes, image sumLines = some bytes ∧ m.Holds s.sum.toNat bytes
  data_holds : m.Holds s.data.toNat s.dataBytes
  result_fits : m.Fits s.result 4
  frame_fits : 16 ≤ m.size
  apart : (s.stretches m.size).Pairwise fun a b => a.1 + a.2 ≤ b.1 ∨ b.1 + b.2 ≤ a.1

end Setting

end SumProgram

/-! ## The loop -/

/-- Of values in a row, the first one stands at the pointer and the others behind it. -/
theorem Memory.Holds.values {b : Memory} {addr v : UInt32} {rest : List UInt32}
    (h : b.Holds addr.toNat ((v :: rest).flatMap (LittleEndian.encode 4))) :
    b.Fits addr 4 ∧ b.valueAt .long addr = v ∧
      b.Holds (addr + 4).toNat (rest.flatMap (LittleEndian.encode 4)) := by
  have haddr : (addr + 4).toNat = addr.toNat + 4 := h.toNat_add (k := 4) (by simp)
  rw [List.flatMap_cons] at h
  obtain ⟨hfirst, hrest⟩ := Memory.holds_append.mp h
  rw [LittleEndian.length_encode, ← haddr] at hrest
  obtain ⟨hfits, hv⟩ := hfirst.valueAt
  exact ⟨hfits, hv, hrest⟩

namespace Machine

open SumProgram

variable {τ : Type} {m n : Machine Memory τ}

/-- **`m.Round n`** — `n` is `m` after one round of the loop. -/
structure Round (m n : Machine Memory τ) : Prop where
  bus : n.bus = m.bus
  pointer : n.registers.get pointer = m.registers.get pointer + 4
  count : n.registers.get count = m.registers.get count - 1
  total : n.registers.get total =
    m.registers.get total + m.bus.valueAt .long (m.registers.get SumProgram.pointer)
  general : ∀ r, r ∉ [SumProgram.pointer, SumProgram.count, SumProgram.total, value] →
    n.registers.get r = m.registers.get r
  ahead : if m.registers.get SumProgram.count - 1 = 0 then n.Ahead (leaving.drop 1)
    else n.Ahead (adding ++ leaving)

variable [Observer τ]

/-- One round, by what stands at the pointer. -/
theorem exists_round (h : m.Ahead (adding ++ leaving)) (hzero : m.registers.get zero = 0)
    (hfits : m.bus.Fits (m.registers.get pointer) 4) : ∃ n, m.Leads 6 n ∧ m.Round n := by
  have hstraight : Straight m.bus adding m.registers _ :=
    .cons (.load hfits) (.cons (.compute rfl)
      (.cons (.inc ..) (.cons (.dec ..) (.cons (.cmp ..) (.nil _)))))
  obtain ⟨k, hk, hregisters, hbus, hip, hahead⟩ := h.straight hstraight
  obtain ⟨n, hn, hregisters', hbus', hip'⟩ := hahead.branches
  refine ⟨n, hk.trans hn, ?_⟩
  have hget : ∀ r, n.registers.get r =
      if r = count then m.registers.get count - 1
      else if r = pointer then m.registers.get pointer + 4
      else if r = total then
        m.registers.get total + m.bus.valueAt .long (m.registers.get pointer)
      else if r = value then m.bus.valueAt .long (m.registers.get pointer)
      else m.registers.get r := by
    intro r
    rw [hregisters', hregisters]
    simp +decide only [Registers.get_mk, Registers.get_set, if_true, if_false]
    rfl
  have hcomparison : k.registers.comparison = .of (m.registers.get count - 1) 0 := by
    rw [hregisters, ← hzero]
    simp +decide only [Registers.get_set, if_true, if_false]
    rfl
  refine ⟨hbus'.trans hbus, hget _, hget _, hget _, ?_, ?_⟩
  · intro r hr
    simp only [List.mem_cons, List.not_mem_nil, or_false, not_or] at hr
    rw [hget, if_neg hr.2.1, if_neg hr.1, if_neg hr.2.2.1, if_neg hr.2.2.2]
  · have hne : k.registers.comparison.satisfies .ne = true ↔ m.registers.get count - 1 ≠ 0 := by
      rw [hcomparison]
      exact (Comparison.satisfies_of .ne _ 0).trans Relation.holds_ne_iff
    split
    · rename_i hlast
      rw [if_neg (mt hne.mp (not_not_intro hlast))] at hip'
      exact hahead.next hn hbus' hip'
    · rename_i hmore
      -- six words back from behind the branch
      have hback : n.registers.ipAddress = m.registers.ipAddress := by
        rw [hip', if_pos (hne.mpr hmore), hip, UInt32.add_assoc, UInt32.add_assoc]
        exact UInt32.add_zero _
      refine ⟨hn.running, ?_⟩
      rw [hback, hbus', hbus]
      exact h.stands

/-- **`m.Summed values n`** — `n` is `m` after the loop has added some values. -/
structure Summed (m : Machine Memory τ) (values : List UInt32) (n : Machine Memory τ) : Prop where
  bus : n.bus = m.bus
  total : (n.registers.get SumProgram.total).toNat =
    ((m.registers.get SumProgram.total).toNat + (values.map UInt32.toNat).sum) % 4294967296
  general : ∀ r, r ∉ [SumProgram.pointer, SumProgram.count, SumProgram.total, value] →
    n.registers.get r = m.registers.get r

omit [Observer τ] in
theorem Summed.trans {vs ws : List UInt32} {k : Machine Memory τ} (h : m.Summed vs k)
    (h' : k.Summed ws n) : m.Summed (vs ++ ws) n where
  bus := h'.bus.trans h.bus
  total := by
    rw [h'.total, h.total, Nat.mod_add_mod, List.map_append, List.sum_append, Nat.add_assoc]
  general r hr := (h'.general r hr).trans (h.general r hr)

/-- **`m.Facing values`** — `m` is at the head of the loop with some values left to add. -/
structure Facing (m : Machine Memory τ) (values : List UInt32) : Prop where
  ahead : m.Ahead (adding ++ leaving)
  zero : m.registers.get zero = 0
  stored : m.bus.Holds (m.registers.get pointer).toNat (values.flatMap (LittleEndian.encode 4))
  count : (m.registers.get count).toNat = values.length

/-- One round takes the first value, and leaves the loop if there is no other. -/
theorem Facing.exists_round {v : UInt32} {rest : List UInt32} (h : m.Facing (v :: rest)) :
    ∃ k, m.Leads 6 k ∧ m.Summed [v] k ∧
      if rest = [] then k.Ahead (leaving.drop 1) else k.Facing rest := by
  obtain ⟨hfits, hv, hothers⟩ := h.stored.values
  obtain ⟨k, hk, hround⟩ := Machine.exists_round h.ahead h.zero hfits
  have hless : (m.registers.get SumProgram.count - 1).toNat = rest.length := by
    have hone : (1 : UInt32) ≤ m.registers.get SumProgram.count := by
      rw [UInt32.le_iff_toNat_le, h.count]
      exact Nat.succ_pos _
    rw [UInt32.toNat_sub_of_le _ _ hone, h.count]
    rfl
  have hlast : m.registers.get SumProgram.count - 1 = 0 ↔ rest = [] := by
    rw [← List.length_eq_zero_iff, ← hless]
    exact UInt32.toNat_inj.symm
  refine ⟨k, hk, ⟨hround.bus, ?_, hround.general⟩, ?_⟩
  · rw [hround.total, hv]
    exact UInt32.toNat_add ..
  · have hahead := hround.ahead
    simp only [hlast] at hahead
    split
    · rename_i hnone
      rwa [if_pos hnone] at hahead
    · rename_i hsome
      rw [if_neg hsome] at hahead
      refine ⟨hahead, (hround.general SumProgram.zero (by decide)).trans h.zero, ?_, ?_⟩
      · rw [hround.bus, hround.pointer]
        exact hothers
      · rw [hround.count, hless]

/-- **The loop** adds up the values that it faces, and comes to the return. -/
theorem Facing.leads_rounds {v : UInt32} {rest : List UInt32} (h : m.Facing (v :: rest)) :
    ∃ n, m.Leads (6 * (v :: rest).length) n ∧ m.Summed (v :: rest) n ∧
      n.Ahead (leaving.drop 1) := by
  induction rest generalizing m v with
  | nil =>
    obtain ⟨k, hk, hsummed, hahead⟩ := h.exists_round
    exact ⟨k, hk, hsummed, hahead⟩
  | cons u rest ih =>
    obtain ⟨k, hk, hsummed, hfacing⟩ := h.exists_round
    obtain ⟨n, hn, hsummed', hahead⟩ := ih hfacing
    refine ⟨n, ?_, hsummed.trans hsummed', hahead⟩
    rw [List.length_cons, Nat.mul_succ, Nat.add_comm]
    exact hk.trans hn

/-- **The sum**, from its first line to its return. -/
theorem leads_sum {values : List UInt32} (hne : 1 ≤ values.length) (h : m.Ahead sumLines)
    (hvalues : m.bus.Holds (m.registers.get pointer).toNat (values.flatMap (LittleEndian.encode 4)))
    (hcount : (m.registers.get count).toNat = values.length) :
    ∃ n, m.Leads (2 + 6 * values.length) n ∧ n.Ahead (leaving.drop 1) ∧ n.bus = m.bus ∧
      (n.registers.get total).toNat = (values.map UInt32.toNat).sum % 4294967296 ∧
      n.registers.fp = m.registers.fp := by
  have hstraight : Straight m.bus clearing m.registers _ :=
    .cons (.compute rfl) (.cons (.compute rfl) (.nil _))
  obtain ⟨k, hk, hregisters, hbus, -, hahead⟩ := h.straight hstraight
  have hget : ∀ r, k.registers.get r =
      if r = zero then 0 else if r = total then 0 else m.registers.get r := by
    intro r
    rw [hregisters]
    simp +decide only [Registers.get_mk, Registers.get_set, if_false, UInt32.xor_self]
  cases values with
  | nil => exact absurd hne (Nat.not_succ_le_zero 0)
  | cons v rest =>
    have hpointer : k.registers.get pointer = m.registers.get pointer := hget pointer
    have hcount' : k.registers.get count = m.registers.get count := hget count
    have hfacing : k.Facing (v :: rest) :=
      ⟨hahead, hget zero, by rwa [hbus, hpointer], by rwa [hcount']⟩
    obtain ⟨n, hn, hsummed, hreturn⟩ := hfacing.leads_rounds
    have htotal : k.registers.get total = 0 := hget total
    refine ⟨n, hk.trans hn, hreturn, hsummed.bus.trans hbus, ?_, ?_⟩
    · rw [hsummed.total, htotal]
      exact congrArg (· % 4294967296) (Nat.zero_add _)
    · exact (hsummed.general .fp (by decide)).trans (hget .fp)

end Machine

/-! ## The whole program -/

namespace SumProgram.Setting

variable {s : Setting} {b b' : Memory}

theorem length_dataBytes (s : Setting) : s.dataBytes.length = 4 * s.values.length := by
  simp only [dataBytes, List.length_flatMap, LittleEndian.length_encode, List.map_const',
    List.sum_replicate_nat, Nat.mul_comm]

/-- Where nothing is pushed for a call from the top of a memory. -/
def offFrame (size : Nat) : Set Nat :=
  {pos | pos + 16 < size ∨ size ≤ pos + 4}

/-- The call overwrites neither the program nor the values. -/
theorem Loaded.holds_of_agreesOn (h : s.Loaded b)
    (hagree : Memory.AgreesOn (offFrame b.size) b b') :
    (∃ bytes, image s.mainLines = some bytes ∧ b'.Holds s.main.toNat bytes) ∧
      b'.Stands s.sum sumLines ∧ b'.Holds s.data.toNat s.dataBytes := by
  obtain ⟨hmain, hrest⟩ := List.pairwise_cons.mp h.apart
  obtain ⟨hsum, hrest⟩ := List.pairwise_cons.mp hrest
  obtain ⟨hdata, -⟩ := List.pairwise_cons.mp hrest
  have hmain := hmain (b.size - 16, 12) (by simp)
  have hsum := hsum (b.size - 16, 12) (by simp)
  have hdata := hdata (b.size - 16, 12) (by simp)
  have hframe := h.frame_fits
  -- a stretch apart from the frame is kept
  have hkept : ∀ {pos : Nat} {bs : List UInt8}, b.Holds pos bs →
      (pos + bs.length ≤ b.size - 16 ∨ b.size - 16 + 12 ≤ pos) → b'.Holds pos bs := by
    intro pos bs hholds hapart
    refine hholds.of_agreesOn hagree fun i hle hlt => ?_
    rcases hapart with hapart | hapart
    · exact Or.inl (by omega)
    · exact Or.inr (by omega)
  obtain ⟨mainBytes, hmainImage, hmainHolds⟩ := h.main_holds
  obtain ⟨sumBytes, hsumImage, hsumHolds⟩ := h.sum_holds
  refine ⟨⟨mainBytes, hmainImage, hkept hmainHolds ?_⟩,
    Memory.stands_of_holds hsumImage (hkept hsumHolds ?_), hkept h.data_holds ?_⟩
  · rw [Memory.length_of_image hmainImage]
    exact hmain
  · rw [Memory.length_of_image hsumImage]
    exact hsum
  · rw [length_dataBytes]
    exact hdata

/-- The top of the stack after a reset, as a number. -/
theorem Loaded.toNat_top (h : s.Loaded b) : (b.sizeWord - 4).toNat = b.size - 4 := by
  have hframe := h.frame_fits
  have hfour : (4 : UInt32) ≤ b.sizeWord := by
    rw [UInt32.le_iff_toNat_le, Memory.toNat_sizeWord]
    exact b.four_le_size
  rw [UInt32.toNat_sub_of_le _ _ hfour, Memory.toNat_sizeWord]
  rfl

/-- There is room for the frame of the call. -/
theorem Loaded.fits_pushSlot (h : s.Loaded b) :
    ∀ j < 3, b.Fits (pushSlot (b.sizeWord - 4) j) 4 := by
  intro j hj
  have htop := h.toNat_top
  have hframe := h.frame_fits
  have hdown : (UInt32.ofNat (4 * (j + 1))).toNat = 4 * (j + 1) :=
    UInt32.toNat_ofNat_of_lt' (by simp only [UInt32.size]; omega)
  have hle : UInt32.ofNat (4 * (j + 1)) ≤ b.sizeWord - 4 := by
    rw [UInt32.le_iff_toNat_le, hdown, htop]
    omega
  rw [Memory.Fits, pushSlot, UInt32.toNat_sub_of_le _ _ hle, hdown, htop]
  omega

/-- The frame of the call is all that it writes. -/
theorem Loaded.agreesOn_pushed (h : s.Loaded b) (vs : List UInt32) (hlength : vs.length = 3) :
    Memory.AgreesOn (offFrame b.size) b (b.pushed (b.sizeWord - 4) vs) := by
  refine ⟨b.size_pushed _ _, fun pos hpos => Memory.byteAt_pushed (hlength ▸ h.fits_pushSlot) ?_⟩
  have hframe := h.frame_fits
  rw [h.toNat_top, hlength]
  rcases hpos with hpos | hpos <;> omega

/-- The values are in memory, so their number is a word. -/
theorem Loaded.toNat_length (h : s.Loaded b) :
    (UInt32.ofNat s.values.length).toNat = s.values.length := by
  have hle := h.data_holds.le_size
  have hsize : b.size < 4294967296 := b.size_lt
  rw [length_dataBytes] at hle
  exact UInt32.toNat_ofNat_of_lt' (by simp only [UInt32.size]; omega)

end SumProgram.Setting

namespace Machine

open SumProgram

variable {τ : Type} [Observer τ] {m : Machine Memory τ} {s : Setting}

/-- **The call**: from the first line of the main part to the line behind the call. -/
theorem leads_call (h : s.Loaded m.bus) (hahead : m.Ahead s.mainLines)
    (hip : m.registers.ipAddress = s.main) (hsp : m.registers.sp = m.bus.sizeWord - 4) :
    ∃ r, m.Leads (6 * s.values.length + 6) r ∧ r.registers.ipAddress = s.main + 18 ∧
      r.registers.sp = m.registers.sp ∧ r.registers.fp = m.registers.fp ∧
      (r.registers.get total).toNat = (s.values.map UInt32.toNat).sum % 4294967296 ∧
      Memory.AgreesOn (Setting.offFrame m.bus.size) m.bus r.bus := by
  -- the operands of the call
  have hstraight : Straight m.bus s.preparing m.registers _ :=
    .cons (.loadImmediate ..) (.cons (.loadImmediate ..) (.nil _))
  obtain ⟨k, hk, hregisters, hbus, hkip, hcalling⟩ := hahead.straight hstraight
  have hget : ∀ r, k.registers.get r =
      if r = count then UInt32.ofNat s.values.length else if r = pointer then s.data
      else m.registers.get r := by
    intro r
    rw [hregisters]
    simp only [Registers.get_mk, Registers.get_set, Width.truncate_long]
  have hksp : k.registers.sp = m.bus.sizeWord - 4 := (hget .sp).trans hsp
  -- the call
  have hslots : ∀ j < 3, k.bus.Fits (pushSlot k.registers.sp j) 4 := by
    rw [hbus, hksp]
    exact h.fits_pushSlot
  obtain ⟨c, hc, hentered, hcip, hgeneral, hpushed⟩ := hcalling.calls h.sum_even hslots
  have hagree : Memory.AgreesOn (Setting.offFrame m.bus.size) m.bus c.bus := by
    rw [hpushed, hbus, hksp]
    exact h.agreesOn_pushed _ rfl
  obtain ⟨-, hsum, hdata⟩ := h.holds_of_agreesOn hagree
  -- the sum
  have hentry : c.Ahead sumLines := ⟨hc.running, by rwa [hcip]⟩
  have hpointer : c.registers.get pointer = s.data :=
    (hgeneral pointer (by decide) (by decide)).trans (hget pointer)
  have hcount : (c.registers.get count).toNat = s.values.length := by
    rw [hgeneral count (by decide) (by decide), hget, if_pos rfl]
    exact h.toNat_length
  obtain ⟨d, hd, hreturning, hdbus, htotal, hdfp⟩ :=
    leads_sum h.nonempty hentry (by rwa [hpointer]) hcount
  -- the return
  have hreturns : d.Returns := ⟨hreturning.opcode_eq.1, hreturning.opcode_eq.2⟩
  obtain ⟨r, hstep, hresumes⟩ := hentered.resumes hreturning.running hreturns (by rw [hdbus]) hdfp
    fun i _ => by rw [hdbus]
  refine ⟨r, ?_, ?_, ?_, ?_, ?_, ?_⟩
  · have hsteps : s.preparing.length + 1 + (2 + 6 * s.values.length) + 1 =
        6 * s.values.length + 6 := by
      rw [Setting.preparing, List.length_cons, List.length_singleton]
      omega
    rw [← hsteps]
    exact ((hk.trans hc).trans hd).trans (leads_of_step hreturning.running hstep)
  · rw [hresumes.ipAddress, hcalling.followingAddress, hkip, hip, UInt32.add_assoc]
    rfl
  · exact hresumes.sp.trans (hget .sp)
  · exact hresumes.fp.trans (hget .fp)
  · rw [hresumes.general total (by decide) (by decide)]
    exact htotal
  · rw [hresumes.bus, hdbus]
    exact hagree

/-- **The program sums up its values**, whatever the registers and the observer.  Loaded as a
`Setting` says, it stops after six instructions for each value and eight others.  The sum of the
values, modulo `2 ^ 32`, is then in `$r2` and at the address of the result, the stack is where a
reset puts it, and no byte has changed but those of the result and of the frame of the one call. -/
theorem execute_main (m : Machine Memory τ) (s : Setting) (h : s.Loaded m.bus) :
    ∃ e, (∀ bound, 6 * s.values.length + 8 ≤ bound → m.execute bound s.main = (some (.ok ()), e)) ∧
      e.completed = m.completed + UInt64.ofNat (6 * s.values.length + 8) ∧
      (e.registers.get total).toNat = (s.values.map UInt32.toNat).sum % 4294967296 ∧
      e.bus.read .long s.result = .ok (e.registers.get total) ∧
      e.registers.sp.toNat = m.bus.size - 4 ∧ e.registers.fp.toNat = m.bus.size - 4 ∧
      Memory.AgreesOn
        {pos | pos ∈ Setting.offFrame m.bus.size ∧
          (pos < s.result.toNat ∨ s.result.toNat + 4 ≤ pos)} m.bus e.bus := by
  obtain ⟨bytes, himage, hholds⟩ := h.main_holds
  obtain ⟨r, hreset, hahead, hip, hsp, hfp, hbus, hcompleted⟩ :=
    m.exists_reset_ahead h.main_even (Memory.stands_of_holds himage hholds)
  have hloaded : s.Loaded r.bus := by rwa [hbus]
  obtain ⟨k, hk, hkip, hksp, hkfp, htotal, hagree⟩ := leads_call hloaded hahead hip
    (by rw [hsp, hbus])
  rw [hbus] at hagree
  obtain ⟨⟨bytes, himage, hholds⟩, -, -⟩ := h.holds_of_agreesOn hagree
  -- the store
  have hstoring : k.Ahead (s.mainLines.drop 3) := by
    refine ⟨hk.running, ?_⟩
    rw [hkip]
    exact (Memory.stands_of_holds himage hholds).drop 3
  have hfits : k.bus.Fits s.result 4 := (Memory.fits_congr hagree.size_eq).mpr h.result_fits
  obtain ⟨n, hn, hregisters, hput, hnip⟩ := hstoring.stores hfits
  have hstored :
      Memory.AgreesOn {pos | pos < s.result.toNat ∨ s.result.toNat + 4 ≤ pos} k.bus n.bus := by
    rw [hput]
    exact (Memory.agreesOn_of_write (Memory.write_of_fits (w := .long) hfits)).2
  -- the stop
  have hstopping : n.Ahead (s.mainLines.drop 4) := by
    refine ⟨hn.running, ?_⟩
    rw [hnip, hkip, UInt32.add_assoc]
    refine (Memory.stands_of_holds himage (hholds.of_agreesOn hstored fun pos hle hlt => ?_)).drop 4
    have happart := (List.pairwise_cons.mp h.apart).1 (s.result.toNat, 4) (by simp)
    rw [Memory.length_of_image himage] at hlt
    have hlt : pos < s.main.toNat + 26 := hlt
    rcases happart with happart | happart
    · exact Or.inl (Nat.lt_of_lt_of_le hlt happart)
    · exact Or.inr (Nat.le_trans happart hle)
  obtain ⟨l, hstop, hlregisters, hlbus⟩ := hstopping.stops
  obtain ⟨e, hexecute, heregisters, hebus, hcount⟩ :=
    exists_execute_eq hreset hahead.running (hk.trans hn) hstop
  have hget : ∀ q, e.registers.get q = k.registers.get q := by
    intro q
    rw [heregisters, hlregisters, hregisters]
    rfl
  have htop := h.toNat_top
  refine ⟨e, hexecute, ?_, ?_, ?_, ?_, ?_, ?_⟩
  · rw [hcount, hcompleted]
  · rw [hget, htotal]
  · rw [hget, hebus, hlbus, hput, Memory.read_of_fits (w := .long)
      ((Memory.fits_congr (Memory.size_put ..)).mpr hfits), Memory.valueAt_put (w := .long) hfits,
      Width.truncate_long]
  · rw [Registers.sp, hget]
    exact (congrArg UInt32.toNat (hksp.trans hsp)).trans htop
  · rw [Registers.fp, hget]
    exact (congrArg UInt32.toNat (hkfp.trans hfp)).trans htop
  · rw [hebus, hlbus]
    exact (hagree.mono fun pos hpos => hpos.1).trans (hstored.mono fun pos hpos => hpos.2)

/-- The parts of a program, two values and their result one after the other. -/
def compact : Setting where
  main := 0
  sum := 26
  data := 44
  result := 52
  values := [0xFFFFFFFF, 3]

/-- A machine that has stopped, over seventy-two bytes with the program in them. -/
def summing : Machine Memory Unit where
  registers := { Registers.initial with halted := true }
  bus := ⟨⟨#[], #[0x20, 0x01, 0x2C, 0x00, 0x00, 0x00, 0x30, 0x01, 0x02, 0x00, 0x00, 0x00,
    0x00, 0x03, 0x1A, 0x00, 0x00, 0x00, 0x40, 0x09, 0x34, 0x00, 0x00, 0x00, 0x00, 0x35,
    0x44, 0x2E, 0x66, 0x2E, 0x52, 0x0A, 0x45, 0x05, 0x04, 0x82, 0x01, 0x93, 0x36, 0x0E, 0xFA, 0xC7,
    0x00, 0x04, 0xFF, 0xFF, 0xFF, 0xFF, 0x03, 0x00, 0x00, 0x00,
    0, 0, 0, 0, 0, 0, 0, 0, 0, 0, 0, 0, 0, 0, 0, 0, 0, 0, 0, 0], by decide⟩,
    by decide, by decide, by decide⟩
  observer := ()
  completed := 0xFFFFFFFFFFFFFFFF

/-- The sum and the count both wrap around. -/
theorem summing_execute_main :
    compact.Loaded summing.bus ∧
      ∃ e, summing.execute 20 0 = (some (.ok ()), e) ∧ e.completed = 19 ∧
        (e.registers.get total).toNat = 2 ∧ e.bus.read .long 52 = .ok (e.registers.get total) ∧
        e.registers.sp.toNat = 68 ∧ e.bus.byteAt 71 = 0 := by
  have hloaded : compact.Loaded summing.bus := by
    refine ⟨by decide, by decide, by decide, ⟨_, by rfl, ?_⟩, ⟨_, by rfl, ?_⟩,
      ?_, by decide, by decide, by decide⟩
    all_goals
      rw [Memory.Holds]
      decide +kernel
  obtain ⟨e, hexecute, hcompleted, htotal, hread, hsp, -, hagree⟩ :=
    execute_main summing compact hloaded
  refine ⟨hloaded, e, hexecute 20 (by decide), hcompleted, htotal, hread, hsp, ?_⟩
  exact (hagree.byteAt_eq 71 ⟨Or.inr (by decide), Or.inr (by decide)⟩).trans (by decide)

end Machine

end Moxie
