/-
# Moxie.Proofs.Machine.Ranking — what a histogram shows of the events that it was told of.

A histogram is told of events one by one and may be cleared in between.  What it holds in the end is
what a new one holds after the events since the last clear (`tellAll_observeAll`), and two events
may change places there (`observe_comm`), so it depends on these events alone and not on their
order.

The ranking lists the entries of the histogram, sorted.  Sorting only moves them, hence an opcode is
listed once and with its count (`mem_mostFrequent`, `nodup_mostFrequent`).  The order of ranks is a
total one, but two entries tie in it only if they are of one opcode.  As no opcode comes twice the
listed entries are in strict order (`pairwise_mostFrequent`).  All this holds of any histogram; that
the counts are numbers of events needs a bound on these.
-/
import Moxie.Proofs.Machine.Histogram

namespace Moxie

namespace Histogram

/-! ## The order of ranks -/

theorem ranksBefore_iff {x y : Opcode × UInt64} :
    ranksBefore x y = true ↔ y.2 < x.2 ∨ x.2 = y.2 ∧ x.1.bits ≤ y.1.bits := by
  simp [ranksBefore]

theorem ranksBefore_trans (x y z : Opcode × UInt64) (hxy : ranksBefore x y = true)
    (hyz : ranksBefore y z = true) : ranksBefore x z = true := by
  rw [ranksBefore_iff] at *
  rcases hxy with hxy | ⟨hxy, hle⟩
  · -- the count has gone down already
    refine .inl ?_
    rcases hyz with hyz | ⟨hyz, -⟩
    · exact UInt64.lt_trans hyz hxy
    · exact hyz ▸ hxy
  · rw [hxy]
    exact hyz.imp id fun ⟨heq, hle'⟩ => ⟨heq, UInt16.le_trans hle hle'⟩

theorem ranksBefore_total (x y : Opcode × UInt64) :
    (ranksBefore x y || ranksBefore y x) = true := by
  rw [Bool.or_eq_true, ranksBefore_iff, ranksBefore_iff]
  by_cases heq : x.2 = y.2
  · exact (UInt16.le_total x.1.bits y.1.bits).imp (fun hle => .inr ⟨heq, hle⟩)
      fun hle => .inr ⟨heq.symm, hle⟩
  · exact (UInt64.lt_or_lt_of_ne heq).symm.imp .inl .inl

/-! ## The ranking -/

variable (h : Histogram)

/-- The ranking is the entries in another order. -/
theorem mostFrequent_perm : h.mostFrequent.Perm h.entries :=
  List.mergeSort_perm h.entries ranksBefore

/-- **An opcode is listed with its count**, unless this is zero. -/
theorem mem_mostFrequent {op : Opcode} {n : UInt64} :
    (op, n) ∈ h.mostFrequent ↔ n = h.count op ∧ n ≠ 0 := by
  rw [h.mostFrequent_perm.mem_iff, entries, List.mem_filter, List.mem_map]
  constructor
  · rintro ⟨⟨q, -, hq⟩, hne⟩
    cases hq
    exact ⟨rfl, bne_iff_ne.mp hne⟩
  · rintro ⟨rfl, hne⟩
    exact ⟨⟨op, Opcode.mem_all op, rfl⟩, bne_iff_ne.mpr hne⟩

theorem mem_keys_mostFrequent {op : Opcode} :
    op ∈ h.mostFrequent.map (·.1) ↔ h.count op ≠ 0 := by
  rw [List.mem_map]
  constructor
  · rintro ⟨⟨q, n⟩, hmem, rfl⟩
    obtain ⟨rfl, hne⟩ := h.mem_mostFrequent.mp hmem
    exact hne
  · intro hne
    exact ⟨(op, h.count op), h.mem_mostFrequent.mpr ⟨rfl, hne⟩, rfl⟩

/-- **No opcode is listed twice.** -/
theorem nodup_mostFrequent : (h.mostFrequent.map (·.1)).Nodup := by
  have hentries : h.entries.map (·.1) = Opcode.all.filter fun op => h.count op != 0 := by
    rw [entries, List.filter_map, List.map_map]
    exact List.map_id _
  rw [(h.mostFrequent_perm.map _).nodup_iff, hentries]
  exact Opcode.nodup_all.filter _

/-- **The listed entries are in strict order**: of falling counts and, where these are the same, of
rising opcode bits. -/
theorem pairwise_mostFrequent : h.mostFrequent.Pairwise fun x y =>
    y.2 < x.2 ∨ x.2 = y.2 ∧ x.1.bits < y.1.bits := by
  have hsorted : h.mostFrequent.Pairwise fun x y => ranksBefore x y = true :=
    List.pairwise_mergeSort ranksBefore_trans ranksBefore_total h.entries
  have hdistinct : h.mostFrequent.Pairwise fun x y => x.1 ≠ y.1 :=
    List.pairwise_map.mp h.nodup_mostFrequent
  refine hsorted.imp₂ (fun x y hxy hne => ?_) hdistinct
  refine (ranksBefore_iff.mp hxy).imp id fun ⟨heq, hle⟩ => ⟨heq, ?_⟩
  exact UInt16.lt_of_le_of_ne hle fun hbits => hne (Opcode.bits_injective hbits)

/-- The listed counts add up to all counts. -/
theorem foldr_mostFrequent : (h.mostFrequent.map (·.2.toNat)).foldr (· + ·) 0 =
    (Opcode.all.map fun op => (h.count op).toNat).foldr (· + ·) 0 := by
  have hperm : (h.mostFrequent.map (·.2.toNat)).Perm (h.entries.map (·.2.toNat)) :=
    h.mostFrequent_perm.map _
  rw [hperm.foldr_eq' (fun m _ n _ k => Nat.add_left_comm n m k), entries]
  induction Opcode.all with
  | nil => rfl
  | cons op ops ih =>
    rw [List.map_cons, List.map_cons, List.filter_cons, List.foldr_cons, ← ih]
    by_cases hop : h.count op = 0
    · simp [hop]
    · simp [hop]

/-! ## The order of events -/

theorem addInstruction_of_some {i : Instruction} {op : Opcode} (hi : i.opcode = some op) :
    h.addInstruction i =
      { h with counts := h.counts.set op.leadByte.val (h.count op + 1) op.leadByte.isLt } := by
  rw [addInstruction, hi]

theorem addInstruction_of_none {i : Instruction} (hi : i.opcode = none) :
    h.addInstruction i = { h with illegal := h.illegal + 1 } := by
  rw [addInstruction, hi]

/-- Two words may change places. -/
theorem addInstruction_comm (i j : Instruction) :
    (h.addInstruction i).addInstruction j = (h.addInstruction j).addInstruction i := by
  cases hi : i.opcode with
  | none =>
    cases hj : j.opcode with
    | none => simp only [addInstruction_of_none _ hi, addInstruction_of_none _ hj]
    | some q => simp only [addInstruction_of_none _ hi, addInstruction_of_some _ hj, count]
  | some op =>
    cases hj : j.opcode with
    | none => simp only [addInstruction_of_some _ hi, addInstruction_of_none _ hj, count]
    | some q =>
      by_cases hop : op = q
      · subst hop
        simp only [addInstruction_of_some _ hi, addInstruction_of_some _ hj]
      · -- different opcodes are counted at different bytes
        have hbyte : op.leadByte.val ≠ q.leadByte.val := fun heq =>
          hop (Opcode.leadByte_injective (Fin.ext heq))
        have hq : (h.addInstruction i).count q = h.count q := by
          rw [count_addInstruction, hi, if_neg fun heq => hop (Option.some.inj heq)]
        have hp : (h.addInstruction j).count op = h.count op := by
          rw [count_addInstruction, hj, if_neg fun heq => hop (Option.some.inj heq).symm]
        rw [addInstruction_of_some _ hj, hq, addInstruction_of_some _ hi,
          addInstruction_of_some (h.addInstruction j) hi, hp, addInstruction_of_some _ hj]
        exact congrArg (Histogram.mk · h.illegal h.immediates) (Vector.set_comm _ _ hbyte)

theorem addInstruction_addImmediate (i : Instruction) :
    (h.addInstruction i).addImmediate = h.addImmediate.addInstruction i := by
  cases hi : i.opcode with
  | none => simp only [addInstruction_of_none _ hi, addImmediate]
  | some op => simp only [addInstruction_of_some _ hi, addImmediate, count]

/-- **Two events may change places.** -/
theorem observe_comm (d e : Event) :
    Observer.observe (Observer.observe h d) e = Observer.observe (Observer.observe h e) d := by
  cases d with
  | fetched i =>
    cases e with
    | fetched j => exact h.addInstruction_comm i j
    | operand => exact h.addInstruction_addImmediate i
    | _ => rfl
  | operand =>
    cases e with
    | fetched j => exact (h.addInstruction_addImmediate j).symm
    | _ => rfl
  | _ => rfl

/-- **The order of events does not matter.** -/
theorem observeAll_perm {events others : List Event} (hperm : others.Perm events) :
    Observer.observeAll h others = Observer.observeAll h events :=
  hperm.foldl_eq' (fun d _ e _ t => t.observe_comm d e) h

/-! ## Histories -/

/-- What a histogram may be told. -/
inductive Call where
  /-- Something happened. -/
  | event (e : Event)
  /-- What happened so far is to be forgotten. -/
  | clear

/-- What a histogram holds after a call. -/
def tell : Call → Histogram
  | .event e => Observer.observe h e
  | .clear => h.clear

/-- What a histogram holds after some calls. -/
def tellAll (calls : List Call) : Histogram :=
  calls.foldl tell h

/-- **`Call.pending events calls`** — the events since the last clear, if there were `events` since
the last clear before the calls. -/
def Call.pending (events : List Event) : List Call → List Event
  | [] => events
  | .event e :: calls => pending (events ++ [e]) calls
  | .clear :: calls => pending [] calls

/-- **Only the events since the last clear are counted.** -/
theorem tellAll_observeAll (events : List Event) (calls : List Call) :
    (Observer.observeAll empty events).tellAll calls =
      Observer.observeAll empty (Call.pending events calls) := by
  induction calls generalizing events with
  | nil => rfl
  | cons c calls ih =>
    cases c with
    | event e =>
      have htell : (Observer.observeAll empty events).tell (.event e) =
          Observer.observeAll empty (events ++ [e]) :=
        (Observer.observeAll_append empty events [e]).symm
      rw [Call.pending, ← ih, ← htell]
      rfl
    | clear => exact ih []

/-- **What a histogram shows.**  Let a histogram be told of any events and be cleared any number of
times, with fewer than `2 ^ 64` words and operands since it was new or last cleared.  It lists the
opcodes of these words, each once with the number of its words, by falling numbers and, where these
are the same, by rising opcode bits.  Its total is the number of words, and this is the sum of the
listed numbers and the words that are no instruction.  Any order of the same events leaves the same
histogram. -/
theorem ranking_of_calls (calls : List Call)
    (hbound : (Call.pending [] calls).countP Event.isFetch < UInt64.size) :
    let events := Call.pending [] calls
    let h := empty.tellAll calls
    (∀ op, op ∈ h.mostFrequent.map (·.1) ↔ 0 < events.countP (Event.isOpcode op)) ∧
      (∀ op n, (op, n) ∈ h.mostFrequent → n.toNat = events.countP (Event.isOpcode op)) ∧
      (h.mostFrequent.map (·.1)).Nodup ∧
      (h.mostFrequent.Pairwise fun x y => y.2 < x.2 ∨ x.2 = y.2 ∧ x.1.bits < y.1.bits) ∧
      h.total.toNat = events.countP Event.isWord ∧
      h.total.toNat = (h.mostFrequent.map (·.2.toNat)).foldr (· + ·) 0 + h.illegal.toNat ∧
      ∀ others : List Call, (Call.pending [] others).Perm events → empty.tellAll others = h := by
  intro events h
  have hh : h = Observer.observeAll empty events := tellAll_observeAll [] calls
  have hkind : ∀ mark : Event → Bool, (∀ e, mark e = true → e.isFetch = true) →
      events.countP mark < UInt64.size :=
    fun mark hmark => Nat.lt_of_le_of_lt (List.countP_mono_left fun e _ => hmark e) hbound
  obtain ⟨htotal, hillegal, -, -⟩ := books_observeAll (hkind _ fun _ => Event.isFetch_of_isWord)
    (hkind _ fun _ => Event.isFetch_of_isOperand)
  have hcount : ∀ op, (h.count op).toNat = events.countP (Event.isOpcode op) := fun op =>
    hh ▸ toNat_count_observeAll
      (hkind _ fun _ he => Event.isFetch_of_isWord (Event.isWord_of_isOpcode he))
  rw [← hh] at htotal hillegal
  refine ⟨fun op => ?_, fun op n hmem => ?_, h.nodup_mostFrequent, h.pairwise_mostFrequent,
    htotal, ?_, fun others hperm => ?_⟩
  · have hzero : (h.count op).toNat = UInt64.toNat 0 ↔ h.count op = 0 := UInt64.toNat_inj
    rw [mem_keys_mostFrequent, ← hcount op, Nat.pos_iff_ne_zero]
    exact not_congr hzero.symm
  · rw [(h.mem_mostFrequent.mp hmem).1, hcount]
  · rw [htotal, foldr_mostFrequent, hillegal]
    simp only [hcount]
    rw [foldr_countP_eq Event.pairwise_isOpcode]
    exact countP_eq_add Event.toNat_isWord events
  · rw [hh, ← observeAll_perm empty hperm]
    exact tellAll_observeAll [] others

/-- A word that is forgotten, and then a push, two words that do nothing, an addition, a word that
is no instruction, and an operand. -/
def tied : List Call :=
  [.event (.fetched (.decode 0x0523) 0), .clear, .event (.fetched (.decode 0x0612) 2),
    .event (.fetched (.decode 0x0F00) 4), .event (.operand 5), .event (.fetched (.decode 0x0523) 6),
    .event (.fetched (.decode 0x1600) 8), .event (.fetched (.decode 0x0F00) 10)]

/-- The same words and the operand in another order. -/
def tiedBackwards : List Call :=
  [.event (.fetched (.decode 0x0F00) 10), .event (.fetched (.decode 0x1600) 8),
    .event (.fetched (.decode 0x0523) 6), .event (.operand 5), .event (.fetched (.decode 0x0F00) 4),
    .event (.fetched (.decode 0x0612) 2)]

theorem tied_ranking :
    (Call.pending [] tied).countP Event.isFetch < UInt64.size ∧
      (empty.tellAll tied).mostFrequent = [(.nop, 2), (.compute .add, 1), (.push, 1)] ∧
      (empty.tellAll tied).total.toNat = 5 ∧ (empty.tellAll tied).illegal.toNat = 1 ∧
      empty.tellAll tiedBackwards = empty.tellAll tied := by
  have hbound : (Call.pending [] tied).countP Event.isFetch < UInt64.size := by decide
  obtain ⟨-, -, -, -, htotal, hsum, horder⟩ := ranking_of_calls tied hbound
  have hentries : (empty.tellAll tied).entries = [(.compute .add, 1), (.push, 1), (.nop, 2)] := by
    decide +kernel
  have hlisted : (empty.tellAll tied).mostFrequent =
      [(.nop, 2), (.compute .add, 1), (.push, 1)] := by
    have htie : (Opcode.compute .add).bits ≤ Opcode.push.bits := by decide
    rw [mostFrequent, hentries]
    simp [List.mergeSort, ranksBefore, htie]
  have hwords : (Call.pending [] tied).countP Event.isWord = 5 := by decide +kernel
  rw [hwords] at htotal
  rw [htotal, hlisted] at hsum
  have hillegal : 5 = 4 + (empty.tellAll tied).illegal.toNat := hsum
  have hperm : (Call.pending [] tiedBackwards).Perm (Call.pending [] tied) :=
    List.reverse_perm (Call.pending [] tied)
  exact ⟨hbound, hlisted, htotal, by omega, horder tiedBackwards hperm⟩

end Histogram

end Moxie
