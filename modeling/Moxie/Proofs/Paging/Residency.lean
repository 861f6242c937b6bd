/-
# Moxie.Proofs.Paging.Residency — what the lookaside buffer holds after any history of operations.

A history is a list of operations on one unit, each resolve with the memory it was made against, so
the page tables may be rewritten between any two of them.  Two things can happen to a page in one
operation: its walk completes and is remembered (`Fills`), or what was remembered of it is lost
(`Evicts`).  A leaf entry is **resident** for a page when some operation of the history filled it
and no later one evicted it.

`cached_eq_some_iff` says that residency, which looks at the history alone, is exactly what the
buffer answers.  It goes by the one-operation law `cached_apply_eq_some_iff` and by unfolding a
history from its end, where both sides change by the same rule.
-/
import Mathlib.Data.List.Induction
import Moxie.Proofs.Paging.Lookaside

namespace Moxie.Mmu

/-! ## Histories -/

/-- An operation on a memory management unit. -/
inductive Operation where
  /-- Resolve an address against the memory as it is at that moment. -/
  | resolve (memory : Memory) (vaddr : UInt32) (kind : AccessKind)
  | flush
  | invalidate (vaddr : UInt32)
  | setBase (base : UInt32)
  | resetStatistics

/-- The unit after one operation. -/
def apply (u : Mmu) : Operation → Mmu
  | .resolve memory vaddr kind => (u.resolve memory vaddr kind).state
  | .flush => u.flush.1
  | .invalidate vaddr => (u.invalidate vaddr).1
  | .setBase base => (u.setBase base).1
  | .resetStatistics => u.resetStatistics

/-- The unit after a history of operations. -/
def applyAll (u : Mmu) (history : List Operation) : Mmu :=
  history.foldl apply u

@[simp]
theorem applyAll_append_singleton (u : Mmu) (history : List Operation) (op : Operation) :
    u.applyAll (history ++ [op]) = (u.applyAll history).apply op := by
  rw [applyAll, List.foldl_append]
  rfl

/-! ## What an operation does to a page -/

/-- **`u.Fills op page leaf`** — `op` resolves an address of `page` that is not cached, and its walk
completes with `leaf`; whether the access is then admitted does not matter. -/
def Fills (u : Mmu) (op : Operation) (page : UInt32) (leaf : PageEntry) : Prop :=
  ∃ memory vaddr kind w, op = .resolve memory vaddr kind ∧ pageNumber vaddr = page ∧
    u.cached vaddr = none ∧ u.tables.walk memory vaddr = .ok w ∧ w.leaf = leaf

/-- **`u.Evicts op page`** — after `op` nothing that was remembered of `page` is left. -/
def Evicts (u : Mmu) (op : Operation) (page : UInt32) : Prop :=
  match op with
  | .resolve .. => ∃ other leaf, u.Fills op other leaf ∧ other ≠ page ∧ other % 1024 = page % 1024
  | .flush => True
  | .invalidate vaddr => pageNumber vaddr = page
  | .setBase base => base ≠ u.tables.base
  | .resetStatistics => False

/-- **`u.Resident history page leaf`** — some operation of the history filled `page` with `leaf`,
and no later one evicted `page`. -/
def Resident (u : Mmu) (history : List Operation) (page : UInt32) (leaf : PageEntry) : Prop :=
  ∃ before op after, history = before ++ op :: after ∧
    (u.applyAll before).Fills op page leaf ∧
    ∀ between later rest, after = between ++ later :: rest →
      ¬ (u.applyAll (before ++ op :: between)).Evicts later page

variable {u : Mmu} {v : UInt32} {e : TlbEntry}

/-! ## One operation -/

/-- A resolve of an uncached address fills its page exactly when the walk completes. -/
theorem fills_resolve_iff {m : Memory} {a : UInt32} {kind : AccessKind} {page : UInt32}
    {leaf : PageEntry} :
    u.Fills (.resolve m a kind) page leaf ↔
      pageNumber a = page ∧ u.cached a = none ∧ ∃ w, u.tables.walk m a = .ok w ∧ w.leaf = leaf := by
  constructor
  · rintro ⟨_, _, _, w, hop, hpage, hnone, hw, hleaf⟩
    cases hop
    exact ⟨hpage, hnone, w, hw, hleaf⟩
  · rintro ⟨hpage, hnone, w, hw, hleaf⟩
    exact ⟨m, a, kind, w, rfl, hpage, hnone, hw, hleaf⟩

theorem not_fills_of_ne_resolve {op : Operation} {page : UInt32} {leaf : PageEntry}
    (h : ∀ m a kind, op ≠ .resolve m a kind) : ¬ u.Fills op page leaf := by
  rintro ⟨m, a, kind, _, hop, _⟩
  exact h m a kind hop

/-- A resolve that does not fill leaves the buffer as it was. -/
theorem tlb_resolve_of_not_fills {m : Memory} {a : UInt32} {kind : AccessKind}
    (h : ∀ page leaf, ¬ u.Fills (.resolve m a kind) page leaf) :
    (u.resolve m a kind).state.tlb = u.tlb := by
  cases hc : u.cached a with
  | some e => rw [resolve_of_cached hc]
  | none =>
    cases hw : u.tables.walk m a with
    | error e => rw [resolve_of_walk_error hc hw]
    | ok w => exact absurd (fills_resolve_iff.mpr ⟨rfl, hc, w, hw, rfl⟩) (h _ _)

theorem cached_resolve_eq_some_iff {m : Memory} {a : UInt32} {kind : AccessKind} :
    (u.resolve m a kind).state.cached v = some e ↔
      (u.Fills (.resolve m a kind) (pageNumber v) e.leaf ∧ e.tag = pageNumber v) ∨
        (u.cached v = some e ∧ ¬ u.Evicts (.resolve m a kind) (pageNumber v)) := by
  by_cases hfill : ∃ page leaf, u.Fills (.resolve m a kind) page leaf
  · obtain ⟨page, leaf, hfill⟩ := hfill
    obtain ⟨rfl, hnone, w, hw, rfl⟩ := fills_resolve_iff.mp hfill
    rw [resolve_of_walk_ok hnone hw, cached, Tlb.lookup_insert]
    simp only [fills_resolve_iff, Evicts, hw, Except.ok.injEq]
    -- the filled page is that of `v`, a competitor for its slot, or neither
    by_cases hpage : pageNumber a = pageNumber v
    · have hmiss : u.cached v = none := by
        rw [cached, ← hpage]
        exact hnone
      rw [if_pos (congrArg (· % 1024) hpage.symm), if_pos hpage]
      constructor
      · rintro ⟨⟩
        exact Or.inl ⟨⟨hpage, hnone, w, rfl, rfl⟩, hpage⟩
      · rintro (⟨⟨_, _, w', rfl, hleaf⟩, htag⟩ | ⟨hv, _⟩)
        · rw [hpage, hleaf, ← htag]
        · rw [hmiss] at hv
          exact absurd hv (by simp)
    · by_cases hslot : pageNumber v % 1024 = pageNumber a % 1024
      · rw [if_pos hslot, if_neg hpage]
        constructor
        · intro h
          exact absurd h (by simp)
        · rintro (⟨⟨h, _⟩, _⟩ | ⟨_, hkeep⟩)
          · exact absurd h hpage
          · exact absurd ⟨_, _, ⟨rfl, hnone, w, rfl, rfl⟩, hpage, hslot.symm⟩ hkeep
      · rw [if_neg hslot]
        constructor
        · intro hv
          refine Or.inr ⟨hv, ?_⟩
          rintro ⟨_, _, ⟨rfl, _⟩, _, h⟩
          exact hslot h.symm
        · rintro (⟨⟨h, _⟩, _⟩ | ⟨hv, _⟩)
          · exact absurd h hpage
          · exact hv
  · have hno : ∀ page leaf, ¬ u.Fills (.resolve m a kind) page leaf :=
      fun page leaf h => hfill ⟨page, leaf, h⟩
    rw [cached, tlb_resolve_of_not_fills hno]
    constructor
    · intro hv
      refine Or.inr ⟨hv, ?_⟩
      rintro ⟨other, leaf, h, _⟩
      exact hno other leaf h
    · rintro (⟨h, _⟩ | ⟨hv, _⟩)
      · exact absurd h (hno _ _)
      · exact hv

theorem cached_flush (u : Mmu) (v : UInt32) : u.flush.1.cached v = none :=
  Tlb.lookup_empty (pageNumber_ne_invalidTag v)

/-- **The one-operation law.**  After an operation an address is cached with `e` exactly when the
operation filled its page with `e`, or it was cached with `e` before and is not evicted. -/
theorem cached_apply_eq_some_iff (u : Mmu) (op : Operation) (v : UInt32) (e : TlbEntry) :
    (u.apply op).cached v = some e ↔
      (u.Fills op (pageNumber v) e.leaf ∧ e.tag = pageNumber v) ∨
        (u.cached v = some e ∧ ¬ u.Evicts op (pageNumber v)) := by
  cases op with
  | resolve m a kind => exact cached_resolve_eq_some_iff
  | flush =>
    rw [apply, cached_flush]
    simp [not_fills_of_ne_resolve, Evicts]
  | invalidate a =>
    rw [apply, invalidate, cached, Tlb.lookup_invalidate _ _ (pageNumber_ne_invalidTag v)]
    simp [not_fills_of_ne_resolve, Evicts, cached, eq_comm (a := pageNumber a), and_comm]
  | setBase base =>
    by_cases hbase : u.tables.base = base
    · rw [apply, setBase, if_pos hbase]
      simp [not_fills_of_ne_resolve, Evicts, hbase]
    · rw [apply, setBase, if_neg hbase]
      simp only [cached_flush]
      simp [not_fills_of_ne_resolve, Evicts, eq_comm (a := base), hbase]
  | resetStatistics =>
    rw [apply]
    simp [not_fills_of_ne_resolve, Evicts, resetStatistics, cached]

/-! ## Histories, unfolded from the end -/

theorem not_resident_nil (u : Mmu) (page : UInt32) (leaf : PageEntry) :
    ¬ u.Resident [] page leaf := by
  rintro ⟨before, op, after, h, _⟩
  exact absurd h.symm (by simp)

/-- Residency changes by the last operation as the buffer does. -/
theorem resident_append_singleton_iff (u : Mmu) (history : List Operation) (op : Operation)
    (page : UInt32) (leaf : PageEntry) :
    u.Resident (history ++ [op]) page leaf ↔
      (u.applyAll history).Fills op page leaf ∨
        (u.Resident history page leaf ∧ ¬ (u.applyAll history).Evicts op page) := by
  constructor
  · rintro ⟨before, fill, after, hsplit, hfill, hkept⟩
    rcases after.eq_nil_or_concat with rfl | ⟨kept, last, rfl⟩
    · obtain ⟨rfl, hop⟩ := List.append_inj' hsplit rfl
      obtain rfl := List.singleton_inj.mp hop
      exact Or.inl hfill
    · simp only [List.concat_eq_append] at hsplit hkept
      rw [← List.cons_append, ← List.append_assoc] at hsplit
      obtain ⟨rfl, hop⟩ := List.append_inj' hsplit rfl
      obtain rfl := List.singleton_inj.mp hop
      refine Or.inr ⟨⟨before, fill, kept, rfl, hfill, ?_⟩, hkept kept op [] rfl⟩
      intro between later rest hmid
      refine hkept between later (rest ++ [op]) ?_
      rw [hmid, List.append_assoc, List.cons_append]
  · rintro (hfill | ⟨⟨before, fill, after, rfl, hfill, hkept⟩, hlast⟩)
    · refine ⟨history, op, [], rfl, hfill, ?_⟩
      intro between later rest h
      exact absurd h.symm (by simp)
    · refine ⟨before, fill, after ++ [op], by simp, hfill, ?_⟩
      intro between later rest hmid
      -- the evicting operation is the last one of the history or lies before it
      rcases rest.eq_nil_or_concat with rfl | ⟨rest, last, rfl⟩
      · obtain ⟨rfl, hop⟩ := List.append_inj' hmid rfl
        obtain rfl := List.singleton_inj.mp hop
        exact hlast
      · rw [List.concat_eq_append, ← List.cons_append, ← List.append_assoc] at hmid
        obtain ⟨hmid, _⟩ := List.append_inj' hmid rfl
        exact hkept between later rest hmid

/-- **The buffer holds what is resident.** -/
theorem cached_eq_some_iff (t : PageTables) (history : List Operation) (v : UInt32)
    (e : TlbEntry) :
    ((ofTables t).applyAll history).cached v = some e ↔
      (ofTables t).Resident history (pageNumber v) e.leaf ∧ e.tag = pageNumber v := by
  induction history using List.reverseRecOn with
  | nil =>
    have hempty : (ofTables t).cached v = none := Tlb.lookup_empty (pageNumber_ne_invalidTag v)
    rw [applyAll, List.foldl_nil, hempty]
    simp [not_resident_nil]
  | append_singleton history op ih =>
    rw [applyAll_append_singleton, cached_apply_eq_some_iff, ih, resident_append_singleton_iff]
    tauto

/-- An address counts as a hit exactly when it is cached. -/
theorem hits_resolve_iff (u : Mmu) (m : Memory) (v : UInt32) (kind : AccessKind) :
    (u.resolve m v kind).state.stats.hits = u.stats.hits + 1 ↔ ∃ e, u.cached v = some e := by
  have hne : u.stats.hits ≠ u.stats.hits + 1 := by simp
  cases hc : u.cached v with
  | some e => simp [resolve_of_cached hc]
  | none =>
    cases hw : u.tables.walk m v with
    | error e => simp [resolve_of_walk_error hc hw, hne]
    | ok w => simp [resolve_of_walk_ok hc hw, hne]

/-- **Exact residency.**  After any history of a new unit, an address is cached with an entry
exactly when that entry is resident for its page.  The next resolve of the address, against any
memory, hits exactly then and answers from the resident leaf entry alone; otherwise it answers what
a walk of that memory answers. -/
theorem cached_iff_resident (t : PageTables) (history : List Operation) (v : UInt32) :
    let u := (ofTables t).applyAll history
    (∀ e, u.cached v = some e ↔
      (ofTables t).Resident history (pageNumber v) e.leaf ∧ e.tag = pageNumber v) ∧
    ∀ (m : Memory) (kind : AccessKind),
      ((u.resolve m v kind).state.stats.hits = u.stats.hits + 1 ↔
        ∃ leaf, (ofTables t).Resident history (pageNumber v) leaf) ∧
      (∀ leaf, (ofTables t).Resident history (pageNumber v) leaf →
        (u.resolve m v kind).result = u.tables.target leaf v kind) ∧
      ((∀ leaf, ¬ (ofTables t).Resident history (pageNumber v) leaf) →
        (u.resolve m v kind).result = u.tables.translate m v kind) := by
  intro u
  have hcached : ∀ e, u.cached v = some e ↔
      (ofTables t).Resident history (pageNumber v) e.leaf ∧ e.tag = pageNumber v :=
    cached_eq_some_iff t history v
  refine ⟨hcached, ?_⟩
  intro m kind
  refine ⟨?_, ?_, ?_⟩
  · rw [hits_resolve_iff]
    constructor
    · rintro ⟨e, he⟩
      exact ⟨e.leaf, ((hcached e).mp he).1⟩
    · rintro ⟨leaf, hleaf⟩
      exact ⟨⟨pageNumber v, leaf⟩, (hcached _).mpr ⟨hleaf, rfl⟩⟩
  · intro leaf hleaf
    rw [resolve_of_cached ((hcached ⟨pageNumber v, leaf⟩).mpr ⟨hleaf, rfl⟩)]
  · intro hnone
    refine result_resolve_of_not_cached ?_
    cases hc : u.cached v with
    | none => rfl
    | some e => exact absurd ((hcached e).mp hc).1 (hnone e.leaf)

end Moxie.Mmu
