/-
# Moxie.Proofs.Paging.Retry — what a failed resolve leaves for the next one.

A resolve ends in one of two ways (`exists_walk_error_or_cached`).  Either its walk fails, and then
the buffer is as it was and knows nothing of the page; or the page is cached afterwards, and the
answer is the one that the cached entry gives, which may be a refusal.  So the reason of a failure
tells what is to be done before a retry.  After a failed walk the next resolve of the page sees the
tables as they are by then.  After a refusal it does not: the entry that refused stays, and goes on
refusing writes and answering reads, until something evicts it.

A history **spares** a page when none of its operations evicts it.
-/
import Moxie.Proofs.Paging.Accounting

namespace Moxie

namespace Mmu

variable {u : Mmu} {m : Memory} {v a : UInt32} {kind : AccessKind} {e : TlbEntry}

/-- Whether an address is cached is a matter of its page. -/
theorem cached_congr (h : pageNumber a = pageNumber v) : u.cached a = u.cached v := by
  rw [cached, cached, h]

/-! ## The two ways a resolve ends -/

/-- **The walk fails, or the page is cached.** -/
theorem exists_walk_error_or_cached (u : Mmu) (m : Memory) (v : UInt32) (kind : AccessKind) :
    (∃ f, u.cached v = none ∧ u.tables.walk m v = .error f ∧
      (u.resolve m v kind).result = .error f ∧ (u.resolve m v kind).state.tlb = u.tlb) ∨
    ∃ e, (u.resolve m v kind).state.cached v = some e ∧
      (u.resolve m v kind).result = u.tables.target e.leaf v kind := by
  cases hc : u.cached v with
  | some e =>
    rw [resolve_of_cached hc]
    exact .inr ⟨e, hc, rfl⟩
  | none =>
    cases hw : u.tables.walk m v with
    | error f =>
      rw [resolve_of_walk_error hc hw]
      exact .inl ⟨f, rfl, rfl, rfl, rfl⟩
    | ok w =>
      rw [resolve_of_walk_ok hc hw]
      exact .inr ⟨⟨pageNumber v, w.leaf⟩, Tlb.lookup_insert_self _ _, rfl⟩

/-- A resolve touches one slot, the one of its page. -/
theorem slot_resolve_of_ne {i : Fin tlbSize} (hi : i ≠ Tlb.slotOf (pageNumber v)) :
    (u.resolve m v kind).state.tlb.slot i = u.tlb.slot i := by
  cases hc : u.cached v with
  | some e => rw [resolve_of_cached hc]
  | none =>
    cases hw : u.tables.walk m v with
    | error f => rw [resolve_of_walk_error hc hw]
    | ok w =>
      rw [resolve_of_walk_ok hc hw]
      exact (Tlb.slot_insert ..).trans (if_neg hi)

/-- A failure that is not a refusal is the walk's. -/
theorem walk_of_error {f : AccessError} (h : (u.resolve m v kind).result = .error f)
    (hf : f.isPageReadOnly = false) :
    u.cached v = none ∧ (u.resolve m v kind).state.tlb = u.tlb := by
  rcases exists_walk_error_or_cached u m v kind with ⟨_, hnone, _, _, htlb⟩ | ⟨e, _, hresult⟩
  · exact ⟨hnone, htlb⟩
  · have hreadOnly := PageTables.isPageReadOnly_of_target (hresult.symm.trans h)
    rw [hf] at hreadOnly
    cases hreadOnly

/-- A refusal is that of an entry which is cached by then. -/
theorem exists_cached_of_refusal (h : (u.resolve m v kind).result = .error (.pageReadOnly a)) :
    a = v ∧ ∃ e, (u.resolve m v kind).state.cached v = some e ∧ e.leaf.isWritable = false := by
  rcases exists_walk_error_or_cached u m v kind with ⟨f, _, hw, hresult, _⟩ | ⟨e, hcached, hresult⟩
  · cases hresult.symm.trans h
    cases PageTables.isPageReadOnly_of_walk hw
  · obtain ⟨⟨-, hreadOnly⟩, ha⟩ := PageTables.target_eq_error_iff.mp (hresult.symm.trans h)
    exact ⟨AccessError.pageReadOnly.inj ha, e, hcached, hreadOnly⟩

/-- **A resolve that is repeated answers the same**, and finds nothing more to remember. -/
theorem resolve_resolve (u : Mmu) (m : Memory) (v : UInt32) (kind : AccessKind) :
    ((u.resolve m v kind).state.resolve m v kind).result = (u.resolve m v kind).result ∧
      ((u.resolve m v kind).state.resolve m v kind).state.tlb = (u.resolve m v kind).state.tlb := by
  rcases exists_walk_error_or_cached u m v kind with
    ⟨f, hnone, hw, hresult, htlb⟩ | ⟨e, hcached, hresult⟩
  · have hnone' : (u.resolve m v kind).state.cached v = none := by
      rw [cached, htlb]
      exact hnone
    rw [← tables_resolve u m v kind] at hw
    rw [resolve_of_walk_error hnone' hw]
    exact ⟨hresult.symm, rfl⟩
  · rw [resolve_of_cached hcached, hresult, tables_resolve]
    exact ⟨rfl, rfl⟩

/-! ## Histories that spare a page -/

/-- **`u.Spares history page`** — no operation of the history evicts the page. -/
def Spares (u : Mmu) : List Operation → UInt32 → Prop
  | [], _ => True
  | op :: history, page => ¬ u.Evicts op page ∧ (u.apply op).Spares history page

/-- What spares a page leaves the tables where they are. -/
theorem tables_apply_of_not_evicts {op : Operation} {page : UInt32} (h : ¬ u.Evicts op page) :
    (u.apply op).tables = u.tables := by
  cases op with
  | resolve m a kind => exact tables_resolve u m a kind
  | flush => exact absurd trivial h
  | invalidate a => rfl
  | setBase base =>
    have hbase : base = u.tables.base := not_not.mp h
    rw [apply, setBase, if_pos hbase.symm]
  | resetStatistics => rfl

/-- **An entry stays while it is spared.** -/
theorem cached_applyAll_of_spares {history : List Operation} (hcached : u.cached v = some e)
    (hspares : u.Spares history (pageNumber v)) :
    (u.applyAll history).cached v = some e ∧ (u.applyAll history).tables = u.tables := by
  induction history generalizing u with
  | nil => exact ⟨hcached, rfl⟩
  | cons op history ih =>
    obtain ⟨hop, hspares⟩ := hspares
    have hstep : (u.apply op).cached v = some e :=
      (cached_apply_eq_some_iff u op v e).mpr (.inr ⟨hcached, hop⟩)
    obtain ⟨hlater, htables⟩ := ih hstep hspares
    exact ⟨hlater, htables.trans (tables_apply_of_not_evicts hop)⟩

/-- What evicts a cached page leaves nothing of it. -/
theorem cached_apply_of_evicts {op : Operation} (hcached : u.cached v = some e)
    (hevicts : u.Evicts op (pageNumber v)) : (u.apply op).cached v = none := by
  cases hc : (u.apply op).cached v with
  | none => rfl
  | some e' =>
    rcases (cached_apply_eq_some_iff u op v e').mp hc with ⟨hfills, -⟩ | ⟨-, hspared⟩
    · -- a page that is cached is not filled
      obtain ⟨_, a, _, _, _, hpage, hnone, _⟩ := hfills
      rw [cached_congr hpage, hcached] at hnone
      cases hnone
    · exact absurd hevicts hspared

/-! ## Retries -/

/-- **What to do before a retry.**  A resolve that fails, but not because the page is read-only,
leaves the buffer as it was and the page uncached, so that the next resolve on the page answers as
the tables do in whatever memory there is then.  One that fails because the page is read-only leaves
the page cached and every other slot as it was; then writes on the page are refused, and reads are
answered with the cached frame, whatever is in memory, as long as nothing evicts the page, and what
evicts it leaves nothing of it.  In any case the same resolve against the same memory answers the
same and leaves the buffer as it is. -/
theorem retry_after_resolve (u : Mmu) (m : Memory) (v : UInt32) (kind : AccessKind) :
    let r := u.resolve m v kind
    (∀ f, r.result = .error f → (∀ a, f ≠ .pageReadOnly a) →
      r.state.tlb = u.tlb ∧ r.state.cached v = none ∧
        ∀ (m' : Memory) a (kind' : AccessKind), pageNumber a = pageNumber v →
          (r.state.resolve m' a kind').result = u.tables.translate m' a kind') ∧
    (∀ a, r.result = .error (.pageReadOnly a) →
      ∃ e, r.state.cached v = some e ∧
        (∀ i, i ≠ Tlb.slotOf (pageNumber v) → r.state.tlb.slot i = u.tlb.slot i) ∧
        ∀ history, r.state.Spares history (pageNumber v) →
          (∀ (m' : Memory) a, pageNumber a = pageNumber v →
            ((r.state.applyAll history).resolve m' a .write).result = .error (.pageReadOnly a) ∧
            ((r.state.applyAll history).resolve m' a .read).result =
              .ok (e.leaf.frame u.tables.frameMask + pageOffset a)) ∧
          ∀ op, (r.state.applyAll history).Evicts op (pageNumber v) →
            ((r.state.applyAll history).apply op).cached v = none) ∧
    (r.state.resolve m v kind).result = r.result ∧
      (r.state.resolve m v kind).state.tlb = r.state.tlb := by
  intro r
  refine ⟨?_, ?_, resolve_resolve u m v kind⟩
  · intro f hf hnot
    have hkind : f.isPageReadOnly = false := by
      cases f with
      | pageReadOnly a => exact absurd rfl (hnot a)
      | _ => rfl
    obtain ⟨hnone, htlb⟩ := walk_of_error hf hkind
    have hnone' : r.state.cached v = none := by
      rw [cached, htlb]
      exact hnone
    refine ⟨htlb, hnone', fun m' a kind' hpage => ?_⟩
    rw [result_resolve_of_not_cached ((cached_congr hpage).trans hnone'), tables_resolve]
  · intro a ha
    obtain ⟨-, e, hcached, hreadOnly⟩ := exists_cached_of_refusal ha
    refine ⟨e, hcached, fun i hi => slot_resolve_of_ne hi, fun history hspares => ?_⟩
    obtain ⟨hlater, htables⟩ := cached_applyAll_of_spares hcached hspares
    refine ⟨fun m' a hpage => ?_, fun op hevicts => cached_apply_of_evicts hlater hevicts⟩
    have hsame := (cached_congr hpage).trans hlater
    rw [resolve_of_cached hsame, resolve_of_cached hsame, htables, tables_resolve]
    exact ⟨PageTables.target_eq_error_iff.mpr ⟨⟨rfl, hreadOnly⟩, rfl⟩, PageTables.target_read⟩

/-- Four bytes that are both the directory entry of page 0 and its table entry, present and
read-only. -/
def lockedMemory : Memory :=
  ⟨⟨#[], #[1, 0, 0, 0], by decide⟩, by decide, by decide, by decide⟩

/-- The same four bytes with no entry in them. -/
def clearedMemory : Memory :=
  ⟨⟨#[], #[0, 0, 0, 0], by decide⟩, by decide, by decide, by decide⟩

/-- Without an entry the page is looked for again, and found once there is one.  With the entry it
is refused, and stays refused when the entry is gone. -/
theorem locked_retries :
    let lost := (ofTables {}).resolve clearedMemory 0 .write
    let refused := (ofTables {}).resolve lockedMemory 0 .write
    let later := refused.state.applyAll [.invalidate 4096, .resetStatistics]
    lost.result = .error (.directoryEntryNotPresent 0) ∧
      (lost.state.resolve lockedMemory 8 .read).result = .ok 8 ∧
      refused.result = .error (.pageReadOnly 0) ∧
      (later.resolve clearedMemory 8 .write).result = .error (.pageReadOnly 8) ∧
      ∃ e, refused.state.cached 0 = some e ∧
        (later.resolve clearedMemory 8 .read).result = .ok (e.leaf.frame defaultFrameMask + 8) := by
  intro lost refused later
  have hlost : lost.result = .error (.directoryEntryNotPresent 0) := by decide +kernel
  have hrefused : refused.result = .error (.pageReadOnly 0) := by decide +kernel
  obtain ⟨hretry, -⟩ := retry_after_resolve (ofTables {}) clearedMemory 0 .write
  obtain ⟨-, -, hfound⟩ := hretry _ hlost nofun
  obtain ⟨-, hreadOnly, -⟩ := retry_after_resolve (ofTables {}) lockedMemory 0 .write
  obtain ⟨e, hcached, -, hspared⟩ := hreadOnly 0 hrefused
  have hspares : refused.state.Spares [.invalidate 4096, .resetStatistics] (pageNumber 0) :=
    ⟨by show ¬ pageNumber 4096 = pageNumber 0; decide, not_false, trivial⟩
  obtain ⟨hwrite, hread⟩ := (hspared _ hspares).1 clearedMemory 8 (by decide)
  have htranslate : PageTables.translate {} lockedMemory 8 .read = .ok 8 := by decide +kernel
  exact ⟨hlost, (hfound lockedMemory 8 .read (by decide)).trans htranslate, hrefused, hwrite, e,
    hcached, hread⟩

end Mmu

end Moxie
