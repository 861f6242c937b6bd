/-
# Moxie.Proofs.Paging.Accounting — the counters, the log and the buffer keep the same books.

A transition of a unit is classified by what it is asked and what comes of it: a translation hits or
misses, a miss completes its walk or fails, a completed walk may overwrite a slot in use, a flush or
a change of base empties the buffer, an invalidation may drop an entry.  Three books are kept of
these.  The counters are kept by the unit, the log is what it reports, and the number of slots in
use is what the buffer holds.

Each book has a law for one transition (`stats_after`, `countP_reports`, `occupied_after`) and from
it, unfolding histories from the end, a law for all of them.  The counters forget at a reset and the
buffer forgets when it is emptied, so they account for different parts of a history: the transitions
since the last `resets` and since the last `empties`.  Both parts are taken by `List.rtakeWhile`,
and both are the whole history when nothing was forgotten.
-/
import Mathlib.Data.List.DropRight
import Moxie.Proofs.Counting
import Moxie.Proofs.Paging.History

namespace Moxie

/-! ## Kinds of answers and of reports -/

/-- The error is that the page is read-only. -/
def AccessError.isPageReadOnly : AccessError → Bool
  | .pageReadOnly _ => true
  | _ => false

namespace PagingEvent

def isMissResolved : PagingEvent → Bool
  | .missResolved .. => true
  | _ => false

def isFlushed : PagingEvent → Bool
  | .flushed => true
  | _ => false

def isInvalidated : PagingEvent → Bool
  | .invalidated .. => true
  | _ => false

end PagingEvent

/-! ## Kinds of transitions -/

namespace Mmu.Transition

/-- The unit is asked to translate, whatever comes of it. -/
@[simp]
def translates : Transition → Bool
  | ⟨_, .resolve ..⟩ => true
  | _ => false

/-- A translation whose page is cached. -/
@[simp]
def hits : Transition → Bool
  | ⟨u, .resolve _ vaddr _⟩ => (u.cached vaddr).isSome
  | _ => false

/-- A translation whose page is not cached. -/
@[simp]
def misses : Transition → Bool
  | ⟨u, .resolve _ vaddr _⟩ => (u.cached vaddr).isNone
  | _ => false

/-- A miss whose walk completes, whether or not the access is then admitted. -/
@[simp]
def walks : Transition → Bool
  | ⟨u, .resolve memory vaddr _⟩ => (u.cached vaddr).isNone && (u.tables.walk memory vaddr).isOk
  | _ => false

/-- A completed walk whose entry takes a slot in use. -/
@[simp]
def overwrites : Transition → Bool
  | ⟨u, .resolve memory vaddr _⟩ =>
    (u.cached vaddr).isNone && (u.tables.walk memory vaddr).isOk &&
      (u.tlb.slot (Tlb.slotOf (pageNumber vaddr))).isValid
  | _ => false

/-- A translation that answers an error, unless the error is that the page is read-only. -/
@[simp]
def fails : Transition → Bool
  | ⟨u, .resolve memory vaddr kind⟩ =>
    match (u.resolve memory vaddr kind).result with
    | .ok _ => false
    | .error e => !e.isPageReadOnly
  | _ => false

/-- The whole buffer is to be flushed. -/
@[simp]
def flushes : Transition → Bool
  | ⟨_, .flush⟩ => true
  | _ => false

/-- The base is to be another than it is. -/
@[simp]
def changesBase : Transition → Bool
  | ⟨u, .setBase base⟩ => base != u.tables.base
  | _ => false

/-- The whole buffer is emptied. -/
@[simp]
def empties (x : Transition) : Bool :=
  x.flushes || x.changesBase

/-- One page is to be forgotten. -/
@[simp]
def invalidates : Transition → Bool
  | ⟨_, .invalidate _⟩ => true
  | _ => false

/-- One page that is cached is to be forgotten. -/
@[simp]
def drops : Transition → Bool
  | ⟨u, .invalidate vaddr⟩ => (u.cached vaddr).isSome
  | _ => false

/-- Counting is to start again. -/
@[simp]
def resets : Transition → Bool
  | ⟨_, .resetStatistics⟩ => true
  | _ => false

end Mmu.Transition

namespace PageTables

variable {t : PageTables} {m : Memory} {v : UInt32} {kind : AccessKind} {leaf : PageEntry}
  {e : AccessError}

theorem isPageReadOnly_of_readEntry {a : UInt32} (h : readEntry m a = .error e) :
    e.isPageReadOnly = false := by
  unfold readEntry at h
  split at h
  · exact absurd h (by simp)
  · cases h
    rfl

/-- A walk knows nothing of read-only pages. -/
theorem isPageReadOnly_of_walk (h : t.walk m v = .error e) : e.isPageReadOnly = false := by
  unfold walk at h
  split at h
  · rename_i hread
    cases h
    exact isPageReadOnly_of_readEntry hread
  · split at h
    · split at h
      · rename_i hread
        cases h
        exact isPageReadOnly_of_readEntry hread
      · split at h
        · split at h
          · exact absurd h (by simp)
          · cases h
            rfl
        · cases h
          rfl
    · cases h
      rfl

/-- An entry refuses an access for no other reason than that its page is read-only. -/
theorem isPageReadOnly_of_target (h : t.target leaf v kind = .error e) :
    e.isPageReadOnly = true := by
  obtain ⟨-, rfl⟩ := target_eq_error_iff.mp h
  rfl

end PageTables

namespace Mmu.Transition

/-! ## One transition, classified -/

variable {u : Mmu} {m : Memory} {v base : UInt32} {kind : AccessKind} {leaf : PageEntry}

theorem translates_toNat (x : Transition) :
    x.translates.toNat = x.hits.toNat + x.misses.toNat := by
  rcases x with ⟨u, op⟩
  cases op with
  | resolve m v kind => cases hc : u.cached v <;> simp [hc]
  | _ => rfl

/-- What an entry answers to an access is not a failure of the translation. -/
theorem not_fails_of_target (h : (u.resolve m v kind).result = u.tables.target leaf v kind) :
    (⟨u, .resolve m v kind⟩ : Transition).fails = false := by
  cases htarget : u.tables.target leaf v kind with
  | ok paddr => simp [h, htarget]
  | error e => simp [h, htarget, PageTables.isPageReadOnly_of_target htarget]

/-- A miss completes its walk, or the translation fails for another reason than a read-only page. -/
theorem misses_toNat (x : Transition) :
    x.misses.toNat = x.walks.toNat + x.fails.toNat := by
  rcases x with ⟨u, op⟩
  cases op with
  | resolve m v kind =>
    cases hc : u.cached v with
    | some e =>
      rw [not_fails_of_target (congrArg Reply.result (resolve_of_cached hc))]
      simp [hc]
    | none =>
      cases hw : u.tables.walk m v with
      | ok w =>
        rw [not_fails_of_target (congrArg Reply.result (resolve_of_walk_ok hc hw))]
        simp [hc, hw]
      | error e =>
        have hkind : e.isPageReadOnly = false := PageTables.isPageReadOnly_of_walk hw
        simp [hc, hw, resolve_of_walk_error hc hw, hkind]
  | _ => rfl

theorem empties_toNat (x : Transition) :
    x.empties.toNat = x.flushes.toNat + x.changesBase.toNat := by
  rcases x with ⟨u, op⟩
  cases op with
  | setBase base => simp
  | _ => rfl

/-- A base that stays as it is brings nothing. -/
theorem setBase_of_not_changesBase (h : (⟨u, .setBase base⟩ : Transition).changesBase = false) :
    u.setBase base = (u, []) := by
  have heq : base = u.tables.base := by simpa using h
  rw [setBase, if_pos heq.symm]

/-- A base that does not brings a flush. -/
theorem setBase_of_changesBase (h : (⟨u, .setBase base⟩ : Transition).changesBase = true) :
    u.setBase base =
      (({ u with tables := { u.tables with base } } : Mmu).flush.1,
        [.baseChanged u.tables.base base, .flushed]) := by
  have hne : u.tables.base ≠ base := fun heq => by simp [heq] at h
  rw [setBase, if_neg hne]
  rfl

/-! ## One transition in the log -/

/-- A translation reports its walk, if it completes one, and nothing else. -/
theorem reports_resolve (u : Mmu) (m : Memory) (v : UInt32) (kind : AccessKind) :
    let x : Transition := ⟨u, .resolve m v kind⟩
    (x.walks = false ∧ x.reports = []) ∨
      (x.walks = true ∧ ∃ directory leaf, x.reports = [.missResolved v directory leaf]) := by
  intro x
  show (x.walks = false ∧ (u.resolve m v kind).events = []) ∨
    (x.walks = true ∧ ∃ directory leaf,
      (u.resolve m v kind).events = [.missResolved v directory leaf])
  cases hc : u.cached v with
  | some e => simp [x, hc, resolve_of_cached hc]
  | none =>
    cases hw : u.tables.walk m v with
    | error e => simp [x, hw, resolve_of_walk_error hc hw]
    | ok w => simp [x, hc, hw, resolve_of_walk_ok hc hw]

/-- A change of base is reported right before the flush that it brings. -/
theorem reports_of_changesBase {x : Transition} (h : x.changesBase = true) :
    x.reports = [.baseChanged x.unit.tables.base x.after.tables.base, .flushed] := by
  rcases x with ⟨u, op⟩
  cases op with
  | setBase base =>
    show (u.setBase base).2 = [.baseChanged u.tables.base (u.setBase base).1.tables.base, .flushed]
    rw [setBase_of_changesBase h]
    rfl
  | _ => exact absurd h (by simp)

/-- The log has one line of its kind for each completed walk, each emptying and each
invalidation. -/
theorem countP_reports (x : Transition) :
    x.reports.countP PagingEvent.isMissResolved = x.walks.toNat ∧
      x.reports.countP PagingEvent.isFlushed = x.empties.toNat ∧
      x.reports.countP PagingEvent.isInvalidated = x.invalidates.toNat := by
  rcases x with ⟨u, op⟩
  cases op with
  | resolve m v kind =>
    rcases reports_resolve u m v kind with ⟨hwalks, hreports⟩ | ⟨hwalks, d, l, hreports⟩ <;>
      rw [hwalks, hreports] <;> exact ⟨rfl, rfl, rfl⟩
  | setBase base =>
    cases hchange : (⟨u, .setBase base⟩ : Transition).changesBase with
    | true =>
      rw [reports_of_changesBase hchange, empties, hchange]
      exact ⟨rfl, rfl, rfl⟩
    | false =>
      have hreports : (⟨u, .setBase base⟩ : Transition).reports = [] :=
        congrArg Prod.snd (setBase_of_not_changesBase hchange)
      rw [hreports, empties, hchange]
      exact ⟨rfl, rfl, rfl⟩
  | _ => exact ⟨rfl, rfl, rfl⟩

end Mmu.Transition

/-! ## One transition in the counters -/

namespace Statistics

open Mmu (Transition)

/-- The counters with one more transition counted. -/
def record (s : Statistics) (x : Transition) : Statistics where
  lookups := s.lookups + x.translates.toUInt64
  hits := s.hits + x.hits.toUInt64
  misses := s.misses + x.misses.toUInt64
  walks := s.walks + x.walks.toUInt64
  flushes := s.flushes + x.empties.toUInt64
  invalidations := s.invalidations + x.invalidates.toUInt64

/-- **`tally xs`** — the counters that say how many transitions there are of each kind. -/
def tally (xs : List Transition) : Statistics where
  lookups := .ofNat (xs.countP Transition.translates)
  hits := .ofNat (xs.countP Transition.hits)
  misses := .ofNat (xs.countP Transition.misses)
  walks := .ofNat (xs.countP Transition.walks)
  flushes := .ofNat (xs.countP Transition.empties)
  invalidations := .ofNat (xs.countP Transition.invalidates)

theorem tally_append_singleton (xs : List Transition) (x : Transition) :
    tally (xs ++ [x]) = (tally xs).record x := by
  have hcount : ∀ p : Transition → Bool,
      UInt64.ofNat ((xs ++ [x]).countP p) = UInt64.ofNat (xs.countP p) + (p x).toUInt64 := by
    intro p
    rw [countP_append_singleton, UInt64.ofNat_add]
    cases p x <;> rfl
  simp only [tally, record, hcount]

end Statistics

namespace Mmu.Transition

/-- The counters move by what the transition is. -/
theorem stats_after {x : Transition} (h : x.resets = false) :
    x.after.stats = x.unit.stats.record x := by
  rcases x with ⟨u, op⟩
  cases op with
  | resolve m v kind =>
    show (u.resolve m v kind).state.stats = u.stats.record ⟨u, .resolve m v kind⟩
    cases hc : u.cached v with
    | some e => simp [Statistics.record, Bool.toUInt64, hc, resolve_of_cached hc]
    | none =>
      cases hw : u.tables.walk m v with
      | error e =>
        simp [Statistics.record, Bool.toUInt64, hc, hw, resolve_of_walk_error hc hw]
      | ok w =>
        simp [Statistics.record, Bool.toUInt64, hc, hw, resolve_of_walk_ok hc hw]
  | flush => simp [after, apply, flush, Statistics.record, Bool.toUInt64]
  | invalidate v => simp [after, apply, invalidate, Statistics.record, Bool.toUInt64]
  | setBase base =>
    show (u.setBase base).1.stats = u.stats.record ⟨u, .setBase base⟩
    cases hchange : (⟨u, .setBase base⟩ : Transition).changesBase with
    | true =>
      rw [setBase_of_changesBase hchange, Statistics.record, empties, hchange]
      simp [flush, Bool.toUInt64]
    | false =>
      rw [setBase_of_not_changesBase hchange, Statistics.record, empties, hchange]
      simp [Bool.toUInt64]
  | resetStatistics => exact absurd h (by simp)

end Mmu.Transition

/-! ## One transition in the buffer -/

namespace Tlb

theorem occupied_empty : empty.occupied = 0 := by
  simp [occupied, empty, Vector.countP_replicate, TlbEntry.isValid, TlbEntry.empty]

/-- Replacing what a slot holds changes the number of slots in use by that slot alone. -/
theorem occupied_set (b : Tlb) (i : Fin tlbSize) (e : TlbEntry) :
    (⟨b.slots.set i.val e i.isLt⟩ : Tlb).occupied + (b.slot i).isValid.toNat =
      b.occupied + e.isValid.toNat := by
  unfold occupied
  rw [Vector.countP_set]
  show b.slots.countP TlbEntry.isValid - (if (b.slot i).isValid = true then 1 else 0) +
    (if e.isValid = true then 1 else 0) + (b.slot i).isValid.toNat = _
  cases hold : (b.slot i).isValid with
  | false => cases e.isValid <;> simp
  | true =>
    -- a slot in use is one of those counted, so that one can be taken away
    have hcounted : 0 < b.slots.countP TlbEntry.isValid :=
      Vector.countP_pos_iff.mpr ⟨b.slot i, Vector.getElem_mem _, hold⟩
    cases e.isValid <;> simp <;> omega

theorem occupied_insert (b : Tlb) {e : TlbEntry} (he : e.isValid = true) :
    (b.insert e).occupied + (b.slot (slotOf e.tag)).isValid.toNat = b.occupied + 1 := by
  have hset := occupied_set b (slotOf e.tag) e
  rw [he] at hset
  exact hset

theorem occupied_invalidate (b : Tlb) {page : UInt32} (hpage : page ≠ TlbEntry.invalidTag) :
    (b.invalidate page).occupied + (b.lookup page).isSome.toNat = b.occupied := by
  unfold invalidate lookup
  split
  · rename_i htag
    have hvalid : (b.slot (slotOf page)).isValid = true := by
      rw [TlbEntry.isValid, htag, bne_iff_ne]
      exact hpage
    have hset := occupied_set b (slotOf page) TlbEntry.empty
    rw [hvalid, show TlbEntry.empty.isValid = false from rfl] at hset
    simpa [htag] using hset
  · rename_i htag
    simp [htag]

end Tlb

namespace Mmu.Transition

/-- **The buffer holds one entry more for a completed walk and one less for each entry lost.** -/
theorem occupied_after {x : Transition} (h : x.empties = false) :
    x.after.tlb.occupied + x.overwrites.toNat + x.drops.toNat =
      x.unit.tlb.occupied + x.walks.toNat := by
  rcases x with ⟨u, op⟩
  cases op with
  | resolve m v kind =>
    show (u.resolve m v kind).state.tlb.occupied + _ + _ = _
    cases hc : u.cached v with
    | some e => simp [hc, resolve_of_cached hc]
    | none =>
      cases hw : u.tables.walk m v with
      | error e => simp [hc, hw, resolve_of_walk_error hc hw]
      | ok w =>
        have hvalid : (⟨pageNumber v, w.leaf⟩ : TlbEntry).isValid = true :=
          TlbEntry.isValid_of_tag rfl
        simpa [hc, hw, resolve_of_walk_ok hc hw] using Tlb.occupied_insert u.tlb hvalid
  | flush => exact absurd h (by simp)
  | invalidate v => exact Tlb.occupied_invalidate u.tlb (pageNumber_ne_invalidTag v)
  | setBase base =>
    have hsame : (⟨u, .setBase base⟩ : Transition).changesBase = false := by simpa using h
    simp [after, apply, setBase_of_not_changesBase hsame]
  | resetStatistics => rfl

/-- Emptied is empty. -/
theorem tlb_after_of_empties {x : Transition} (h : x.empties = true) : x.after.tlb = .empty := by
  rcases x with ⟨u, op⟩
  cases op with
  | flush => rfl
  | setBase base =>
    have hchange : (⟨u, .setBase base⟩ : Transition).changesBase = true := by simpa using h
    exact congrArg (·.1.tlb) (setBase_of_changesBase hchange)
  | _ => exact absurd h (by simp)

theorem stats_after_of_resets {x : Transition} (h : x.resets = true) : x.after.stats = {} := by
  rcases x with ⟨u, op⟩
  cases op with
  | resetStatistics => rfl
  | _ => exact absurd h (by simp)

end Mmu.Transition

/-! ## Histories, unfolded from the end -/

namespace Mmu

open Transition

theorem transitions_append_singleton (u : Mmu) (history : List Operation) (op : Operation) :
    u.transitions (history ++ [op]) = u.transitions history ++ [⟨u.applyAll history, op⟩] :=
  transitions_append u history [op]

/-- The transitions since counting started. -/
def counted (xs : List Transition) : List Transition :=
  xs.rtakeWhile fun x => !x.resets

/-- The transitions since the buffer was last emptied as a whole. -/
def buffered (xs : List Transition) : List Transition :=
  xs.rtakeWhile fun x => !x.empties

theorem counted_append_singleton (xs : List Transition) (x : Transition) :
    counted (xs ++ [x]) = if x.resets then [] else counted xs ++ [x] := by
  rw [counted, List.rtakeWhile_concat]
  cases x.resets <;> rfl

theorem buffered_append_singleton (xs : List Transition) (x : Transition) :
    buffered (xs ++ [x]) = if x.empties then [] else buffered xs ++ [x] := by
  rw [buffered, List.rtakeWhile_concat]
  cases x.empties <;> rfl

/-- **The counters tell how often each kind of work was done**, modulo `2 ^ 64`. -/
theorem stats_applyAll (t : PageTables) (history : List Operation) :
    ((ofTables t).applyAll history).stats =
      .tally (counted ((ofTables t).transitions history)) := by
  induction history using List.reverseRecOn with
  | nil => rfl
  | append_singleton history op ih =>
    rw [applyAll_append_singleton, transitions_append_singleton, counted_append_singleton]
    show (⟨(ofTables t).applyAll history, op⟩ : Transition).after.stats = _
    split
    · rename_i hresets
      rw [stats_after_of_resets hresets]
      rfl
    · rename_i hresets
      rw [stats_after (Bool.eq_false_iff.mpr hresets), Statistics.tally_append_singleton, ← ih]

/-- **The buffer holds what completed walks put there and nothing has taken away since.** -/
theorem occupied_applyAll (t : PageTables) (history : List Operation) :
    let xs := buffered ((ofTables t).transitions history)
    ((ofTables t).applyAll history).tlb.occupied + xs.countP overwrites + xs.countP drops =
      xs.countP walks := by
  have hempty : Tlb.empty.occupied + List.countP overwrites [] + List.countP drops [] =
      List.countP walks [] := by
    rw [Tlb.occupied_empty]
    rfl
  induction history using List.reverseRecOn with
  | nil => exact hempty
  | append_singleton history op ih =>
    rw [applyAll_append_singleton, transitions_append_singleton, buffered_append_singleton]
    show (⟨(ofTables t).applyAll history, op⟩ : Transition).after.tlb.occupied + _ + _ = _
    split
    · rename_i hempties
      rw [tlb_after_of_empties hempties]
      exact hempty
    · rename_i hempties
      have hstep : _ = ((ofTables t).applyAll history).tlb.occupied + _ :=
        occupied_after (Bool.eq_false_iff.mpr hempties)
      simp only [countP_append_singleton]
      omega

end Mmu

/-! ## The books agree -/

/-- **`s.Accounts xs`** — the counters, the transitions and what they report tell the same. -/
structure Statistics.Accounts (s : Statistics) (xs : List Mmu.Transition) : Prop where
  /-- Every translation is a lookup. -/
  lookups : s.lookups.toNat = xs.countP Mmu.Transition.translates
  /-- Every lookup is a hit or a miss. -/
  hits_add_misses : s.lookups.toNat = s.hits.toNat + s.misses.toNat
  /-- Every miss is a completed walk, or a translation that failed for another reason than a
  read-only page. -/
  misses : s.misses.toNat = s.walks.toNat + xs.countP Mmu.Transition.fails
  /-- Every completed walk is reported. -/
  walks : s.walks.toNat =
    (xs.flatMap Mmu.Transition.reports).countP PagingEvent.isMissResolved
  /-- Every flush is reported. -/
  flushes_reported : s.flushes.toNat =
    (xs.flatMap Mmu.Transition.reports).countP PagingEvent.isFlushed
  /-- Every flush was asked for or comes with a change of base. -/
  flushes : s.flushes.toNat =
    xs.countP Mmu.Transition.flushes + xs.countP Mmu.Transition.changesBase
  /-- Every invalidation is counted, whether or not it drops anything. -/
  invalidations : s.invalidations.toNat = xs.countP Mmu.Transition.invalidates
  /-- Every invalidation is reported. -/
  invalidations_reported : s.invalidations.toNat =
    (xs.flatMap Mmu.Transition.reports).countP PagingEvent.isInvalidated

/-- The counters account for what they count, as long as they do not wrap around. -/
theorem Statistics.accounts_tally {xs : List Mmu.Transition} (h : xs.length < UInt64.size) :
    (tally xs).Accounts xs := by
  have hcount : ∀ p : Mmu.Transition → Bool, (UInt64.ofNat (xs.countP p)).toNat = xs.countP p :=
    fun p => UInt64.toNat_ofNat_of_lt' (Nat.lt_of_le_of_lt List.countP_le_length h)
  constructor
  · exact hcount _
  · simp only [tally, hcount]
    exact countP_eq_add Mmu.Transition.translates_toNat xs
  · simp only [tally, hcount]
    exact countP_eq_add Mmu.Transition.misses_toNat xs
  · rw [countP_flatMap_eq fun x => (Mmu.Transition.countP_reports x).1]
    exact hcount _
  · rw [countP_flatMap_eq fun x => (Mmu.Transition.countP_reports x).2.1]
    exact hcount _
  · rw [← countP_eq_add Mmu.Transition.empties_toNat]
    exact hcount _
  · exact hcount _
  · rw [countP_flatMap_eq fun x => (Mmu.Transition.countP_reports x).2.2]
    exact hcount _

namespace PagedMemory

/-- **The books agree.**  Whatever is done to a new paged memory, physical edits among it, its log
is what the transitions of its unit report, and a change of base stands there right before its
flush.  The counters account for the transitions since the last reset, if these are not too many for
them.  The number of slots in use is the number of walks completed since the buffer was last
emptied, less those that took a slot in use and less the invalidations that dropped an entry. -/
theorem accounts_of_history (m : Memory) (t : PageTables) (history : List Operation) :
    let p := (ofMemory m t).applyAll history
    let all := (ofMemory m t).transitions history
    (ofMemory m t).reportsAll history = all.flatMap Mmu.Transition.reports ∧
      (∀ x ∈ all, x.changesBase = true →
        x.reports = [.baseChanged x.unit.tables.base x.after.tables.base, .flushed]) ∧
      ((Mmu.counted all).length < UInt64.size → p.mmu.stats.Accounts (Mmu.counted all)) ∧
      p.mmu.tlb.occupied + (Mmu.buffered all).countP Mmu.Transition.overwrites +
          (Mmu.buffered all).countP Mmu.Transition.drops =
        (Mmu.buffered all).countP Mmu.Transition.walks := by
  intro p all
  have hmmu : p.mmu = (Mmu.ofTables t).applyAll ((ofMemory m t).requests history) :=
    mmu_applyAll (ofMemory m t) history
  rw [hmmu]
  refine ⟨reportsAll_eq _ history, ?_, ?_, ?_⟩
  · intro x _ hchange
    exact Mmu.Transition.reports_of_changesBase hchange
  · intro hlength
    rw [Mmu.stats_applyAll]
    exact Statistics.accounts_tally hlength
  · exact Mmu.occupied_applyAll t _

end PagedMemory

/-- A store before the counters are reset; then a hit, a miss without a page, a dropped entry, a
base given twice, of which the second time changes nothing, and another miss. -/
def Small.visits : List PagedMemory.Operation :=
  [.write .long 0xFFFFF010 7, .resetStatistics, .read .byte 0xFFFFF010, .resolve 0 .write,
    .invalidate 0xFFFFFFFF, .edit Small.memory, .setBase 0, .setBase 0, .read .short 4]

theorem Small.accounts_of_visits :
    let p := (PagedMemory.ofMemory Small.memory Small.tables).applyAll Small.visits
    let all := (PagedMemory.ofMemory Small.memory Small.tables).transitions Small.visits
    (Mmu.counted all).length < UInt64.size ∧ p.mmu.stats.Accounts (Mmu.counted all) ∧
      p.mmu.stats = ⟨3, 1, 2, 0, 1, 1⟩ ∧ (Mmu.buffered all).length = 2 := by
  obtain ⟨-, -, hstats, -⟩ :=
    PagedMemory.accounts_of_history Small.memory Small.tables Small.visits
  have hlength : (Mmu.counted
      ((PagedMemory.ofMemory Small.memory Small.tables).transitions Small.visits)).length <
        UInt64.size := by
    decide +kernel
  refine ⟨hlength, hstats hlength, ?_, ?_⟩
  · decide +kernel
  · decide +kernel

end Moxie
