/-
# Moxie.Proofs.Paging.Lookaside — laws of the lookaside buffer, and when it tells the truth.

First the buffer alone: what `lookup` finds after each operation.  Page numbers never equal the tag
of an empty slot, and two pages compete for a slot exactly when their numbers agree modulo 1024.

Then the buffer beside the page tables.  It is **coherent** when every slot in use holds the leaf
entry that a walk of its page reads now.  Nothing in the unit keeps it so by itself, but resolving
an address does (`Coherent.resolve`), and while it is coherent a remembered answer is the answer
that the tables give (`Coherent.result_resolve`).  What breaks coherence is a write to the
footprint, and nothing else (`Coherent.congr`).
-/
import Moxie.Proofs.Paging.Walk

namespace Moxie

namespace Tlb

variable {b : Tlb} {tag page : UInt32} {e : TlbEntry}

/-! ## Looking up -/

/-- Pages compete for a slot when their numbers agree in the low ten bits. -/
theorem slotOf_eq_slotOf_iff {a c : UInt32} : slotOf a = slotOf c ↔ a % 1024 = c % 1024 := by
  rw [Fin.ext_iff, ← UInt32.toNat_inj, UInt32.toNat_mod, UInt32.toNat_mod]
  rfl

theorem lookup_eq_some_iff : b.lookup tag = some e ↔ b.slot (slotOf tag) = e ∧ e.tag = tag := by
  simp only [lookup, Option.ite_none_right_eq_some, Option.some.injEq]
  constructor
  · rintro ⟨htag, rfl⟩
    exact ⟨rfl, htag⟩
  · rintro ⟨rfl, htag⟩
    exact ⟨htag, rfl⟩

theorem lookup_empty (htag : tag ≠ TlbEntry.invalidTag) : empty.lookup tag = none := by
  rw [lookup, slot_empty]
  exact if_neg htag.symm

/-- What is put in is found under its own tag and hides the other pages of its slot. -/
theorem lookup_insert (b : Tlb) (e : TlbEntry) (tag : UInt32) :
    (b.insert e).lookup tag =
      if tag % 1024 = e.tag % 1024 then (if e.tag = tag then some e else none)
      else b.lookup tag := by
  rw [lookup, slot_insert]
  by_cases hslot : slotOf tag = slotOf e.tag
  · rw [if_pos hslot, if_pos (slotOf_eq_slotOf_iff.mp hslot)]
  · rw [if_neg hslot, if_neg (fun h => hslot (slotOf_eq_slotOf_iff.mpr h))]
    rfl

/-- Dropping a page leaves every other page as it was, also those of the same slot. -/
theorem lookup_invalidate (b : Tlb) (page : UInt32) (htag : tag ≠ TlbEntry.invalidTag) :
    (b.invalidate page).lookup tag = if tag = page then none else b.lookup tag := by
  rw [lookup, slot_invalidate]
  -- a slot is emptied only when it holds the very page, not for a competitor
  by_cases hdrop : (b.slot (slotOf tag)).tag = page ∧ slotOf tag = slotOf page
  · rw [if_pos hdrop, if_neg (show ¬ TlbEntry.empty.tag = tag from htag.symm)]
    by_cases heq : tag = page
    · rw [if_pos heq]
    · rw [if_neg heq, lookup, if_neg]
      rw [hdrop.1]
      exact fun h => heq h.symm
  · rw [if_neg hdrop]
    by_cases heq : tag = page
    · subst heq
      have hne : ¬ (b.slot (slotOf tag)).tag = tag := fun h => hdrop ⟨h, rfl⟩
      rw [if_pos rfl, if_neg hne]
    · rw [if_neg heq]
      rfl

/-! ## Coherence -/

/-- **`b.Coherent t m`** — every slot in use holds the leaf entry that a walk of its page now
reads. -/
def Coherent (b : Tlb) (t : PageTables) (m : Memory) : Prop :=
  ∀ i, (b.slot i).isValid = true →
    ∃ v w, pageNumber v = (b.slot i).tag ∧ t.walk m v = .ok w ∧ w.leaf = (b.slot i).leaf

variable {t : PageTables} {m n : Memory} {v : UInt32}

theorem coherent_empty (t : PageTables) (m : Memory) : empty.Coherent t m := by
  intro i hvalid
  rw [slot_empty] at hvalid
  exact absurd hvalid (by decide)

theorem Coherent.insert (h : b.Coherent t m) {w : Walk} (hw : t.walk m v = .ok w) :
    (b.insert ⟨pageNumber v, w.leaf⟩).Coherent t m := by
  intro i hvalid
  rw [slot_insert] at hvalid ⊢
  split at hvalid
  · rename_i hi
    rw [if_pos hi]
    exact ⟨v, w, rfl, hw, rfl⟩
  · rename_i hi
    rw [if_neg hi]
    exact h i hvalid

theorem Coherent.invalidate (h : b.Coherent t m) (page : UInt32) :
    (b.invalidate page).Coherent t m := by
  intro i hvalid
  rw [slot_invalidate] at hvalid ⊢
  split at hvalid
  · exact absurd hvalid (by decide)
  · rename_i hi
    rw [if_neg hi]
    exact h i hvalid

/-- A memory that keeps the footprint keeps coherence. -/
theorem Coherent.congr (h : b.Coherent t m) (hmn : Memory.AgreesOn (t.footprint m) m n) :
    b.Coherent t n := by
  intro i hvalid
  obtain ⟨v, w, hpage, hw, hleaf⟩ := h i hvalid
  exact ⟨v, w, hpage, by rw [PageTables.walk_congr hmn, hw], hleaf⟩

/-- An entry that a coherent buffer finds is the one that a walk finds. -/
theorem Coherent.walk_of_lookup (h : b.Coherent t m) (he : b.lookup (pageNumber v) = some e) :
    ∃ w, t.walk m v = .ok w ∧ w.leaf = e.leaf := by
  obtain ⟨rfl, htag⟩ := lookup_eq_some_iff.mp he
  obtain ⟨v', w, hpage, hw, hleaf⟩ := h _ (TlbEntry.isValid_of_tag htag)
  -- coherence speaks of some address of the page; all of them share the walk
  refine ⟨w, ?_, hleaf⟩
  exact (PageTables.walk_eq_ok_congr (hpage.trans htag)).mp hw

end Tlb

namespace Mmu

variable {u : Mmu} {m n : Memory} {v : UInt32} {kind : AccessKind}

/-! ## Resolving an address -/

/-- A hit answers from the entry and counts as such. -/
theorem resolve_of_cached {e : TlbEntry} (h : u.cached v = some e) :
    u.resolve m v kind =
      { result := u.tables.target e.leaf v kind
        state := { u with
          stats := { u.stats with lookups := u.stats.lookups + 1, hits := u.stats.hits + 1 } }
        events := [] } := by
  rw [cached] at h
  rw [resolve, h]

/-- A miss whose walk fails answers the walk's error and remembers nothing. -/
theorem resolve_of_walk_error {e : AccessError} (h : u.cached v = none)
    (hw : u.tables.walk m v = .error e) :
    u.resolve m v kind =
      { result := .error e
        state := { u with
          stats := { u.stats with lookups := u.stats.lookups + 1, misses := u.stats.misses + 1 } }
        events := [] } := by
  rw [cached] at h
  rw [resolve, h, hw]

/-- A miss whose walk completes remembers the leaf entry, whatever the access then comes to. -/
theorem resolve_of_walk_ok {w : Walk} (h : u.cached v = none) (hw : u.tables.walk m v = .ok w) :
    u.resolve m v kind =
      { result := u.tables.target w.leaf v kind
        state := { u with
          tlb := u.tlb.insert ⟨pageNumber v, w.leaf⟩
          stats := { u.stats with
            lookups := u.stats.lookups + 1
            misses := u.stats.misses + 1
            walks := u.stats.walks + 1 } }
        events := [.missResolved v w.directory.word w.leaf.word] } := by
  rw [cached] at h
  rw [resolve, h, hw]

@[simp]
theorem tables_resolve (u : Mmu) (m : Memory) (v : UInt32) (kind : AccessKind) :
    (u.resolve m v kind).state.tables = u.tables := by
  cases h : u.cached v with
  | some e => rw [resolve_of_cached h]
  | none =>
    cases hw : u.tables.walk m v with
    | error e => rw [resolve_of_walk_error h hw]
    | ok w => rw [resolve_of_walk_ok h hw]

/-- A miss answers as the tables do. -/
theorem result_resolve_of_not_cached (h : u.cached v = none) :
    (u.resolve m v kind).result = u.tables.translate m v kind := by
  cases hw : u.tables.walk m v with
  | error e => rw [resolve_of_walk_error h hw, PageTables.translate, hw]
  | ok w => rw [resolve_of_walk_ok h hw, PageTables.translate, hw]

/-! ## A coherent unit -/

/-- The unit remembers nothing but what a walk of `m` now reads. -/
def Coherent (u : Mmu) (m : Memory) : Prop :=
  u.tlb.Coherent u.tables m

theorem coherent_ofTables (t : PageTables) (m : Memory) : (ofTables t).Coherent m :=
  Tlb.coherent_empty t m

theorem Coherent.congr (h : u.Coherent m)
    (hmn : Memory.AgreesOn (u.tables.footprint m) m n) : u.Coherent n :=
  Tlb.Coherent.congr h hmn

theorem coherent_flush (u : Mmu) (m : Memory) : u.flush.1.Coherent m :=
  Tlb.coherent_empty u.tables m

theorem Coherent.invalidate (h : u.Coherent m) (v : UInt32) : (u.invalidate v).1.Coherent m :=
  Tlb.Coherent.invalidate h (pageNumber v)

/-- **While it is coherent, the unit answers as the tables do.** -/
theorem Coherent.result_resolve (h : u.Coherent m) (v : UInt32) (kind : AccessKind) :
    (u.resolve m v kind).result = u.tables.translate m v kind := by
  cases hc : u.cached v with
  | some e =>
    obtain ⟨w, hw, hleaf⟩ := Tlb.Coherent.walk_of_lookup h hc
    rw [resolve_of_cached hc, PageTables.translate, hw, ← hleaf]
  | none => exact result_resolve_of_not_cached hc

/-- **Resolving an address keeps the unit coherent**, also when the access fails. -/
theorem Coherent.resolve (h : u.Coherent m) (v : UInt32) (kind : AccessKind) :
    (u.resolve m v kind).state.Coherent m := by
  cases hc : u.cached v with
  | some e =>
    rw [resolve_of_cached hc]
    exact h
  | none =>
    cases hw : u.tables.walk m v with
    | error e =>
      rw [resolve_of_walk_error hc hw]
      exact h
    | ok w =>
      rw [resolve_of_walk_ok hc hw]
      exact Tlb.Coherent.insert h hw

end Mmu

end Moxie
