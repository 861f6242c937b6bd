/-
# Moxie.Proofs.Paging.Walk — what the answer of a page walk depends on.

A walk looks at two entries.  Which two is decided by the page number alone, so all addresses of a
page share one walk (`walk_eq_ok_congr`), and what they hold is decided by the bytes of the entries
alone.  The set of all bytes that some walk looks at is the **footprint** of the page tables.  A
memory that keeps those bytes keeps every walk, whether it completes or fails (`walk_congr`), and
with them the footprint itself (`footprint_congr`): the tables cannot move without being written.

`translate` is the answer that the tables give to an access when nothing is remembered.
-/
import Mathlib.Algebra.Ring.Nat
import Mathlib.Data.Set.Basic
import Moxie.Paging.Virtual
import Moxie.Proofs.Memory.Access

namespace Moxie

/-! ## Page numbers -/

theorem toNat_pageNumber (v : UInt32) : (pageNumber v).toNat = v.toNat / 4096 := by
  simp [pageNumber, pageShift, Nat.shiftRight_eq_div_pow]

theorem toNat_pageOffset (v : UInt32) : (pageOffset v).toNat = v.toNat % 4096 := by
  have hmask : pageOffsetMask.toNat = 2 ^ 12 - 1 := by decide
  rw [pageOffset, UInt32.toNat_and, hmask, Nat.and_two_pow_sub_one_eq_mod]

/-- Page numbers have 20 bits, so the tag of an empty slot is none of them. -/
theorem pageNumber_ne_invalidTag (v : UInt32) : pageNumber v ≠ TlbEntry.invalidTag := by
  intro h
  have hlt := v.toNat_lt
  have hnat := congrArg UInt32.toNat h
  rw [toNat_pageNumber, show TlbEntry.invalidTag.toNat = 4294967295 from rfl] at hnat
  omega

/-- A slot whose tag is the number of a page is in use. -/
theorem TlbEntry.isValid_of_tag {e : TlbEntry} {v : UInt32} (h : e.tag = pageNumber v) :
    e.isValid = true := by
  rw [isValid, h, bne_iff_ne]
  exact pageNumber_ne_invalidTag v

theorem toNat_directoryIndex (v : UInt32) : (directoryIndex v).toNat = v.toNat / 4194304 := by
  simp [directoryIndex, Nat.shiftRight_eq_div_pow]

theorem toNat_tableIndex (v : UInt32) : (tableIndex v).toNat = v.toNat / 4096 % 1024 := by
  have hmask : (0x3FF : UInt32).toNat = 2 ^ 10 - 1 := by decide
  rw [tableIndex, UInt32.toNat_and, hmask, Nat.and_two_pow_sub_one_eq_mod]
  exact congrArg (· % 1024) (toNat_pageNumber v)

theorem directoryIndex_eq_of_pageNumber_eq {v v' : UInt32} (h : pageNumber v = pageNumber v') :
    directoryIndex v = directoryIndex v' := by
  have hnat := congrArg UInt32.toNat h
  rw [toNat_pageNumber, toNat_pageNumber] at hnat
  apply UInt32.toNat_inj.mp
  rw [toNat_directoryIndex, toNat_directoryIndex]
  omega

theorem tableIndex_eq_of_pageNumber_eq {v v' : UInt32} (h : pageNumber v = pageNumber v') :
    tableIndex v = tableIndex v' := by
  simp only [tableIndex]
  rw [show v >>> pageShift = v' >>> pageShift from h]

namespace PageTables

variable {t : PageTables} {m n : Memory} {v v' : UInt32} {w : Walk}

/-! ## Where the entries lie -/

theorem toNat_directoryEntryAddress (t : PageTables) (v : UInt32) :
    (t.directoryEntryAddress v).toNat = (t.base.toNat + v.toNat / 4194304 * 4) % 2 ^ 32 := by
  rw [directoryEntryAddress, UInt32.toNat_add, UInt32.toNat_mul, toNat_directoryIndex]
  simp

theorem toNat_leafAddress (t : PageTables) (d : PageEntry) (v : UInt32) :
    (t.leafAddress d v).toNat =
      ((d.frame t.frameMask).toNat + v.toNat / 4096 % 1024 * 4) % 2 ^ 32 := by
  rw [leafAddress, UInt32.toNat_add, UInt32.toNat_mul, toNat_tableIndex]
  simp

theorem fits_of_readEntry {addr : UInt32} {e : PageEntry} (h : readEntry m addr = .ok e) :
    m.Fits addr 4 := by
  by_contra hfit
  unfold readEntry Memory.read Memory.readBytes at h
  rw [if_neg (show ¬ m.Fits addr Width.long.bytes from hfit)] at h
  cases h

/-! ## Complete walks -/

/-- **A complete walk, exactly.** -/
theorem walk_eq_ok_iff :
    t.walk m v = .ok w ↔
      readEntry m (t.directoryEntryAddress v) = .ok w.directory ∧ w.directory.isPresent = true ∧
        readEntry m (t.leafAddress w.directory v) = .ok w.leaf ∧ w.leaf.isPresent = true ∧
        w.leaf.frame t.frameMask < m.sizeWord := by
  obtain ⟨d, leaf⟩ := w
  unfold walk
  constructor
  · intro h
    split at h
    · cases h
    · rename_i d' hd
      split at h
      · rename_i hpresent
        split at h
        · cases h
        · rename_i leaf' hleaf
          split at h
          · rename_i hpresent'
            split at h
            · rename_i hframe
              cases h
              exact ⟨hd, hpresent, hleaf, hpresent', hframe⟩
            · cases h
          · cases h
      · cases h
  · rintro ⟨hd, hpresent, hleaf, hpresent', hframe⟩
    dsimp only at hd hpresent hleaf hpresent' hframe
    simp only [hd, hpresent, hleaf, hpresent', hframe, if_true]

/-- One walk per page: the page number decides which entries are read. -/
theorem walk_eq_ok_congr (hpage : pageNumber v = pageNumber v') :
    t.walk m v = .ok w ↔ t.walk m v' = .ok w := by
  have hdir : t.directoryEntryAddress v = t.directoryEntryAddress v' := by
    rw [directoryEntryAddress, directoryEntryAddress, directoryIndex_eq_of_pageNumber_eq hpage]
  have hleaf : t.leafAddress w.directory v = t.leafAddress w.directory v' := by
    rw [leafAddress, leafAddress, tableIndex_eq_of_pageNumber_eq hpage]
  rw [walk_eq_ok_iff, walk_eq_ok_iff, hdir, hleaf]

/-! ## Where a leaf entry leads -/

section Target

variable {leaf : PageEntry} {kind : AccessKind}

/-- An access is admitted unless it is a write to a page that is read-only. -/
theorem target_eq_ok_iff {paddr : UInt32} :
    t.target leaf v kind = .ok paddr ↔
      (kind = .write → leaf.isWritable = true) ∧ leaf.frame t.frameMask + pageOffset v = paddr := by
  unfold target
  split
  · rename_i hrefused
    simp [hrefused]
  · rename_i hadmitted
    have hwritable : kind = .write → leaf.isWritable = true := by
      intro hkind
      by_contra hreadonly
      exact hadmitted ⟨hkind, Bool.eq_false_iff.mpr hreadonly⟩
    rw [Except.ok.injEq, and_iff_right hwritable]

/-- It is refused for one reason. -/
theorem target_eq_error_iff {f : AccessError} :
    t.target leaf v kind = .error f ↔
      (kind = .write ∧ leaf.isWritable = false) ∧ f = .pageReadOnly v := by
  unfold target
  split
  · rename_i hrefused
    simp only [Except.error.injEq, hrefused, true_and, eq_comm (a := f), and_self]
  · rename_i hadmitted
    simp only [reduceCtorEq, hadmitted, false_and]

theorem target_read : t.target leaf v .read = .ok (leaf.frame t.frameMask + pageOffset v) :=
  if_neg fun hrefused => AccessKind.noConfusion hrefused.1

end Target

/-! ## Translation without memory of earlier walks -/

/-- **`t.translate m v kind`** — the physical address of `v` as a walk of `m` now gives it. -/
def translate (t : PageTables) (m : Memory) (v : UInt32) (kind : AccessKind) :
    Except AccessError UInt32 :=
  match t.walk m v with
  | .error e => .error e
  | .ok w => t.target w.leaf v kind

/-- **A translation, exactly**: some walk completes, and admits the access. -/
theorem translate_eq_ok_iff {kind : AccessKind} {paddr : UInt32} :
    t.translate m v kind = .ok paddr ↔
      ∃ w, t.walk m v = .ok w ∧ (kind = .write → w.leaf.isWritable = true) ∧
        w.leaf.frame t.frameMask + pageOffset v = paddr := by
  unfold translate
  cases t.walk m v with
  | error e => simp
  | ok w => simp [target_eq_ok_iff]

/-! ## The footprint -/

/-- **`t.footprint m`** — the bytes that some walk reads: those of every directory entry, and those
of every table entry that a present directory entry leads to.  An entry that does not lie in memory
is not read at all. -/
def footprint (t : PageTables) (m : Memory) : Set Nat :=
  {i | ∃ v, m.Covers (t.directoryEntryAddress v) 4 i ∨
    ∃ d, readEntry m (t.directoryEntryAddress v) = .ok d ∧ d.isPresent = true ∧
      m.Covers (t.leafAddress d v) 4 i}

theorem readEntry_congr {addr : UInt32} (hsize : n.size = m.size)
    (h : ∀ i, m.Covers addr 4 i → n.byteAt i = m.byteAt i) :
    readEntry n addr = readEntry m addr := by
  unfold readEntry
  rw [Memory.read_congr (w := .long) hsize h]

section Congruence

variable (h : Memory.AgreesOn (t.footprint m) m n)

include h

theorem readEntry_directory_congr (v : UInt32) :
    readEntry n (t.directoryEntryAddress v) = readEntry m (t.directoryEntryAddress v) :=
  readEntry_congr h.size_eq fun i hi => h.byteAt_eq i ⟨v, Or.inl hi⟩

theorem readEntry_leaf_congr {d : PageEntry}
    (hd : readEntry m (t.directoryEntryAddress v) = .ok d) (hpresent : d.isPresent = true) :
    readEntry n (t.leafAddress d v) = readEntry m (t.leafAddress d v) :=
  readEntry_congr h.size_eq fun i hi => h.byteAt_eq i ⟨v, Or.inr ⟨d, hd, hpresent, hi⟩⟩

/-- **A walk reads nothing but the footprint.** -/
theorem walk_congr (v : UInt32) : t.walk n v = t.walk m v := by
  -- the check of the frame looks at the size
  have hword : n.sizeWord = m.sizeWord := by rw [Memory.sizeWord, Memory.sizeWord, h.size_eq]
  unfold walk
  rw [readEntry_directory_congr h v]
  cases hd : readEntry m (t.directoryEntryAddress v) with
  | error e => rfl
  | ok d =>
    by_cases hpresent : d.isPresent = true
    · simp only [hpresent, if_true]
      rw [readEntry_leaf_congr h hd hpresent, hword]
    · simp only [hpresent]
      rfl

theorem translate_congr (v : UInt32) (kind : AccessKind) :
    t.translate n v kind = t.translate m v kind := by
  rw [translate, translate, walk_congr h v]

/-- Where the tables are is itself written in the footprint. -/
theorem footprint_congr : t.footprint n = t.footprint m := by
  have hfits : ∀ addr len i, n.Covers addr len i ↔ m.Covers addr len i := by
    intro addr len i
    rw [Memory.Covers, Memory.Covers, Memory.Fits, Memory.Fits, h.size_eq]
  ext i
  constructor
  · rintro ⟨v, hi | ⟨d, hd, hpresent, hi⟩⟩
    · exact ⟨v, Or.inl ((hfits _ _ _).mp hi)⟩
    · rw [readEntry_directory_congr h v] at hd
      exact ⟨v, Or.inr ⟨d, hd, hpresent, (hfits _ _ _).mp hi⟩⟩
  · rintro ⟨v, hi | ⟨d, hd, hpresent, hi⟩⟩
    · exact ⟨v, Or.inl ((hfits _ _ _).mpr hi)⟩
    · rw [← readEntry_directory_congr h v] at hd
      exact ⟨v, Or.inr ⟨d, hd, hpresent, (hfits _ _ _).mpr hi⟩⟩

end Congruence

end PageTables

end Moxie
