/-
# Moxie.Proofs.Paging.Layout — page tables written into an empty memory, and what they then mean.

A `Layout` says which pages are to be mapped to which frames, where the directory is, and which
tables the directory is to point at.  Its entries are stored into windows of zeros.  The theorem of
this module is that the walker then answers every address of the address space by the layout:
`Layout.answer` looks at the mappings alone and never at a memory.

The two sides meet in slots.  An address selects one slot of the directory and one slot of a table,
and two addresses select the same two slots exactly when they lie on one page
(`pageNumber_eq_of_indices`).  So no entry is stored over another, and a slot that no mapping
selects still holds the zero that makes the walk stop there.
-/
import Mathlib.Data.List.Nodup
import Moxie.Proofs.Paging.Entries
import Moxie.Proofs.Paging.Lookaside

namespace Moxie

/-! ## Slots -/

theorem directoryIndex_lt (v : UInt32) : (directoryIndex v).toNat < 1024 := by
  have hlt := v.toNat_lt
  rw [toNat_directoryIndex]
  omega

theorem tableIndex_lt (v : UInt32) : (tableIndex v).toNat < 1024 := by
  rw [toNat_tableIndex]
  exact Nat.mod_lt _ (by decide)

/-- The two indices of an address make up its page number. -/
theorem pageNumber_eq_of_indices {v v' : UInt32} (hd : directoryIndex v = directoryIndex v')
    (ht : tableIndex v = tableIndex v') : pageNumber v = pageNumber v' := by
  have hd' := congrArg UInt32.toNat hd
  have ht' := congrArg UInt32.toNat ht
  rw [toNat_directoryIndex, toNat_directoryIndex] at hd'
  rw [toNat_tableIndex, toNat_tableIndex] at ht'
  apply UInt32.toNat_inj.mp
  rw [toNat_pageNumber, toNat_pageNumber]
  omega

namespace Memory

open PageTables (readEntry)

variable {m : Memory} {a b i j : UInt32}

/-- **`m.Blank a`** — the 4096 bytes from `a` on lie in `m` and are zero. -/
def Blank (m : Memory) (a : UInt32) : Prop :=
  m.Holds a.toNat (List.replicate 4096 0)

theorem Blank.le_size (h : m.Blank a) : a.toNat + 4096 ≤ m.size := by
  have hfit := Holds.le_size h
  rwa [List.length_replicate] at hfit

/-- A memory of zeros is blank wherever a window fits. -/
theorem blank_of_zeros {size : Nat} (hm : m.row = .zeros size) (h : a.toNat + 4096 ≤ size) :
    m.Blank a := by
  refine ⟨?_, ?_⟩
  · rw [List.length_replicate, Memory.size, hm, ByteRow.size_zeros]
    exact h
  · intro i hi
    rw [List.length_replicate] at hi
    rw [byteAt, hm, ByteRow.get_zeros, List.getD_replicate 0 hi]

/-- The slots of a window do not wrap around. -/
theorem Blank.toNat_slot (h : m.Blank a) (hi : i.toNat < 1024) :
    (a + i * 4).toNat = a.toNat + i.toNat * 4 := by
  have hfit := h.le_size
  have hsize : m.size < 4294967296 := m.size_lt
  rw [UInt32.toNat_add, UInt32.toNat_mul, show (4 : UInt32).toNat = 4 from rfl]
  omega

theorem Blank.fits_slot (h : m.Blank a) (hi : i.toNat < 1024) : m.Fits (a + i * 4) 4 := by
  have hfit := h.le_size
  rw [Fits, h.toNat_slot hi]
  omega

/-- A slot of a blank window holds the entry that is all zeros. -/
theorem Blank.readEntry_slot (h : m.Blank a) (hi : i.toNat < 1024) :
    readEntry m (a + i * 4) = .ok ⟨0⟩ := by
  have hslot : m.Holds (a + i * 4).toNat (List.replicate 4 0) := by
    have hsplit : List.replicate 4096 (0 : UInt8) =
        List.replicate (i.toNat * 4) 0 ++
          (List.replicate 4 0 ++ List.replicate (4092 - i.toNat * 4) 0) := by
      rw [List.replicate_append_replicate, List.replicate_append_replicate]
      congr 1
      omega
    have hwhole : m.Holds a.toNat (List.replicate 4096 0) := h
    rw [hsplit, holds_append, holds_append, List.length_replicate] at hwhole
    rw [h.toNat_slot hi]
    exact hwhole.2.1
  exact Holds.readEntry (e := ⟨0⟩) hslot

/-- Different slots of a window do not meet. -/
theorem Blank.apart_of_ne (h : m.Blank a) (hi : i.toNat < 1024) (hj : j.toNat < 1024)
    (hne : i ≠ j) : Apart 4 (a + i * 4) (a + j * 4) := by
  have hne' : i.toNat ≠ j.toNat := fun heq => hne (UInt32.toNat_inj.mp heq)
  rw [Apart, h.toNat_slot hi, h.toNat_slot hj]
  omega

/-- Slots of different windows do not meet. -/
theorem Blank.apart_of_apart (ha : m.Blank a) (hb : m.Blank b) (hab : Apart 4096 a b)
    (hi : i.toNat < 1024) (hj : j.toNat < 1024) : Apart 4 (a + i * 4) (b + j * 4) := by
  rw [Apart, ha.toNat_slot hi, hb.toNat_slot hj]
  rcases hab with hab | hab <;> omega

theorem Apart.symm {len : Nat} (h : Apart len a b) : Apart len b a :=
  Or.symm h

end Memory

/-! ## Layouts -/

/-- A page that is to be mapped. -/
structure PageMapping where
  /-- An address on the page. -/
  vaddr : UInt32
  /-- The frame. -/
  frame : UInt32
  /-- The flags of the table entry. -/
  flags : UInt32
  deriving DecidableEq

/-- Page tables that are to be written. -/
structure Layout where
  /-- Where the directory is. -/
  base : UInt32
  /-- Where the page table for a directory index is. -/
  table : UInt32 → UInt32
  /-- The pages that are mapped. -/
  mappings : List PageMapping

namespace Layout

open PageTables (readEntry)

/-- Some mapped page has the directory index `d`. -/
def Uses (s : Layout) (d : UInt32) : Prop :=
  ∃ x ∈ s.mappings, directoryIndex x.vaddr = d

instance (s : Layout) (d : UInt32) : Decidable (s.Uses d) :=
  inferInstanceAs (Decidable (∃ x ∈ s.mappings, _))

/-- The page tables of the layout, read with the default mask. -/
def tables (s : Layout) : PageTables where
  base := s.base

/-- The directory entry for an index: where it goes, and the entry. -/
def directoryEntry (s : Layout) (d : UInt32) : UInt32 × PageEntry :=
  (s.base + d * 4, .ofFrame (s.table d) PageEntry.presentFlag)

/-- The table entry for a mapping: where it goes, and the entry. -/
def leafEntry (s : Layout) (x : PageMapping) : UInt32 × PageEntry :=
  (s.table (directoryIndex x.vaddr) + tableIndex x.vaddr * 4, .ofFrame x.frame x.flags)

/-- All entries of the layout. -/
def entries (s : Layout) : List (UInt32 × PageEntry) :=
  (s.mappings.map fun x => s.directoryEntry (directoryIndex x.vaddr)) ++
    s.mappings.map s.leafEntry

/-- **`s.Sound m`** — the layout can be written into `m`: no page is mapped twice, the directory and
the tables that it uses have blank windows of their own, frames lie in memory, and addresses and
flags do not get into each other's bits. -/
structure Sound (s : Layout) (m : Memory) : Prop where
  nodup : (s.mappings.map fun x => pageNumber x.vaddr).Nodup
  directory_blank : m.Blank s.base
  table_blank : ∀ d, s.Uses d → m.Blank (s.table d)
  directory_apart : ∀ d, s.Uses d → Memory.Apart 4096 s.base (s.table d)
  tables_apart : ∀ d d', s.Uses d → s.Uses d' → d ≠ d' → Memory.Apart 4096 (s.table d) (s.table d')
  table_aligned : ∀ d, s.Uses d → s.table d % 1024 = 0
  frame_aligned : ∀ x ∈ s.mappings, x.frame % 1024 = 0
  frame_lt : ∀ x ∈ s.mappings, x.frame.toNat < m.size
  flags_known : ∀ x ∈ s.mappings, x.flags &&& PageEntry.knownFlags = x.flags
  flags_present : ∀ x ∈ s.mappings, x.flags &&& PageEntry.presentFlag ≠ 0

/-- **`s.answer v kind`** — what the layout says about an access to `v`. -/
def answer (s : Layout) (v : UInt32) (kind : AccessKind) : Except AccessError UInt32 :=
  match s.mappings.find? fun x => pageNumber x.vaddr = pageNumber v with
  | some x =>
    if kind = .write ∧ x.flags &&& PageEntry.writableFlag = 0 then
      .error (.pageReadOnly v)
    else
      .ok (UInt32.ofNat (x.frame.toNat + v.toNat % 4096))
  | none =>
    if s.Uses (directoryIndex v) then
      .error (.pageNotPresent v)
    else
      .error (.directoryEntryNotPresent v)

variable {s : Layout} {m n : Memory} {x : PageMapping} {y : UInt32 × PageEntry} {v : UInt32}

/-! ### The entries keep out of each other's way -/

theorem mem_entries :
    y ∈ s.entries ↔
      (∃ x ∈ s.mappings, s.directoryEntry (directoryIndex x.vaddr) = y) ∨
        ∃ x ∈ s.mappings, s.leafEntry x = y := by
  rw [entries, List.mem_append, List.mem_map, List.mem_map]

theorem uses_of_mem (hx : x ∈ s.mappings) : s.Uses (directoryIndex x.vaddr) :=
  ⟨x, hx, rfl⟩

theorem Sound.fits (h : s.Sound m) (hy : y ∈ s.entries) : m.Fits y.1 4 := by
  rcases mem_entries.mp hy with ⟨x, hx, rfl⟩ | ⟨x, hx, rfl⟩
  · exact h.directory_blank.fits_slot (directoryIndex_lt _)
  · exact (h.table_blank _ (uses_of_mem hx)).fits_slot (tableIndex_lt _)

/-- Into the directory slot of an address goes the entry of that slot, if any. -/
theorem Sound.directory_slot (h : s.Sound m) (hy : y ∈ s.entries) (v : UInt32) :
    (s.Uses (directoryIndex v) ∧ y = s.directoryEntry (directoryIndex v)) ∨
      Memory.Apart 4 y.1 (s.base + directoryIndex v * 4) := by
  rcases mem_entries.mp hy with ⟨x, hx, rfl⟩ | ⟨x, hx, rfl⟩
  · by_cases hd : directoryIndex x.vaddr = directoryIndex v
    · exact Or.inl ⟨⟨x, hx, hd⟩, by rw [hd]⟩
    · exact Or.inr <|
        h.directory_blank.apart_of_ne (directoryIndex_lt _) (directoryIndex_lt v) hd
  · have huses := uses_of_mem hx
    exact Or.inr <| (h.table_blank _ huses).apart_of_apart h.directory_blank
      (h.directory_apart _ huses).symm (tableIndex_lt _) (directoryIndex_lt v)

/-- Into the table slot of an address goes the entry of a mapping of its page, if any. -/
theorem Sound.leaf_slot (h : s.Sound m) (huses : s.Uses (directoryIndex v)) (hy : y ∈ s.entries) :
    (∃ x ∈ s.mappings, pageNumber x.vaddr = pageNumber v ∧ y = s.leafEntry x) ∨
      Memory.Apart 4 y.1 (s.table (directoryIndex v) + tableIndex v * 4) := by
  rcases mem_entries.mp hy with ⟨x, hx, rfl⟩ | ⟨x, hx, rfl⟩
  · exact Or.inr <| h.directory_blank.apart_of_apart (h.table_blank _ huses)
      (h.directory_apart _ huses) (directoryIndex_lt _) (tableIndex_lt v)
  · have huses' := uses_of_mem hx
    by_cases hd : directoryIndex x.vaddr = directoryIndex v
    · by_cases ht : tableIndex x.vaddr = tableIndex v
      · exact Or.inl ⟨x, hx, pageNumber_eq_of_indices hd ht, rfl⟩
      · rw [leafEntry, hd]
        exact Or.inr <| (h.table_blank _ huses).apart_of_ne (tableIndex_lt _) (tableIndex_lt v) ht
    · exact Or.inr <| (h.table_blank _ huses').apart_of_apart (h.table_blank _ huses)
        (h.tables_apart _ _ huses' huses hd) (tableIndex_lt _) (tableIndex_lt v)

theorem Sound.eq_of_pageNumber_eq {x' : PageMapping} (h : s.Sound m) (hx : x ∈ s.mappings)
    (hx' : x' ∈ s.mappings) (hpage : pageNumber x.vaddr = pageNumber x'.vaddr) : x = x' :=
  List.inj_on_of_nodup_map h.nodup hx hx' hpage

/-! ### Reading the entries back -/

section Written

variable {stores : List (UInt32 × PageEntry)} (h : s.Sound m)
  (hstores : ∀ y, y ∈ stores ↔ y ∈ s.entries) (hstored : m.Stored stores n)

include h hstores hstored

theorem readEntry_directory (huses : s.Uses (directoryIndex v)) :
    readEntry n (s.tables.directoryEntryAddress v) =
      .ok (.ofFrame (s.table (directoryIndex v)) PageEntry.presentFlag) := by
  obtain ⟨x, hx, hd⟩ := huses
  have hmem : s.directoryEntry (directoryIndex v) ∈ stores := by
    rw [hstores, mem_entries]
    exact Or.inl ⟨x, hx, by rw [hd]⟩
  refine hstored.holds _ hmem ?_
  intro y hy
  rcases h.directory_slot ((hstores y).mp hy) v with ⟨-, heq⟩ | hapart
  · exact Or.inl heq
  · exact Or.inr hapart

theorem readEntry_directory_of_not_uses (hunused : ¬ s.Uses (directoryIndex v)) :
    readEntry n (s.tables.directoryEntryAddress v) = .ok ⟨0⟩ := by
  rw [hstored.keeps]
  · exact h.directory_blank.readEntry_slot (directoryIndex_lt v)
  · intro y hy
    apply (h.directory_slot ((hstores y).mp hy) v).resolve_left
    rintro ⟨huses, -⟩
    exact hunused huses

theorem readEntry_leaf (hx : x ∈ s.mappings) (hpage : pageNumber x.vaddr = pageNumber v) :
    readEntry n (s.table (directoryIndex v) + tableIndex v * 4) =
      .ok (.ofFrame x.frame x.flags) := by
  have hd := directoryIndex_eq_of_pageNumber_eq hpage
  have ht := tableIndex_eq_of_pageNumber_eq hpage
  have huses : s.Uses (directoryIndex v) := ⟨x, hx, hd⟩
  have hslot : s.leafEntry x =
      (s.table (directoryIndex v) + tableIndex v * 4, .ofFrame x.frame x.flags) := by
    rw [leafEntry, hd, ht]
  have hmem : s.leafEntry x ∈ stores := by
    rw [hstores, mem_entries]
    exact Or.inr ⟨x, hx, rfl⟩
  have hread := hstored.holds _ hmem
  rw [hslot] at hread
  apply hread
  intro y hy
  rcases h.leaf_slot huses ((hstores y).mp hy) with ⟨x', hx', hpage', rfl⟩ | hapart
  · -- two mappings of one page are one mapping
    rw [h.eq_of_pageNumber_eq hx' hx (hpage'.trans hpage.symm)]
    exact Or.inl hslot
  · exact Or.inr hapart

theorem readEntry_leaf_of_unmapped (huses : s.Uses (directoryIndex v))
    (hunmapped : ∀ x ∈ s.mappings, pageNumber x.vaddr ≠ pageNumber v) :
    readEntry n (s.table (directoryIndex v) + tableIndex v * 4) = .ok ⟨0⟩ := by
  rw [hstored.keeps]
  · exact (h.table_blank _ huses).readEntry_slot (tableIndex_lt v)
  · intro y hy
    apply (h.leaf_slot huses ((hstores y).mp hy)).resolve_left
    rintro ⟨x, hx, hpage, -⟩
    exact hunmapped x hx hpage

end Written

/-! ### Walking -/

/-- The table for an address is where its directory entry says. -/
theorem Sound.leafAddress_eq (h : s.Sound m) (huses : s.Uses (directoryIndex v)) :
    s.tables.leafAddress (.ofFrame (s.table (directoryIndex v)) PageEntry.presentFlag) v =
      s.table (directoryIndex v) + tableIndex v * 4 := by
  rw [PageTables.leafAddress]
  congr 1
  exact PageEntry.frame_ofFrame (h.table_aligned _ huses) (by decide)

section Walks

variable {stores : List (UInt32 × PageEntry)} (h : s.Sound m)
  (hstores : ∀ y, y ∈ stores ↔ y ∈ s.entries) (hstored : m.Stored stores n)

include h hstores hstored

theorem walk_mapped (hx : x ∈ s.mappings) (hpage : pageNumber x.vaddr = pageNumber v) :
    s.tables.walk n v =
      .ok ⟨.ofFrame (s.table (directoryIndex v)) PageEntry.presentFlag,
        .ofFrame x.frame x.flags⟩ := by
  have huses : s.Uses (directoryIndex v) := ⟨x, hx, directoryIndex_eq_of_pageNumber_eq hpage⟩
  rw [PageTables.walk_eq_ok_iff, h.leafAddress_eq huses]
  refine ⟨readEntry_directory h hstores hstored huses, ?_,
    readEntry_leaf h hstores hstored hx hpage, ?_, ?_⟩
  · rw [PageEntry.isPresent_ofFrame]
    decide
  · rw [PageEntry.isPresent_ofFrame, bne_iff_ne]
    exact h.flags_present x hx
  · show (PageEntry.ofFrame x.frame x.flags).frame defaultFrameMask < n.sizeWord
    rw [PageEntry.frame_ofFrame (h.frame_aligned x hx) (h.flags_known x hx), UInt32.lt_iff_toNat_lt,
      Memory.toNat_sizeWord, hstored.size_eq]
    exact h.frame_lt x hx

theorem walk_unmapped (huses : s.Uses (directoryIndex v))
    (hunmapped : ∀ x ∈ s.mappings, pageNumber x.vaddr ≠ pageNumber v) :
    s.tables.walk n v = .error (.pageNotPresent v) := by
  have hpresent : (PageEntry.ofFrame (s.table (directoryIndex v)) PageEntry.presentFlag).isPresent =
      true := by
    rw [PageEntry.isPresent_ofFrame]
    decide
  have habsent : (PageEntry.mk 0).isPresent = false := by decide
  rw [PageTables.walk, readEntry_directory h hstores hstored huses]
  simp only [hpresent, if_true]
  rw [h.leafAddress_eq huses, readEntry_leaf_of_unmapped h hstores hstored huses hunmapped]
  simp only [habsent, Bool.false_eq_true, if_false]

theorem walk_unused (hunused : ¬ s.Uses (directoryIndex v)) :
    s.tables.walk n v = .error (.directoryEntryNotPresent v) := by
  have habsent : (PageEntry.mk 0).isPresent = false := by decide
  rw [PageTables.walk, readEntry_directory_of_not_uses h hstores hstored hunused]
  simp only [habsent, Bool.false_eq_true, if_false]

/-- **The walker answers by the layout.** -/
theorem translate_eq_answer (v : UInt32) (kind : AccessKind) :
    s.tables.translate n v kind = s.answer v kind := by
  rw [PageTables.translate, answer]
  cases hfind : s.mappings.find? fun x => pageNumber x.vaddr = pageNumber v with
  | some x =>
    have hx : x ∈ s.mappings := List.mem_of_find?_eq_some hfind
    have hpage : pageNumber x.vaddr = pageNumber v := by
      simpa using List.find?_some hfind
    have hwritable : (PageEntry.ofFrame x.frame x.flags).isWritable = false ↔
        x.flags &&& PageEntry.writableFlag = 0 := by
      rw [PageEntry.isWritable_ofFrame, bne_eq_false_iff_eq]
    have hframe : (PageEntry.ofFrame x.frame x.flags).frame s.tables.frameMask = x.frame :=
      PageEntry.frame_ofFrame (h.frame_aligned x hx) (h.flags_known x hx)
    have hoffset : x.frame + pageOffset v = UInt32.ofNat (x.frame.toNat + v.toNat % 4096) := by
      rw [UInt32.ofNat_add, ← toNat_pageOffset, UInt32.ofNat_toNat, UInt32.ofNat_toNat]
    rw [walk_mapped h hstores hstored hx hpage]
    simp only [PageTables.target, hwritable, hframe, hoffset]
  | none =>
    have hunmapped : ∀ x ∈ s.mappings, pageNumber x.vaddr ≠ pageNumber v := by
      simpa using List.find?_eq_none.mp hfind
    by_cases huses : s.Uses (directoryIndex v)
    · rw [walk_unmapped h hstores hstored huses hunmapped]
      simp only [huses, if_true]
    · rw [walk_unused h hstores hstored huses]
      simp only [huses, if_false]

end Walks

end Layout

/-! ## Any order of requests -/

/-- **`u.answers m requests`** — what a unit answers to requests made one after the other against
one memory. -/
def Mmu.answers (u : Mmu) (m : Memory) :
    List (UInt32 × AccessKind) → List (Except AccessError UInt32)
  | [] => []
  | (v, kind) :: requests =>
    (u.resolve m v kind).result :: (u.resolve m v kind).state.answers m requests

/-- Earlier answers do not change later ones while the unit is coherent. -/
theorem Mmu.Coherent.answers_eq {u : Mmu} {m : Memory} (h : u.Coherent m)
    (requests : List (UInt32 × AccessKind)) :
    u.answers m requests = requests.map fun r => u.tables.translate m r.1 r.2 := by
  induction requests generalizing u with
  | nil => rfl
  | cons r requests ih =>
    obtain ⟨v, kind⟩ := r
    rw [answers, List.map_cons, h.result_resolve, ih (h.resolve v kind), tables_resolve]

/-- **Page tables as laid out.**  Take a layout that is sound for a memory and store its entries, in
any order and any of them more than once.  Every store is performed, and a unit over these tables
that remembers nothing yet answers requests for any addresses, one after the other, as the layout
says: a mapped page by its frame and the offset in the page, except that a write to a page without
the writable flag is refused; and any other page by the first of the two levels at which nothing is
mapped. -/
theorem answers_of_layout (s : Layout) (m : Memory) (h : s.Sound m)
    (stores : List (UInt32 × PageEntry)) (hstores : ∀ y, y ∈ stores ↔ y ∈ s.entries) :
    ∃ n, m.storeEntries stores = (n, .ok ()) ∧
      ∀ requests, (Mmu.ofTables s.tables).answers n requests =
        requests.map fun r => s.answer r.1 r.2 := by
  obtain ⟨n, hstore, hstored⟩ :=
    Memory.exists_stored fun y hy => h.fits ((hstores y).mp hy)
  refine ⟨n, hstore, ?_⟩
  intro requests
  rw [(Mmu.coherent_ofTables s.tables n).answers_eq]
  apply List.map_congr_left
  intro r _
  exact Layout.translate_eq_answer h hstores hstored r.1 r.2

/-! ## A small layout -/

namespace SmallLayout

/-- Four pages of zeros. -/
def memory : Memory where
  row := .zeros 16384
  even_size := by rw [ByteRow.size_zeros]
  four_le_size := by rw [ByteRow.size_zeros]; decide
  size_lt := by rw [ByteRow.size_zeros]; decide

/-- A writable page, mapped to a frame that is not on a page boundary, and the last page of the
address space, which is read-only. -/
def layout : Layout where
  base := 0
  table d := if d = 1 then 4096 else 8192
  mappings := [⟨0x00400ABC, 0x3C00, 3⟩, ⟨0xFFFFF000, 0x3000, 1⟩]

theorem size_memory : memory.size = 16384 :=
  ByteRow.size_zeros 16384

theorem blank_memory {a : UInt32} (h : a.toNat + 4096 ≤ 16384) : memory.Blank a :=
  Memory.blank_of_zeros rfl h

theorem uses_iff {d : UInt32} : layout.Uses d ↔ d = 1 ∨ d = 1023 := by
  simp only [Layout.Uses, layout, List.mem_cons, List.not_mem_nil, or_false, exists_eq_or_imp,
    exists_eq_left]
  rw [show directoryIndex 0x00400ABC = 1 by decide, show directoryIndex 0xFFFFF000 = 1023 by decide,
    eq_comm, eq_comm (a := 1023)]

theorem sound : layout.Sound memory where
  nodup := by decide
  directory_blank := blank_memory (by decide)
  table_blank d hd := by
    rcases uses_iff.mp hd with rfl | rfl <;> exact blank_memory (by decide)
  directory_apart d hd := by
    rcases uses_iff.mp hd with rfl | rfl <;> exact Or.inl (by decide)
  tables_apart d d' hd hd' hne := by
    rcases uses_iff.mp hd with rfl | rfl <;> rcases uses_iff.mp hd' with rfl | rfl
    · exact absurd rfl hne
    · exact Or.inl (by decide)
    · exact Or.inr (by decide)
    · exact absurd rfl hne
  table_aligned d hd := by
    rcases uses_iff.mp hd with rfl | rfl <;> decide
  frame_aligned := by decide
  frame_lt := by
    rw [size_memory]
    decide
  flags_known := by decide
  flags_present := by decide

end SmallLayout

/-- A write past the end of memory, a refused write, and an address without a page at either
level. -/
theorem small_answers_of_layout :
    SmallLayout.layout.Sound SmallLayout.memory ∧
    ∃ n, SmallLayout.memory.storeEntries SmallLayout.layout.entries = (n, .ok ()) ∧
      (Mmu.ofTables SmallLayout.layout.tables).answers n
          [(0x00400FFF, .write), (0xFFFFF010, .write), (0xFFFFF010, .read), (0x00401000, .read),
            (0, .read)] =
        [.ok 0x4BFF, .error (.pageReadOnly 0xFFFFF010), .ok 0x3010,
          .error (.pageNotPresent 0x00401000), .error (.directoryEntryNotPresent 0)] := by
  obtain ⟨n, hstore, hanswers⟩ := answers_of_layout SmallLayout.layout SmallLayout.memory
    SmallLayout.sound SmallLayout.layout.entries fun _ => Iff.rfl
  refine ⟨SmallLayout.sound, n, hstore, ?_⟩
  rw [hanswers]
  decide

end Moxie
