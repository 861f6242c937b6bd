/-
# Moxie.Proofs.Paging.Entries — page entries: what is in their bits, and storing them.

A page entry is a frame address with flags in the bits that the address leaves free.  Under the
default mask these are the low ten bits, so a frame that is a multiple of 1024 and flags among the
known three come back out of the entry as they went in.

Storing a list of entries is a fold of writes.  An entry is read back from the result when no other
store of the list cuts into it; storing it twice does no harm.  This is why the order in which page
tables are written does not matter.
-/
import Moxie.Paging.Mapping
import Moxie.Proofs.Memory.Window
import Moxie.Proofs.Paging.Walk
import Moxie.Proofs.Word.Bits

namespace Moxie

/-! ## The bits of an entry -/

namespace PageEntry

variable {frame flags flag : UInt32}

/-- A multiple of 1024 is a frame address as it stands. -/
theorem and_defaultFrameMask (h : frame % 1024 = 0) : frame &&& defaultFrameMask = frame := by
  have hdvd : 1024 ∣ frame.toNat := by
    have hmod := congrArg UInt32.toNat h
    rw [UInt32.toNat_mod] at hmod
    exact Nat.dvd_of_mod_eq_zero hmod
  apply UInt32.toNat_inj.mp
  rw [UInt32.toNat_and]
  show frame.toNat &&& (2 ^ 10 * (2 ^ (32 - 10) - 1)) = frame.toNat
  rw [and_high_bits frame.toNat_lt]
  exact Nat.mul_div_cancel' hdvd

/-- The frame comes back out of an entry. -/
theorem frame_ofFrame (hframe : frame % 1024 = 0) (hflags : flags &&& knownFlags = flags) :
    (ofFrame frame flags).frame defaultFrameMask = frame := by
  have hclear : flags &&& defaultFrameMask = 0 := by
    rw [← hflags, UInt32.and_assoc]
    exact UInt32.and_zero
  show (frame &&& defaultFrameMask ||| flags) &&& defaultFrameMask = frame
  rw [or_and_distrib, hclear, UInt32.or_zero, and_defaultFrameMask hframe,
    and_defaultFrameMask hframe]

/-- So does a flag, whatever the frame. -/
theorem ofFrame_and (h : defaultFrameMask &&& flag = 0) :
    (ofFrame frame flags).word &&& flag = flags &&& flag := by
  show (frame &&& defaultFrameMask ||| flags) &&& flag = flags &&& flag
  rw [or_and_distrib, UInt32.and_assoc, h, UInt32.and_zero, UInt32.zero_or]

theorem isPresent_ofFrame (frame flags : UInt32) :
    (ofFrame frame flags).isPresent = (flags &&& presentFlag != 0) := by
  rw [isPresent, ofFrame_and (by decide)]

theorem isWritable_ofFrame (frame flags : UInt32) :
    (ofFrame frame flags).isWritable = (flags &&& writableFlag != 0) := by
  rw [isWritable, ofFrame_and (by decide)]

end PageEntry

/-! ## Storing entries -/

namespace Memory

open PageTables (readEntry readEntry_congr)

variable {m n : Memory} {a : UInt32} {e : PageEntry} {entries : List (UInt32 × PageEntry)}

/-- **`Apart len a b`** — the `len` bytes from `a` on and the `len` bytes from `b` on do not
meet. -/
def Apart (len : Nat) (a b : UInt32) : Prop :=
  a.toNat + len ≤ b.toNat ∨ b.toNat + len ≤ a.toNat

/-- An entry is a window of four bytes. -/
theorem Holds.readEntry (h : m.Holds a.toNat (LittleEndian.encode 4 e.word)) :
    readEntry m a = .ok e := by
  obtain ⟨word, hread, hword⟩ := Holds.read (w := .long) h
  have heq : word = e.word := by
    apply UInt32.toNat_inj.mp
    rw [hword]
    exact Nat.mod_eq_of_lt e.word.toNat_lt
  rw [PageTables.readEntry, hread, heq]

/-- **`Stored m entries n`** — `n` came of `m` by storing the entries. -/
structure Stored (m : Memory) (entries : List (UInt32 × PageEntry)) (n : Memory) : Prop where
  size_eq : n.size = m.size
  /-- An entry that no store meets is the old one. -/
  keeps : ∀ b, (∀ x ∈ entries, Apart 4 x.1 b) → readEntry n b = readEntry m b
  /-- An entry that no other store meets is the one stored there. -/
  holds : ∀ x ∈ entries, (∀ y ∈ entries, y = x ∨ Apart 4 y.1 x.1) → readEntry n x.1 = .ok x.2

/-- One entry is stored wherever it fits. -/
theorem exists_stored_singleton (e : PageEntry) (h : m.Fits a 4) :
    ∃ n, m.write .long a e.word = .ok n ∧ m.Stored [(a, e)] n := by
  have hfit : a.toNat + (LittleEndian.encode 4 e.word).length ≤ m.size := by
    rw [LittleEndian.length_encode]
    exact h
  have hwrite : m.write .long a e.word = .ok (m.overlay a.toNat (LittleEndian.encode 4 e.word)) :=
    storeBytes_eq_ok_iff.mpr ⟨hfit, rfl⟩
  obtain ⟨-, hsize, hbytes⟩ := agreesOn_of_write hwrite
  refine ⟨_, hwrite, hsize, ?_, ?_⟩
  · intro b hapart
    have hb : Apart 4 a b := hapart (a, e) (List.mem_singleton_self _)
    apply readEntry_congr hsize
    intro i ⟨_, hle, hlt⟩
    apply hbytes i
    show i < a.toNat ∨ a.toNat + 4 ≤ i
    rcases hb with hb | hb <;> omega
  · intro x hx _
    obtain rfl := List.mem_singleton.mp hx
    exact (holds_overlay hfit).readEntry

/-- Storing one entry and then others is storing all of them. -/
theorem Stored.cons {l : Memory} (hhead : m.Stored [(a, e)] l) (htail : l.Stored entries n) :
    m.Stored ((a, e) :: entries) n := by
  refine ⟨htail.size_eq.trans hhead.size_eq, ?_, ?_⟩
  · intro b hapart
    rw [htail.keeps b fun x hx => hapart x (List.mem_cons_of_mem _ hx)]
    apply hhead.keeps
    intro x hx
    obtain rfl := List.mem_singleton.mp hx
    exact hapart _ List.mem_cons_self
  · intro x hx hothers
    have hrest : ∀ y ∈ entries, y = x ∨ Apart 4 y.1 x.1 :=
      fun y hy => hothers y (List.mem_cons_of_mem _ hy)
    -- the last store of `x` decides, and none of the later ones meets it
    by_cases hlater : x ∈ entries
    · exact htail.holds x hlater hrest
    · obtain rfl : x = (a, e) := (List.mem_cons.mp hx).resolve_right hlater
      rw [htail.keeps]
      · exact hhead.holds _ (List.mem_singleton_self _)
          fun y hy => Or.inl (List.mem_singleton.mp hy)
      · intro y hy
        apply (hrest y hy).resolve_left
        rintro rfl
        exact hlater hy

/-- **Entries that fit are all stored.** -/
theorem exists_stored (h : ∀ x ∈ entries, m.Fits x.1 4) :
    ∃ n, m.storeEntries entries = (n, .ok ()) ∧ m.Stored entries n := by
  induction entries generalizing m with
  | nil => exact ⟨m, rfl, rfl, fun _ _ => rfl, fun x hx => absurd hx List.not_mem_nil⟩
  | cons x entries ih =>
    obtain ⟨a, e⟩ := x
    obtain ⟨l, hwrite, hhead⟩ := exists_stored_singleton e (h _ List.mem_cons_self)
    have hfits : ∀ x ∈ entries, l.Fits x.1 4 := by
      intro x hx
      rw [Fits, hhead.size_eq]
      exact h x (List.mem_cons_of_mem _ hx)
    obtain ⟨n, hstore, htail⟩ := ih hfits
    refine ⟨n, ?_, hhead.cons htail⟩
    rw [storeEntries, hwrite]
    exact hstore

end Memory

end Moxie
