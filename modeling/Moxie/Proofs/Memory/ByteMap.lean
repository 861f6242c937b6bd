/-
# Moxie.Proofs.Memory.ByteMap — memory as a map from positions to bytes.

Whatever was done to a memory, it is told by the list of the writes that went through: each position
holds the byte of the last of them to cover it, and zero if none did.  Which writes went through can
be told from the size alone, for an access goes through exactly if it ends within the memory, as a
matter of natural numbers, and the size never changes.

A write that went through is a `Segment`, whether it was a store or placed a piece of an image, so a
history of calls becomes one list of segments that are laid over zeros (`afterAll_eq_lay`).
-/
import Mathlib.Data.List.TakeWhile
import Moxie.Proofs.Memory.Access
import Moxie.Proofs.Memory.Loading

namespace Moxie

/-- What a store of `v` in width `w` at `addr` writes: the digits of `v` to base 256, the least
significant first. -/
def Segment.ofStore (w : Width) (addr v : UInt32) : Segment where
  offset := addr
  bytes := (List.range w.bytes).map fun k => UInt8.ofNat (v.toNat / 256 ^ k)

namespace Memory

/-! ## Calls -/

/-- A call that may change a memory. -/
inductive Operation where
  | store (w : Width) (addr v : UInt32)
  | place (s : Segment)
  | load (segments : List Segment)
  deriving DecidableEq

/-- **`m.call op`** — the memory after a call, and how the call ended. -/
def call (m : Memory) : Operation → Memory × Except LoadError Unit
  | .store w addr v =>
    match m.write w addr v with
    | .ok n => (n, .ok ())
    | .error e => (m, .error (.outOfRange e))
  | .place s =>
    match m.place s with
    | .ok n => (n, .ok ())
    | .error e => (m, .error e)
  | .load segments => m.load segments

/-- **`m.afterAll calls`** — the memory after some calls, whether or not they failed. -/
def afterAll (m : Memory) (calls : List Operation) : Memory :=
  calls.foldl (fun m op => (m.call op).1) m

/-! ## What calls write -/

/-- **`op.writes size`** — what the call writes to a memory of `size` bytes: of an image the
segments before the first that cannot be placed, and otherwise all or nothing. -/
def Operation.writes (size : Nat) : Operation → List Segment
  | .store w addr v => if addr.toNat + w.bytes ≤ size then [.ofStore w addr v] else []
  | .place s => if s.Loadable size then [s] else []
  | .load segments => segments.takeWhile (·.Loadable size)

/-- **`writtenByte size calls pos`** — the byte of the last write to cover `pos`, among those that
some calls make to a memory of `size` bytes; zero if none does. -/
def writtenByte (size : Nat) (calls : List Operation) (pos : Nat) : UInt8 :=
  Segment.lastByte (calls.flatMap (·.writes size)) pos 0

theorem fits_of_mem_writes {op : Operation} {size : Nat} {s : Segment} (hs : s ∈ op.writes size) :
    s.Fits size := by
  cases op with
  | store w addr v =>
    simp only [Operation.writes, List.mem_ite_nil_right, List.mem_singleton] at hs
    obtain ⟨hfits, rfl⟩ := hs
    simpa [Segment.Fits, Segment.ofStore] using hfits
  | place t =>
    simp only [Operation.writes, List.mem_ite_nil_right, List.mem_singleton] at hs
    obtain ⟨hloadable, rfl⟩ := hs
    exact hloadable.fits
  | load segments =>
    have hloadable := List.mem_takeWhile_imp (show s ∈ segments.takeWhile (·.Loadable size) from hs)
    exact (of_decide_eq_true hloadable).fits

theorem put_eq_lay (m : Memory) (w : Width) (addr v : UInt32) :
    m.put w addr v = m.lay [.ofStore w addr v] := by
  rw [put, LittleEndian.encode_eq_map]
  rfl

/-- **One call** lays its writes over the memory. -/
theorem fst_call (m : Memory) (op : Operation) : (m.call op).1 = m.lay (op.writes m.size) := by
  cases op with
  | store w addr v =>
    by_cases h : addr.toNat + w.bytes ≤ m.size
    · rw [call, write_of_fits h, Operation.writes, if_pos h, put_eq_lay]
    · rw [call, write_of_not_fits h, Operation.writes, if_neg h]
      rfl
  | place s =>
    by_cases h : s.Loadable m.size
    · rw [call, place_of_loadable h, Operation.writes, if_pos h]
      rfl
    · rw [call, place_of_not_loadable h, Operation.writes, if_neg h]
      rfl
  | load segments => exact m.fst_load segments

/-- **A history of calls** lays all their writes over the memory. -/
theorem afterAll_eq_lay (m : Memory) (calls : List Operation) :
    m.afterAll calls = m.lay (calls.flatMap (·.writes m.size)) := by
  induction calls generalizing m with
  | nil => rfl
  | cons op calls ih =>
    show (m.call op).1.afterAll calls = _
    rw [ih, fst_call, size_lay, ← lay_append]
    rfl

/-! ## From zeros on -/

variable {m : Memory} {size : Nat}

theorem size_of_zeroed (h : zeroed size = .ok m) : m.size = size := by
  unfold zeroed at h
  split at h
  · cases h
    exact ByteRow.size_zeros size
  · cases h

theorem byteAt_of_zeroed (h : zeroed size = .ok m) (pos : Nat) : m.byteAt pos = 0 := by
  unfold zeroed at h
  split at h
  · cases h
    exact ByteRow.get_zeros size pos
  · cases h

/-- **Each position holds what was written there last.** -/
theorem byteAt_afterAll (h : zeroed size = .ok m) (calls : List Operation) (pos : Nat) :
    (m.afterAll calls).byteAt pos = writtenByte size calls pos := by
  obtain rfl := size_of_zeroed h
  rw [afterAll_eq_lay, byteAt_lay, byteAt_of_zeroed h]
  · rfl
  · intro s hs
    obtain ⟨op, -, hs⟩ := List.mem_flatMap.mp hs
    exact fits_of_mem_writes hs

/-! ## Accesses to a map of bytes -/

/-- The call makes a single access. -/
def Operation.isSingle : Operation → Bool
  | .store .. | .place _ => true
  | .load _ => false

/-- **`n.Refines size byte`** — accesses to `n` are accesses to the bytes `byte` at the positions
below `size`.  Those that reach past `size` fail, and say so; the sums are of natural numbers. -/
structure Refines (n : Memory) (size : Nat) (byte : Nat → UInt8) : Prop where
  size_eq : n.size = size
  readBytes_eq : ∀ addr len, addr.toNat + len ≤ size →
    n.readBytes addr len = .ok ((List.range len).map fun i => byte (addr.toNat + i))
  readBytes_error : ∀ addr len e,
    n.readBytes addr len = .error e ↔ size < addr.toNat + len ∧ e = ⟨addr, len, size⟩
  /-- A value is read low byte first. -/
  read_eq : ∀ w addr, addr.toNat + w.bytes ≤ size → ∃ v, n.read w addr = .ok v ∧
    v.toNat = Nat.ofDigits 256 ((List.range w.bytes).map fun i => (byte (addr.toNat + i)).toNat)
  read_error : ∀ w addr e,
    n.read w addr = .error e ↔ size < addr.toNat + w.bytes ∧ e = ⟨addr, w.bytes, size⟩
  write_error : ∀ w addr v e,
    n.write w addr v = .error e ↔ size < addr.toNat + w.bytes ∧ e = ⟨addr, w.bytes, size⟩
  /-- A segment is refused first if it is odd. -/
  place_error : ∀ s e, n.place s = .error e ↔ ¬ s.Loadable size ∧ e = s.refusal size
  /-- A single access that fails changes nothing. -/
  unchanged : ∀ op e, op.isSingle = true → (n.call op).2 = .error e → (n.call op).1 = n

/-- A single access that failed has written nothing. -/
theorem fst_call_of_error {op : Operation} (hop : op.isSingle = true) {e : LoadError}
    (h : (m.call op).2 = .error e) : (m.call op).1 = m := by
  cases op with
  | store w addr v =>
    by_cases hfits : m.Fits addr w.bytes
    · rw [call, write_of_fits hfits] at h
      cases h
    · rw [call, write_of_not_fits hfits]
  | place s =>
    by_cases hloadable : s.Loadable m.size
    · rw [call, place_of_loadable hloadable] at h
      cases h
    · rw [call, place_of_not_loadable hloadable]
  | load segments => cases hop

/-- A memory is a map of its own bytes. -/
theorem refines_byteAt (m : Memory) : m.Refines m.size m.byteAt where
  size_eq := rfl
  readBytes_eq _ _ h := if_pos h
  readBytes_error _ _ _ := readBytes_eq_error_iff
  read_eq w addr h := ⟨_, read_of_fits h, m.toNat_valueAt w addr⟩
  read_error _ _ _ := read_eq_error_iff
  write_error _ _ _ _ := write_eq_error_iff
  place_error _ _ := place_eq_error_iff
  unchanged _ _ hop he := fst_call_of_error hop he

/-- **Physical memory is a map of bytes.**  Whatever was stored, placed or loaded since a memory of
zeros was made, in whatever order and wherever, its size is the same, and an access to it fails
exactly when it reaches past the end, and otherwise finds at each position the byte of the last
successful write that covered it, or zero if none did. -/
theorem refines_of_history (h : zeroed size = .ok m) (calls : List Operation) :
    (m.afterAll calls).Refines size (writtenByte size calls) := by
  have hsize : (m.afterAll calls).size = size := by
    rw [afterAll_eq_lay, size_lay, size_of_zeroed h]
  have hbytes : (m.afterAll calls).byteAt = writtenByte size calls :=
    funext (byteAt_afterAll h calls)
  rw [← hbytes, ← hsize]
  exact refines_byteAt _

/-- Eight bytes of zeros. -/
def blank : Memory :=
  ⟨⟨#[], Array.replicate 8 0, by decide⟩, by decide, by decide, by decide⟩

/-- A store, a segment placed into it, a store that does not fit, and an image with an odd segment
in the middle. -/
def scribbles : List Operation :=
  [.store .long 1 0xDDCCBBAA, .place ⟨2, [0x11, 0x22]⟩, .store .short 7 0xFFFF,
    .load [⟨6, [0x33, 0x44]⟩, ⟨3, [0x55, 0x66]⟩, ⟨0, [0x77, 0x88]⟩]]

/-- The last two calls fail, and only the first segment of the image is there. -/
theorem blank_refines_scribbles :
    zeroed 8 = .ok blank ∧ (blank.afterAll scribbles).Refines 8 (writtenByte 8 scribbles) ∧
      (List.range 8).map (writtenByte 8 scribbles) = [0, 0xAA, 0x11, 0x22, 0xDD, 0, 0x33, 0x44] ∧
      (blank.afterAll scribbles).read .short 7 = .error ⟨7, 2, 8⟩ := by
  have hblank : zeroed 8 = .ok blank := rfl
  have hrefines := refines_of_history hblank scribbles
  exact ⟨hblank, hrefines, by decide +kernel, (hrefines.read_error .short 7 _).mpr ⟨by decide, rfl⟩⟩

end Memory

end Moxie
