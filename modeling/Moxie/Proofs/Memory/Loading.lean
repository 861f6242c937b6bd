/-
# Moxie.Proofs.Memory.Loading — what an image leaves in memory.

A segment is a claim on a row of positions.  Where several lay claim to one position the last of
them has it, so what a list of segments leaves in memory is read off the list (`Segment.lastByte`),
and need not be followed through the memories in between.

Whether a segment can be placed is a matter of the segment and the size of the memory, which nothing
changes.  Hence the first segment that is refused is the same one wherever the loading is cut in
two, and everything about a failed load follows from cutting it right there
(`Memory.load_of_refused`).
-/
import Mathlib.Data.List.Induction
import Moxie.Memory.Image

namespace Moxie

/-! ## What segments say about a position -/

namespace Segment

/-- **`s.Covers pos`** — one of the bytes of the segment goes to `pos`. -/
def Covers (s : Segment) (pos : Nat) : Prop :=
  s.offset.toNat ≤ pos ∧ pos < s.offset.toNat + s.bytes.length

instance (s : Segment) (pos : Nat) : Decidable (s.Covers pos) :=
  inferInstanceAs (Decidable (_ ∧ _))

/-- The byte that the segment has for a position it covers. -/
def byteFor (s : Segment) (pos : Nat) : UInt8 :=
  s.bytes.getD (pos - s.offset.toNat) 0

/-- **`lastByte segments pos old`** — what the last of the segments to cover `pos` has for it; `old`
where none does. -/
def lastByte (segments : List Segment) (pos : Nat) (old : UInt8) : UInt8 :=
  ((segments.filter (·.Covers pos)).getLast?.map (·.byteFor pos)).getD old

theorem lastByte_concat (segments : List Segment) (s : Segment) (pos : Nat) (old : UInt8) :
    lastByte (segments ++ [s]) pos old =
      if s.Covers pos then s.byteFor pos else lastByte segments pos old := by
  unfold lastByte
  rw [List.filter_append]
  by_cases h : s.Covers pos
  · have hkept : [s].filter (·.Covers pos) = [s] := by simp [h]
    rw [if_pos h, hkept, List.getLast?_concat]
    rfl
  · have hdropped : [s].filter (·.Covers pos) = [] := by simp [h]
    rw [if_neg h, hdropped, List.append_nil]

/-! ## Which segments can be placed -/

/-- **`s.Fits size`** — the segment ends within a memory of `size` bytes. -/
def Fits (s : Segment) (size : Nat) : Prop :=
  s.offset.toNat + s.bytes.length ≤ size

/-- **`s.Loadable size`** — the segment can be placed in a memory of `size` bytes. -/
structure Loadable (s : Segment) (size : Nat) : Prop where
  aligned : s.Aligned
  fits : s.Fits size

instance (s : Segment) (size : Nat) : Decidable (s.Fits size) :=
  inferInstanceAs (Decidable (_ ≤ _))

instance (s : Segment) (size : Nat) : Decidable (s.Loadable size) :=
  decidable_of_iff (s.Aligned ∧ s.Fits size) ⟨fun h => ⟨h.1, h.2⟩, fun h => ⟨h.1, h.2⟩⟩

/-- **`s.refusal size`** — what is reported of a segment that cannot be placed: that it is odd if it
is, and that it does not fit otherwise. -/
def refusal (s : Segment) (size : Nat) : LoadError :=
  if s.Aligned then .outOfRange ⟨s.offset, s.bytes.length, size⟩
  else .unaligned s.offset s.bytes.length

end Segment

namespace Memory

/-! ## Laying segments over a memory -/

/-- **`m.lay segments`** — `m` with the segments laid over it in order. -/
def lay (m : Memory) (segments : List Segment) : Memory :=
  segments.foldl (fun m s => m.overlay s.offset.toNat s.bytes) m

theorem lay_append (m : Memory) (front rest : List Segment) :
    m.lay (front ++ rest) = (m.lay front).lay rest :=
  List.foldl_append

@[simp]
theorem size_lay (m : Memory) (segments : List Segment) : (m.lay segments).size = m.size := by
  induction segments generalizing m with
  | nil => rfl
  | cons s rest ih => exact (ih _).trans (size_overlay ..)

/-- **The last one wins.**  Each position holds what the last segment to cover it has for it, and
else what it held before. -/
theorem byteAt_lay {m : Memory} {segments : List Segment} (h : ∀ s ∈ segments, s.Fits m.size)
    (pos : Nat) : (m.lay segments).byteAt pos = Segment.lastByte segments pos (m.byteAt pos) := by
  -- from the end, because it is the last segment that decides
  induction segments using List.reverseRecOn with
  | nil => rfl
  | append_singleton segments s ih =>
    have hs : s.offset.toNat + s.bytes.length ≤ (m.lay segments).size := by
      rw [size_lay]
      exact h s (List.mem_append_right _ (List.mem_singleton.mpr rfl))
    rw [Segment.lastByte_concat, ← ih fun t ht => h t (List.mem_append_left _ ht), lay_append]
    exact byteAt_overlay hs pos

/-! ## Placing and loading -/

variable {m : Memory} {s : Segment} {front rest segments : List Segment}

theorem place_of_loadable (h : s.Loadable m.size) :
    m.place s = .ok (m.overlay s.offset.toNat s.bytes) := by
  have hfits : m.Fits s.offset s.bytes.length := h.fits
  rw [place, if_pos h.aligned, storeBytes, if_pos hfits]
  rfl

theorem place_of_not_loadable (h : ¬ s.Loadable m.size) :
    m.place s = .error (s.refusal m.size) := by
  unfold place Segment.refusal
  by_cases haligned : s.Aligned
  · have hfits : ¬ m.Fits s.offset s.bytes.length := fun hfits => h ⟨haligned, hfits⟩
    rw [if_pos haligned, if_pos haligned, storeBytes, if_neg hfits]
    rfl
  · rw [if_neg haligned, if_neg haligned]

/-- A segment is refused exactly when it cannot be placed. -/
theorem place_eq_error_iff {e : LoadError} :
    m.place s = .error e ↔ ¬ s.Loadable m.size ∧ e = s.refusal m.size := by
  by_cases h : s.Loadable m.size
  · rw [place_of_loadable h]
    exact ⟨nofun, fun he => absurd h he.1⟩
  · rw [place_of_not_loadable h, Except.error.injEq, eq_comm (a := e)]
    exact ⟨fun he => ⟨h, he⟩, fun he => he.2⟩

/-- Segments that can all be placed are laid over the memory. -/
theorem load_of_loadable (h : ∀ s ∈ segments, s.Loadable m.size) :
    m.load segments = (m.lay segments, .ok ()) := by
  induction segments generalizing m with
  | nil => rfl
  | cons s rest ih =>
    rw [load, place_of_loadable (h s (List.mem_cons_self ..))]
    refine ih fun t ht => ?_
    rw [size_overlay]
    exact h t (List.mem_cons_of_mem _ ht)

/-- **At the first segment that cannot be placed** loading ends, with the segments before it in
memory. -/
theorem load_of_refused (hfront : ∀ t ∈ front, t.Loadable m.size) (hs : ¬ s.Loadable m.size) :
    m.load (front ++ s :: rest) = (m.lay front, .error (s.refusal m.size)) := by
  have hplace : (m.lay front).place s = .error (s.refusal m.size) := by
    rw [← m.size_lay front] at hs ⊢
    exact place_of_not_loadable hs
  rw [load_append, load_of_loadable hfront]
  show (m.lay front).load (s :: rest) = _
  rw [load, hplace]

/-- What a load leaves is the segments before the first that cannot be placed, whether or not there
is one. -/
theorem fst_load (m : Memory) (segments : List Segment) :
    (m.load segments).1 = m.lay (segments.takeWhile (·.Loadable m.size)) := by
  induction segments generalizing m with
  | nil => rfl
  | cons s rest ih =>
    by_cases hs : s.Loadable m.size
    · have hsplit : (s :: rest).takeWhile (·.Loadable m.size) =
          s :: rest.takeWhile (·.Loadable m.size) := by simp [hs]
      have hrest := ih (m.overlay s.offset.toNat s.bytes)
      rw [size_overlay] at hrest
      rw [load, place_of_loadable hs, hsplit]
      exact hrest
    · have hnone : (s :: rest).takeWhile (·.Loadable m.size) = [] := by simp [hs]
      rw [load, place_of_not_loadable hs, hnone]
      rfl

/-- A list of segments that cannot all be placed has a first one that cannot. -/
theorem exists_refused (size : Nat) (segments : List Segment) :
    (∀ s ∈ segments, s.Loadable size) ∨
      ∃ front s rest, segments = front ++ s :: rest ∧ (∀ t ∈ front, t.Loadable size) ∧
        ¬ s.Loadable size := by
  cases h : segments.find? (fun s => ¬ s.Loadable size) with
  | none => exact .inl fun s hs => by simpa using List.find?_eq_none.mp h s hs
  | some s =>
    obtain ⟨hs, front, rest, hsplit, hfront⟩ := List.find?_eq_some_iff_append.mp h
    exact .inr ⟨front, s, rest, hsplit, fun t ht => by simpa using hfront t ht, by simpa using hs⟩

/-- A load that got through has placed every segment. -/
theorem loadable_of_load_ok (h : (m.load segments).2 = .ok ()) :
    ∀ s ∈ segments, s.Loadable m.size := by
  rcases exists_refused m.size segments with hall | ⟨front, s, rest, rfl, hfront, hs⟩
  · exact hall
  · rw [load_of_refused hfront hs] at h
    cases h

/-- A load that did not get through has ended at the first segment that cannot be placed. -/
theorem exists_refused_of_load_error {e : LoadError} (h : (m.load segments).2 = .error e) :
    ∃ front s rest, segments = front ++ s :: rest ∧ (∀ t ∈ front, t.Loadable m.size) ∧
      ¬ s.Loadable m.size ∧ e = s.refusal m.size ∧ (m.load segments).1 = m.lay front := by
  rcases exists_refused m.size segments with hall | ⟨front, s, rest, rfl, hfront, hs⟩
  · rw [load_of_loadable hall] at h
    cases h
  · rw [load_of_refused hfront hs] at h ⊢
    cases h
    exact ⟨front, s, rest, rfl, hfront, hs, rfl, rfl⟩

/-- **Loading an image.**  It succeeds exactly when every segment is even and ends within the
memory, and then each byte is that of the last segment which covers it.  When it fails, it is for
the first segment that is not so, and the memory is that of the segments before this one: none of
the others has left a byte.  An image in two parts is loaded by loading the one and then, if all
went well, the other. -/
theorem load_segments (m : Memory) (segments : List Segment) :
    ((m.load segments).2 = .ok () ↔ ∀ s ∈ segments, s.Loadable m.size) ∧
      ((m.load segments).2 = .ok () → (m.load segments).1.size = m.size ∧
        ∀ pos, (m.load segments).1.byteAt pos = Segment.lastByte segments pos (m.byteAt pos)) ∧
      (∀ e, (m.load segments).2 = .error e →
        ∃ front s rest, segments = front ++ s :: rest ∧ (∀ t ∈ front, t.Loadable m.size) ∧
          ¬ s.Loadable m.size ∧ e = s.refusal m.size ∧
          m.load front = ((m.load segments).1, .ok ()) ∧
          ∀ pos, (m.load segments).1.byteAt pos = Segment.lastByte front pos (m.byteAt pos)) ∧
      ∀ front rest, segments = front ++ rest →
        ((m.load front).2 = .ok () → m.load segments = (m.load front).1.load rest) ∧
        ∀ e, (m.load front).2 = .error e → m.load segments = m.load front := by
  refine ⟨⟨fun hok => loadable_of_load_ok hok, fun hall => ?_⟩, fun hok => ?_, fun e he => ?_, ?_⟩
  · rw [load_of_loadable hall]
  · have hall := loadable_of_load_ok hok
    rw [load_of_loadable hall]
    exact ⟨m.size_lay segments, byteAt_lay fun s hs => (hall s hs).fits⟩
  · obtain ⟨front, s, rest, hsplit, hfront, hs, he, hmemory⟩ := exists_refused_of_load_error he
    rw [hmemory]
    exact ⟨front, s, rest, hsplit, hfront, hs, he, load_of_loadable hfront,
      byteAt_lay fun t ht => (hfront t ht).fits⟩
  · rintro front rest rfl
    rw [load_append]
    cases hload : m.load front with
    | mk n r =>
      cases r with
      | ok u => exact ⟨fun _ => rfl, nofun⟩
      | error e => exact ⟨nofun, fun _ _ => rfl⟩

/-- Eight bytes that are all the same. -/
def filled : Memory :=
  ⟨⟨#[], Array.replicate 8 9, by decide⟩, by decide, by decide, by decide⟩

/-- Two segments of which the second covers a part of the first. -/
def overlapping : List Segment :=
  [⟨0, [1, 2, 3, 4]⟩, ⟨2, [5, 6]⟩]

/-- The second segment wins.  A third one that is odd and also ends outside the memory is refused
for being odd, and the one behind it does not come to be placed. -/
theorem filled_load_segments :
    (filled.load overlapping).2 = .ok () ∧ (filled.load overlapping).1.byteAt 3 = 6 ∧
      filled.load (overlapping ++ [⟨9, [1, 2, 3]⟩, ⟨4, [7, 7]⟩]) =
        ((filled.load overlapping).1, .error (.unaligned 9 3)) := by
  obtain ⟨hloads, hbytes, -, -⟩ := load_segments filled overlapping
  obtain ⟨-, -, -, hcut⟩ := load_segments filled (overlapping ++ [⟨9, [1, 2, 3]⟩, ⟨4, [7, 7]⟩])
  have hok : (filled.load overlapping).2 = .ok () := hloads.mpr (by decide)
  have hbyte : (filled.load overlapping).1.byteAt 3 = 6 := (hbytes hok).2 3
  have hrest := (hcut overlapping [⟨9, [1, 2, 3]⟩, ⟨4, [7, 7]⟩] rfl).1 hok
  exact ⟨hok, hbyte, hrest⟩

end Memory

end Moxie
