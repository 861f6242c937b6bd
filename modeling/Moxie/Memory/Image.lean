/-
# Moxie.Memory.Image — loading an executable image.

An image is a list of segments, each an offset and the bytes to place there.  Instruction words are
sixteen bits, so a segment must start at an even offset and have an even length; evenness is judged
before the range.  Segments are placed in order, so a later one wins where two overlap, and loading
stops at the first that cannot be placed: the ones before it stay.
-/
import Moxie.Memory.Basic

namespace Moxie

/-- Why a segment cannot be placed. -/
inductive LoadError where
  /-- The offset or the length is odd. -/
  | unaligned (offset : UInt32) (length : Nat)
  /-- The segment does not lie in the memory. -/
  | outOfRange (cause : OutOfRange)
  deriving DecidableEq

/-- The wording of a load error. -/
def LoadError.message : LoadError → String
  | .unaligned offset length =>
    "copy into physical memory must use an even offset and length (offset=" ++
      Hex.shortest offset.toNat ++ " len=" ++ toString length ++ ")"
  | .outOfRange cause => cause.message

/-- A piece of an image: where it goes and what it holds. -/
structure Segment where
  /-- The physical address of the first byte. -/
  offset : UInt32
  /-- The contents. -/
  bytes : List UInt8
  deriving DecidableEq

/-- Offset and length are even. -/
def Segment.Aligned (s : Segment) : Prop :=
  s.offset % 2 = 0 ∧ s.bytes.length % 2 = 0

instance (s : Segment) : Decidable s.Aligned :=
  inferInstanceAs (Decidable (_ ∧ _))

namespace Memory

/-- **`m.place s`** — `m` with the segment `s` in it. -/
@[inline]
def place (m : Memory) (s : Segment) : Except LoadError Memory :=
  if s.Aligned then
    (m.storeBytes s.offset s.bytes).mapError .outOfRange
  else
    .error (.unaligned s.offset s.bytes.length)

/-- **`m.load segments`** — `m` with the segments placed in order, up to the first that fails; the
result says whether one did. -/
def load (m : Memory) : List Segment → Memory × Except LoadError Unit
  | [] => (m, .ok ())
  | s :: rest =>
    match m.place s with
    | .ok n => n.load rest
    | .error e => (m, .error e)

/-- Loading a list is loading any front part and then, if that went well, the rest. -/
theorem load_append (m : Memory) (front rest : List Segment) :
    m.load (front ++ rest) =
      match m.load front with
      | (n, .ok ()) => n.load rest
      | (n, .error e) => (n, .error e) := by
  induction front generalizing m with
  | nil => rfl
  | cons s front ih =>
    simp only [List.cons_append, load]
    cases m.place s with
    | ok n => exact ih n
    | error e => rfl

end Memory

end Moxie
