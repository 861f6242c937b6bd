/-
# Moxie.Proofs.Counting — how many items of a list are of some kind.

Books that are kept of a run are compared by counting the same list of items in two ways.  A kind of
items is a Boolean test, and what is needed of counting is that it is additive: over kinds that
exclude each other, over the lists that the items of another list bring, and over a table of kinds.
-/
import Mathlib.Data.List.Basic

namespace Moxie

variable {α β : Type} {p q r : α → Bool}

/-- What is of one of two kinds is counted once under them. -/
theorem countP_eq_add (h : ∀ x, (p x).toNat = (q x).toNat + (r x).toNat) (xs : List α) :
    xs.countP p = xs.countP q + xs.countP r := by
  induction xs with
  | nil => rfl
  | cons x xs ih =>
    have hx := h x
    rw [List.countP_cons, List.countP_cons, List.countP_cons, ih]
    revert hx
    cases p x <;> cases q x <;> cases r x <;> simp <;> omega

/-- Items that each bring one mark or none bring as many marks as items with a mark. -/
theorem countP_flatMap_eq {f : α → List β} {mark : β → Bool}
    (h : ∀ x, (f x).countP mark = (p x).toNat) (xs : List α) :
    (xs.flatMap f).countP mark = xs.countP p := by
  induction xs with
  | nil => rfl
  | cons x xs ih =>
    rw [List.flatMap_cons, List.countP_append, List.countP_cons, ih, h]
    cases p x <;> simp [Nat.add_comm]

/-- Where each item brings one mark of the one sort for each of the other, and one more if it is of
some kind, all of them bring as many more as there are items of that kind. -/
theorem countP_flatMap_eq_add {f : α → List β} {mark other : β → Bool}
    (h : ∀ x, (f x).countP mark = (f x).countP other + (p x).toNat) (xs : List α) :
    (xs.flatMap f).countP mark = (xs.flatMap f).countP other + xs.countP p := by
  induction xs with
  | nil => rfl
  | cons x xs ih =>
    rw [List.flatMap_cons, List.countP_append, List.countP_append, List.countP_cons, ih, h]
    cases p x <;> simp <;> omega

theorem countP_append_singleton (xs : List α) (x : α) :
    (xs ++ [x]).countP p = xs.countP p + (p x).toNat := by
  rw [List.countP_append, List.countP_singleton]
  cases p x <;> rfl

/-- Kinds that exclude each other: what is of one of them is counted once under them. -/
theorem foldr_countP_eq {κ : Type} {of : κ → α → Bool} {kinds : List κ}
    (h : kinds.Pairwise fun k l => ∀ x, of k x = true → of l x = false) (xs : List α) :
    (kinds.map fun k => xs.countP (of k)).foldr (· + ·) 0 =
      xs.countP fun x => kinds.any (of · x) := by
  induction kinds with
  | nil =>
    have hnone : xs.countP (fun _ => false) = 0 :=
      List.countP_eq_zero.mpr fun _ _ => Bool.false_ne_true
    exact hnone.symm
  | cons k kinds ih =>
    obtain ⟨hfirst, hrest⟩ := List.pairwise_cons.mp h
    rw [List.map_cons, List.foldr_cons, ih hrest]
    refine (countP_eq_add (fun x => ?_) xs).symm
    rw [List.any_cons]
    cases hk : of k x with
    | false => simp
    | true =>
      have hothers : kinds.any (of · x) = false :=
        List.any_eq_false.mpr fun l hl => Bool.not_eq_true _ ▸ hfirst l hl x hk
      rw [hothers]
      rfl

end Moxie
