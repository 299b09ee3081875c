import BranchingDialogue.Scalar
import Mathlib.Algebra.Order.Floor.Ring
import Mathlib.Algebra.Order.Archimedean.Basic
import Mathlib.Data.List.Sort
import Mathlib.Data.Rat.Floor

/-!
# Exact numbers

Rational numbers as scalars: no operation rounds, every number is an ordinary one, and numbers are
in one order only. Curves and reveals over them are what those over machine numbers approximate.
-/

namespace BranchingDialogue

namespace Exact

/-- The value of a double; zero where it has none. -/
def ofDouble (x : Float) : ℚ :=
  match x.toModel.unpack with
  | .finite .positive m e _ => m * 2 ^ e
  | .finite .negative m e _ => -(m * 2 ^ e)
  | _ => 0

instance : Scalar ℚ where
  decideLT := inferInstance
  decideLE := inferInstance
  equal a b := decide (a = b)
  ofNat n := n
  isNaN _ := false
  isFinite _ := true
  ordered a b := decide (a ≤ b)
  round x := ⌊x + 1 / 2⌋.toNat
  ceil x := ⌈x⌉.toNat
  -- Between a number and zero there is no next number, so only the number itself is asked.
  settle ok x := if ok x then x else 0
  ofDouble := ofDouble
  ofDecimal m e := m * 10 ^ e

end Exact

variable (x y : ℚ)

@[simp] theorem ofNat_exact (n : Nat) : (Scalar.ofNat n : ℚ) = n := rfl

@[simp] theorem zero_exact : (Scalar.zero : ℚ) = 0 := Nat.cast_zero

@[simp] theorem one_exact : (Scalar.one : ℚ) = 1 := Nat.cast_one

@[simp] theorem half_exact : (Scalar.half : ℚ) = 1 / 2 := by
  rw [← Nat.cast_one, ← Nat.cast_two]
  rfl

@[simp] theorem isFinite_exact : Scalar.isFinite x = true := rfl

@[simp] theorem isNaN_exact : Scalar.isNaN x = false := rfl

@[simp] theorem equal_exact : Scalar.equal x y = decide (x = y) := rfl

@[simp] theorem ordered_exact : Scalar.ordered x y = decide (x ≤ y) := rfl

theorem settle_exact (ok : ℚ → Bool) : Scalar.settle ok x = if ok x then x else 0 := rfl

@[simp] theorem sum_exact (xs : List ℚ) : Scalar.sum xs = xs.sum := by
  rw [Scalar.sum, zero_exact, List.sum_eq_foldl]

theorem max_exact (x y : ℚ) : Scalar.max x y = max x y := by
  rw [Scalar.max, isNaN_exact, if_neg Bool.false_ne_true]
  rcases lt_or_ge x y with h | h
  · rw [if_pos h, max_eq_right h.le]
  · rw [if_neg h.not_gt, max_eq_left h]

theorem min_exact (x y : ℚ) : Scalar.min x y = min x y := by
  rw [Scalar.min, isNaN_exact, if_neg Bool.false_ne_true]
  rcases lt_or_ge y x with h | h
  · rw [if_pos h, min_eq_right h.le]
  · rw [if_neg h.not_gt, min_eq_left h]

theorem clamp_exact (low high : ℚ) (h : low ≤ high) :
    Scalar.clamp low high x = max low (min high x) := by
  rw [Scalar.clamp]
  split
  · next hlow => rw [min_eq_right (hlow.le.trans h), max_eq_left hlow.le]
  · next hlow =>
    rw [not_lt] at hlow
    split
    · next hhigh => rw [min_eq_left hhigh.le, max_eq_right h]
    · next hhigh => rw [min_eq_right (not_lt.1 hhigh), max_eq_right hlow]

/-- Sorting by a number puts a list in the ascending order of that number. -/
theorem pairwise_mergeSort_exact {β : Type} (key : β → ℚ) (xs : List β) :
    (xs.mergeSort fun a b => Scalar.ordered (key a) (key b)).Pairwise fun a b => key a ≤ key b :=
  List.pairwise_mergeSort' (Order.Preimage key (· ≤ ·)) xs

end BranchingDialogue
