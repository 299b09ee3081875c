import BranchingDialogue.Proofs.Exact
import BranchingDialogue.Scalar.Binary32
import Mathlib.Data.Prod.Lex

/-!
# Exact numbers with infinite ones

Machine numbers without their rounding: rational numbers, and beside them what an operation gives that
has no rational result. A slope may be infinite by intention, since this is how a segment is made a
step. So curves with steps have exact numbers of this kind.

A zero has no sign here; a division by zero takes it as a positive one.
-/

namespace BranchingDialogue

/-- An exact number, or what stands for one where there is none. -/
inductive Extended where
  /-- A rational number. -/
  | ordinary (q : ℚ)
  /-- What is above all numbers, or below them. -/
  | infinite (negative : Bool)
  /-- The result of an operation that has none. -/
  | undefined
  deriving DecidableEq

namespace Extended

/-- Where a number stands among all: the infinite ones at both ends, what is undefined last. -/
def place : Extended → ℤ ×ₗ ℚ
  | .infinite true => toLex (-1, 0)
  | .ordinary q => toLex (0, q)
  | .infinite false => toLex (1, 0)
  | .undefined => toLex (2, 0)

/-- The number on the other side of zero. -/
def neg : Extended → Extended
  | .ordinary q => .ordinary (-q)
  | .infinite negative => .infinite !negative
  | .undefined => .undefined

/-- The sum of two numbers; the infinite ones cancel each other without a result. -/
def add : Extended → Extended → Extended
  | .ordinary p, .ordinary q => .ordinary (p + q)
  | .ordinary _, .infinite negative => .infinite negative
  | .infinite negative, .ordinary _ => .infinite negative
  | .infinite s, .infinite t => if s = t then .infinite s else .undefined
  | _, _ => .undefined

/-- The product of two numbers; zero and an infinite one have none. -/
def mul : Extended → Extended → Extended
  | .ordinary p, .ordinary q => .ordinary (p * q)
  | .ordinary p, .infinite negative =>
    if p = 0 then .undefined else .infinite (decide (p < 0) != negative)
  | .infinite negative, .ordinary q =>
    if q = 0 then .undefined else .infinite (negative != decide (q < 0))
  | .infinite s, .infinite t => .infinite (s != t)
  | _, _ => .undefined

/-- The quotient of two numbers; two zeros have none, and neither have two infinite ones. -/
def div : Extended → Extended → Extended
  | .ordinary p, .ordinary q =>
    if q = 0 then if p = 0 then .undefined else .infinite (decide (p < 0)) else .ordinary (p / q)
  | .ordinary _, .infinite _ => .ordinary 0
  | .infinite negative, .ordinary q => .infinite (negative != decide (q < 0))
  | _, _ => .undefined

/-- Turns a number into a count; what is too large gives the largest one. -/
def toCount (f : ℚ → Nat) : Extended → Nat
  | .ordinary q => Nat.min largestCount (f q)
  | .infinite false => largestCount
  | _ => 0

/-- The value of a double. -/
def ofDouble (x : Float) : Extended :=
  match x.toModel.unpack with
  | .finite .. => .ordinary (Scalar.ofDouble x)
  | .infinity s => .infinite (s matches .negative)
  | _ => .undefined

instance : Scalar Extended where
  add := add
  sub x y := x.add y.neg
  mul := mul
  div := div
  neg := neg
  lt x y := x ≠ .undefined ∧ y ≠ .undefined ∧ x.place < y.place
  le x y := x ≠ .undefined ∧ y ≠ .undefined ∧ x.place ≤ y.place
  decideLT x y := inferInstanceAs (Decidable (x ≠ .undefined ∧ y ≠ .undefined ∧ x.place < y.place))
  decideLE x y := inferInstanceAs (Decidable (x ≠ .undefined ∧ y ≠ .undefined ∧ x.place ≤ y.place))
  equal x y := decide (x ≠ .undefined ∧ x = y)
  ofNat n := .ordinary n
  isNaN x := x matches .undefined
  isFinite x := x matches .ordinary _
  ordered x y := decide (x.place ≤ y.place)
  round := toCount Scalar.round
  ceil := toCount Scalar.ceil
  -- As among rational numbers, only the number itself is asked.
  settle ok x := if ok x then x else .ordinary 0
  ofDouble := ofDouble
  ofDecimal m e := .ordinary (Scalar.ofDecimal m e)

variable (p q : ℚ) {x y z : Extended}

/-! ## Ordinary numbers -/

@[simp] theorem ordinary_add : ordinary p + ordinary q = ordinary (p + q) := rfl

@[simp] theorem ordinary_sub : ordinary p - ordinary q = ordinary (p - q) := by
  rw [sub_eq_add_neg]
  rfl

@[simp] theorem ordinary_mul : ordinary p * ordinary q = ordinary (p * q) := rfl

@[simp] theorem neg_ordinary : -ordinary q = ordinary (-q) := rfl

theorem ordinary_div (h : q ≠ 0) : ordinary p / ordinary q = ordinary (p / q) := if_neg h

@[simp] theorem ordinary_le : ordinary p ≤ ordinary q ↔ p ≤ q := by
  show _ ∧ _ ∧ toLex ((0 : ℤ), p) ≤ toLex ((0 : ℤ), q) ↔ _
  simp [Prod.Lex.toLex_le_toLex]

@[simp] theorem ordinary_lt : ordinary p < ordinary q ↔ p < q := by
  show _ ∧ _ ∧ toLex ((0 : ℤ), p) < toLex ((0 : ℤ), q) ↔ _
  simp [Prod.Lex.toLex_lt_toLex]

@[simp] theorem ofNat_eq (n : Nat) : (Scalar.ofNat n : Extended) = ordinary n := rfl

theorem isFinite_iff : Scalar.isFinite x = true ↔ ∃ q, x = ordinary q := by
  cases x with
  | ordinary q => exact ⟨fun _ => ⟨q, rfl⟩, fun _ => rfl⟩
  | infinite negative => exact ⟨nofun, nofun⟩
  | undefined => exact ⟨nofun, nofun⟩

@[simp] theorem half_eq : (Scalar.half : Extended) = ordinary (1 / 2) := by
  rw [Scalar.half, ofNat_eq, ofNat_eq, ordinary_div _ _ (by norm_num), Nat.cast_one, Nat.cast_two]

theorem isFinite_infinite_mul (negative : Bool) (x : Extended) :
    Scalar.isFinite (infinite negative * x) = false := by
  cases x with
  | ordinary q =>
    show Scalar.isFinite (if q = 0 then undefined else infinite (negative != decide (q < 0))) = false
    split <;> rfl
  | infinite s => rfl
  | undefined => rfl

/-! ## Order -/

theorem place_injective : Function.Injective place := by
  intro x y h
  unfold place at h
  split at h <;> split at h <;> simp_all

theorem le_antisymm (hxy : x ≤ y) (hyx : y ≤ x) : x = y :=
  place_injective (hxy.2.2.antisymm hyx.2.2)

theorem lt_of_le_of_equal (hxy : x ≤ y) (h : Scalar.equal x y = false) : x < y :=
  ⟨hxy.1, hxy.2.1, lt_of_le_of_ne hxy.2.2 fun heq =>
    of_decide_eq_false h ⟨hxy.1, place_injective heq⟩⟩

theorem lt_of_not_le (hx : x ≠ .undefined) (hy : y ≠ .undefined) (h : ¬x ≤ y) : y < x :=
  ⟨hy, hx, not_le.1 fun hle => h ⟨hx, hy, hle⟩⟩

theorem not_le_of_lt (h : x < y) : ¬y ≤ x := fun hle => not_le.2 h.2.2 hle.2.2

theorem le_of_lt (h : x < y) : x ≤ y := ⟨h.1, h.2.1, h.2.2.le⟩

theorem le_trans (hxy : x ≤ y) (hyz : y ≤ z) : x ≤ z :=
  ⟨hxy.1, hyz.2.1, hxy.2.2.trans hyz.2.2⟩

theorem lt_of_le_of_lt (hxy : x ≤ y) (hyz : y < z) : x < z :=
  ⟨hxy.1, hyz.2.1, hxy.2.2.trans_lt hyz.2.2⟩

theorem lt_of_lt_of_le (hxy : x < y) (hyz : y ≤ z) : x < z :=
  ⟨hxy.1, hyz.2.1, hxy.2.2.trans_le hyz.2.2⟩

instance : IsTrans Extended (· < ·) := ⟨fun _ _ _ hxy hyz => lt_of_lt_of_le hxy (le_of_lt hyz)⟩

/-- Sorting puts defined numbers in ascending order. -/
theorem pairwise_mergeSort {β : Type} (key : β → Extended) (xs : List β)
    (hkey : ∀ x ∈ xs, key x ≠ .undefined) :
    (xs.mergeSort fun a b => Scalar.ordered (key a) (key b)).Pairwise fun a b => key a ≤ key b := by
  have hplace : (xs.mergeSort fun a b => Scalar.ordered (key a) (key b)).Pairwise fun a b =>
      (key a).place ≤ (key b).place :=
    List.pairwise_mergeSort' (Order.Preimage (fun x => (key x).place) (· ≤ ·)) xs
  replace hkey : ∀ x ∈ xs.mergeSort fun a b => Scalar.ordered (key a) (key b),
      key x ≠ .undefined := fun x hx => hkey x ((List.mergeSort_perm xs _).mem_iff.1 hx)
  exact hplace.imp_of_mem fun ha hb hab => ⟨hkey _ ha, hkey _ hb, hab⟩

end Extended

end BranchingDialogue
