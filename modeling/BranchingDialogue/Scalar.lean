/-!
# Scalars

The arithmetic in which times, reveal positions and curve values are computed. Curves, reveals
and walks are written over any `Scalar`, so one definition serves machine numbers, which round,
and exact numbers, which do not. Only the operations are required here, not their laws: the
machine instance breaks most of them.
-/

namespace BranchingDialogue

/-- The operations that curves, reveals and walks need of a number. -/
class Scalar (α : Type) extends Add α, Sub α, Mul α, Div α, Neg α, LT α, LE α where
  /-- Comparison is decidable, so that programs can branch on it. -/
  decideLT : DecidableLT α
  /-- Comparison is decidable, so that programs can branch on it. -/
  decideLE : DecidableLE α
  /-- Whether two scalars are numerically equal. -/
  equal : α → α → Bool
  /-- The scalar nearest to a natural number. -/
  ofNat : Nat → α
  /-- Whether the scalar is the result of an undefined operation. -/
  isNaN : α → Bool
  /-- Whether the scalar is an ordinary number, neither infinite nor undefined. -/
  isFinite : α → Bool
  /-- A total order in which ascending sorts put scalars; it extends `≤`. -/
  ordered : α → α → Bool
  /-- The nearest natural number, halves rounding up; below zero and undefined give zero. -/
  round : α → Nat
  /-- The least natural number that is not below the scalar; undefined gives zero. -/
  ceil : α → Nat
  /-- `settle ok x` is the first scalar accepted by `ok` on the way from `x ≥ 0` down to zero,
  in steps of one representable scalar; zero itself is not asked. -/
  settle : (α → Bool) → α → α
  /-- The scalar nearest to a double. -/
  ofDouble : Float → α
  /-- The scalar nearest to `m * 10 ^ e`. -/
  ofDecimal : Nat → Int → α

namespace Scalar

variable {α : Type} [Scalar α]

instance instDecidableLT : DecidableLT α := Scalar.decideLT

instance instDecidableLE : DecidableLE α := Scalar.decideLE

/-- The scalar zero. -/
abbrev zero : α := ofNat 0

/-- The scalar one. -/
abbrev one : α := ofNat 1

/-- One half, which every binary format represents. -/
def half : α := ofNat 1 / ofNat 2

/-- The larger of two scalars; an undefined operand is ignored. -/
def max (a b : α) : α := if isNaN a then b else if a < b then b else a

/-- The smaller of two scalars; an undefined operand is ignored. -/
def min (a b : α) : α := if isNaN a then b else if b < a then b else a

/-- `x` moved into the range from `low` to `high`; an undefined `x` stays undefined. -/
def clamp (low high x : α) : α := if x < low then low else if high < x then high else x

/-- The sum of a list, added from left to right. -/
def sum (xs : List α) : α := xs.foldl (· + ·) zero

/-- `x` if it is an ordinary number, else zero; never below zero. -/
def finiteOrZero (x : α) : α := if isFinite x then max x zero else zero

end Scalar

end BranchingDialogue
