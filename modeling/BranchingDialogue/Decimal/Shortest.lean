/-!
# Shortest decimals

A binary float stands for every real number that rounds to it. `Digits.shortest` names the float by
the decimal with the fewest digits among those numbers, and by the nearest of these to the float
itself. The search asks one decimal grid after the other, from coarse to fine; on each grid only
the two neighbours of the float can be hits.
-/

namespace BranchingDialogue

/-- Which of two equally near decimals is taken. -/
inductive TieRule where
  /-- The one further from zero. -/
  | up
  /-- The one whose last digit is even. -/
  | even
  deriving DecidableEq, Repr

/-- The number `digits * 10 ^ exponent`. -/
structure Digits where
  /-- The decimal digits, read as one natural number. -/
  digits : Nat
  /-- The power of ten of the last digit. -/
  exponent : Int
  deriving DecidableEq, Repr

/-- A finite float `mantissa * 2 ^ exponent` with the reals that round to it: half a unit to either
side, or only a quarter below where the unit is smaller on that side. -/
structure RoundingInterval where
  /-- The positive mantissa. -/
  mantissa : Nat
  /-- The power of two of the mantissa's last bit. -/
  exponent : Int
  /-- Whether floats below this one lie twice as dense. -/
  narrowBelow : Bool
  deriving DecidableEq, Repr

namespace RoundingInterval

/-- Quarter units of the last bit: the value and both ends of the interval. -/
def quarters (r : RoundingInterval) : Nat × Nat × Nat :=
  (4 * r.mantissa - (if r.narrowBelow then 1 else 2), 4 * r.mantissa, 4 * r.mantissa + 2)

/-- Both ends belong to the interval exactly when the mantissa is even, as ties round to even. -/
def closed (r : RoundingInterval) : Bool := r.mantissa % 2 == 0

/-- The decimal on the grid of multiples of `10 ^ g` that lies in the interval and nearest to the
value, if the grid has one there. -/
def onGrid (r : RoundingInterval) (tie : TieRule) (g : Int) : Option Nat :=
  let quarter := r.exponent - 2
  let scale := Nat.pow 2 quarter.toNat * Nat.pow 10 (-g).toNat
  let unit := Nat.pow 10 g.toNat * Nat.pow 2 (-quarter).toNat
  let (low, value, high) := r.quarters
  let inside (d : Nat) : Bool :=
    if r.closed then low * scale ≤ d * unit && d * unit ≤ high * scale
    else low * scale < d * unit && d * unit < high * scale
  let below := value * scale / unit
  let excess := value * scale % unit
  match inside below, inside (below + 1) with
  | false, false => none
  | true, false => some below
  | false, true => some (below + 1)
  | true, true =>
    if 2 * excess < unit then some below
    else if unit < 2 * excess then some (below + 1)
    else match tie with
      | .up => some (below + 1)
      | .even => some (if below % 2 == 0 then below else below + 1)

/-- Asks the grids of multiples of `10 ^ g`, `10 ^ (g - 1)`, … for the first that has a decimal. -/
def search (r : RoundingInterval) (tie : TieRule) : Nat → Int → Digits
  | 0, g => ⟨0, g⟩
  | fuel + 1, g =>
    match r.onGrid tie g with
    | some d => ⟨d, g⟩
    | none => r.search tie fuel (g - 1)

/-- A power of ten above the value: one bit is worth less than 0.30103 digits. -/
def coarsest (r : RoundingInterval) : Int :=
  (r.mantissa.log2 + 1 + r.exponent) * 30103 / 100000 + 2

end RoundingInterval

namespace Digits

/-- Drops the zeros at the end of the digits, at most `fuel` of them. -/
def trimZeros : Nat → Digits → Digits
  | 0, d => d
  | fuel + 1, d =>
    if d.digits != 0 && d.digits % 10 == 0 then trimZeros fuel ⟨d.digits / 10, d.exponent + 1⟩
    else d

/-- The fewest digits that read back as the same float. Twenty-two grids suffice, since seventeen
digits tell all doubles apart and the first few grids are coarser than the value. -/
def shortest (r : RoundingInterval) (tie : TieRule) : Digits :=
  trimZeros 400 (r.search tie 24 r.coarsest)

end Digits

end BranchingDialogue
