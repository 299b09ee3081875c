import BranchingDialogue.Scalar

/-!
# Single precision

Machine numbers as scalars: each operation rounds once, to nearest, ties to even. Conversions
that the hardware leaves to a library (rounding to a count, narrowing a double, reading a
decimal) are given here through the exact value `m * 2 ^ e` of a float.
-/

namespace BranchingDialogue

/-- The nearest natural number to `m * 2 ^ e`, halves rounding up. -/
def Dyadic.round (m : Nat) (e : Int) : Nat :=
  if 0 ≤ e then m <<< e.toNat else (m + 1 <<< ((-e).toNat - 1)) >>> (-e).toNat

/-- The least natural number that is not below `m * 2 ^ e`. -/
def Dyadic.ceil (m : Nat) (e : Int) : Nat :=
  if 0 ≤ e then m <<< e.toNat else (m + (1 <<< (-e).toNat - 1)) >>> (-e).toNat

/-- The largest count; a larger number is cut to it. -/
def largestCount : Nat := 0xFFFFFFFFFFFFFFFF

end BranchingDialogue

namespace BranchingDialogue.Binary32

/-- Turns a float into a count by `f` on its exact value: below zero and undefined give zero, and
what is too large gives the largest count. -/
def toCount (f : Nat → Int → Nat) (x : Float32) : Nat :=
  match x.toModel.unpack with
  | .finite .positive m e _ => Nat.min largestCount (f m e)
  | .infinity .positive => largestCount
  | _ => 0

/-- The float nearest to a natural number. -/
def ofNat (n : Nat) : Float32 :=
  if n < 0x10000000000000000 then n.toUInt64.toFloat32 else .ofModel (.ofNat n)

/-- The float nearest to a double. -/
def ofDouble (x : Float) : Float32 :=
  .ofModel <| .pack <|
    match x.toModel.unpack with
    | .finite s m e _ => .round .binary32 s m e
    | special => special

/-- The float nearest to `m * 10 ^ e`. -/
def ofDecimal (m : Nat) (e : Int) : Float32 := .ofModel (.ofScientific m e)

/-- The position of a float among all floats, the negative ones below the positive ones. -/
def rank (x : Float32) : Int :=
  let bits := x.toBits.toNat
  if bits < 0x80000000 then bits else 0x7FFFFFFF - (bits : Int)

/-- The first accepted float at or below the one with these bits, asked one after the other. -/
def settleBits (ok : Float32 → Bool) : Nat → Float32
  | 0 => .ofBits 0
  | n + 1 =>
    let x := Float32.ofBits (n + 1).toUInt32
    if ok x then x else settleBits ok n

/-- The first accepted float on the way from `x` down to zero. -/
def settle (ok : Float32 → Bool) (x : Float32) : Float32 :=
  if ofNat 0 < x then settleBits ok x.toBits.toNat else x

instance : Scalar Float32 where
  decideLT := inferInstance
  decideLE := inferInstance
  equal a b := a == b
  ofNat := ofNat
  isNaN := Float32.isNaN
  isFinite := Float32.isFinite
  ordered a b := rank a ≤ rank b
  round := toCount Dyadic.round
  ceil := toCount Dyadic.ceil
  settle := settle
  ofDouble := ofDouble
  ofDecimal := ofDecimal

end BranchingDialogue.Binary32
