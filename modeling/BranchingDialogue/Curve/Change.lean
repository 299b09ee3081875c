import BranchingDialogue.Curve.Basic

/-!
# Changing and inverting curves

A scaled curve is the affine image of the curve. A hold keeps the curve at its value for a while and
shifts all that comes later; the curve before and after it keeps its shape, since the segment it
falls into is split with the value and the slope it has there. `timeFor?` looks a value up.
-/

namespace BranchingDialogue.Curve

variable {α : Type} [Scalar α]

/-- The curve with its times and its values scaled; times need a positive finite factor. -/
def scaled (c : Curve α) (x y : α) : Except (CurveError α) (Curve α) :=
  if Scalar.zero < x ∧ Scalar.isFinite x then .ok ⟨c.keys.map (Keyframe.scale x y (y / x))⟩
  else .error (.invalidScale x)

/-- Keeps the curve at its value for some length from a time on. A curve without keys and a length
that is not positive change nothing. -/
def insertHold (c : Curve α) (time length : α) : Curve α :=
  if c.keys.isEmpty ∨ length ≤ Scalar.zero then c
  else
    let position := bisect (fun k : Keyframe α => k.time < time) c.keys
    let earlier := c.keys.take position
    let split (later : List (Keyframe α)) : Curve α :=
      let slope := if earlier.isEmpty || later.isEmpty then Scalar.zero else c.derivative time
      let value := c.evaluate time
      ⟨earlier ++ ⟨time, value, slope, Scalar.zero⟩ :: ⟨time + length, value, Scalar.zero, slope⟩
        :: later.map (.delay length)⟩
    match c.keys.drop position with
    | [] => split []
    | k :: rest =>
      if Scalar.equal k.time time then
        ⟨earlier ++ { k with outTangent := Scalar.zero }
          :: ⟨time + length, k.value, Scalar.zero, k.outTangent⟩ :: rest.map (.delay length)⟩
      else split (k :: rest)

/-! ## Looking a value up -/

/-- How many samples are taken in search of a value. -/
def searchSamples : Nat := 256

/-- How often the interval around a value is halved. -/
def halvings : Nat := 32

/-- Halves an interval of times at whose end, but not at whose start, a value is reached. The end of
the last interval is the result. -/
def narrow (c : Curve α) (value : α) : Nat → α → α → α
  | 0, _, high => high
  | n + 1, low, high =>
    let middle := Scalar.half * (low + high)
    if value ≤ c.evaluate middle then narrow c value n low middle else narrow c value n middle high

/-- The times at which samples are taken, between the first key and the last one. -/
def sampleTime (first last : α) : Nat → α
  | 0 => first
  | step + 1 =>
    first + (last - first) * Scalar.ofNat (step + 1) / Scalar.ofNat searchSamples

/-- A time at which the curve reaches a value: the first key's if the curve starts there, else one
up to the first sample at or above the value, found by halving. -/
def timeFor? (c : Curve α) (value : α) : Option α :=
  match c.keys.head?, c.keys.getLast? with
  | some first, some last =>
    if value ≤ first.value then some first.time
    else
      let time := sampleTime first.time last.time
      ((List.range searchSamples).find? fun i => value ≤ c.evaluate (time (i + 1))).map fun i =>
        c.narrow value halvings (time i) (time (i + 1))
  | _, _ => none

end BranchingDialogue.Curve
