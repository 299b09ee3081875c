import BranchingDialogue.Decimal.Layout
import BranchingDialogue.Report.Basic
import BranchingDialogue.Scalar

/-!
# Curves

A curve is a list of keys in ascending order of their times. Between two keys it is the cubic that
has their values and slopes there; before the first key and after the last one it keeps their
values. A slope that is not finite makes its segment a step, which keeps the value of the earlier
key.

`Curve.ofKeys` takes keys in any order and refuses what has no place on a time line.
-/

namespace BranchingDialogue

/-- A key of a curve: a value at a time, and the slopes with which the curve arrives and leaves. -/
structure Keyframe (α : Type) where
  time : α
  value : α
  inTangent : α
  outTangent : α
  deriving DecidableEq, Repr

/-- A part of a key. -/
inductive KeyframeField where
  | time
  | value
  | tangent
  deriving DecidableEq, Repr

/-- The name of a part of a key. -/
def KeyframeField.name : KeyframeField → String
  | .time => "time"
  | .value => "value"
  | .tangent => "tangent"

/-- Why there is no such curve. -/
inductive CurveError (α : Type) where
  /-- Two keys have the same time. -/
  | duplicateTime (time : α)
  /-- A part of a key is no number that a key can have. -/
  | notFinite (field : KeyframeField)
  /-- Times cannot be scaled by this factor. -/
  | invalidScale (scale : α)
  /-- Pauses leave no time for the reveal. -/
  | pausesExceedDuration (pauses effective : α)
  /-- There is no time for the reveal. -/
  | zeroDuration
  deriving DecidableEq, Repr

namespace CurveError

/-- The code of an error in diagnostics. -/
def code {α : Type} : CurveError α → String
  | .duplicateTime _ => "ds::curve::duplicate_time"
  | .notFinite _ => "ds::curve::not_finite"
  | .invalidScale _ => "ds::curve::scale"
  | .pausesExceedDuration _ _ => "ds::curve::pause_overflow"
  | .zeroDuration => "ds::curve::zero_duration"

/-- The message of an error. -/
def message : CurveError Float32 → String
  | .duplicateTime time => "duplicate keyframe time: " ++ singleText time
  | .notFinite field => "keyframe field `" ++ field.name ++ "` is not finite"
  | .invalidScale scale => "curve scale must be positive, got " ++ singleText scale
  | .pausesExceedDuration pauses effective =>
    "pauses of " ++ singleText pauses ++ "s do not fit in an effective duration of "
      ++ singleText effective ++ "s"
  | .zeroDuration => "effective reveal duration is zero"

/-- Advice on an error, if there is any. -/
def help? {α : Type} : CurveError α → Option String
  | .duplicateTime _ => some "Keyframe times must be strictly increasing"
  | .pausesExceedDuration _ _ => some "Lengthen the clip or shorten its wait tags"
  | .zeroDuration => some "Duration must exceed start offset + end offset"
  | _ => none

end CurveError

/-- A curve through keys. -/
structure Curve (α : Type) where
  keys : List (Keyframe α)
  deriving DecidableEq, Repr

/-- The position before which a test holds, found by halving the range: positions for which the test
holds have to come before those for which it does not. `size` positions from `base` on are left, and
the one sought is among those after `base`, or `base` itself. -/
def bisectFrom (p : Nat → Bool) (base size : Nat) : Nat :=
  if size ≤ 1 then if p base then base + 1 else base
  else bisectFrom p (if p (base + size / 2) then base + size / 2 else base) (size - size / 2)
  termination_by size

/-- The number of elements at the front of a list for which a test holds, found by halving. -/
def bisect {β : Type} (p : β → Bool) (xs : List β) : Nat :=
  if xs.isEmpty then 0 else bisectFrom (fun i => xs[i]?.any p) 0 xs.length

namespace Keyframe

variable {α : Type}

/-- A key in a report. -/
def report (k : Keyframe Float32) : Report :=
  .record
    [("time", .single k.time), ("value", .single k.value), ("in_tangent", .single k.inTangent),
      ("out_tangent", .single k.outTangent)]

variable [Scalar α]

/-- A key at which the curve neither rises nor falls. -/
def flat (time value : α) : Keyframe α := ⟨time, value, Scalar.zero, Scalar.zero⟩

/-- The first part of a key that a key cannot have: times and values have to be finite, slopes may be
infinite but not undefined. -/
def flaw? (k : Keyframe α) : Option KeyframeField :=
  if !Scalar.isFinite k.time then some .time
  else if !Scalar.isFinite k.value then some .value
  else if Scalar.isNaN k.inTangent || Scalar.isNaN k.outTangent then some .tangent
  else none

/-- A key moved to a later time. -/
def delay (length : α) (k : Keyframe α) : Keyframe α := { k with time := k.time + length }

/-- A key with its time and its value scaled, and its slopes with them. -/
def scale (x y slope : α) (k : Keyframe α) : Keyframe α :=
  ⟨k.time * x, k.value * y, k.inTangent * slope, k.outTangent * slope⟩

/-! ## The cubic between two keys -/

/-- The rise over a segment at the slopes of its ends; none if the segment is a step. -/
def rises? (a b : Keyframe α) : Option (α × α) :=
  let dt := b.time - a.time
  let m₀ := a.outTangent * dt
  let m₁ := b.inTangent * dt
  if !Scalar.isFinite m₀ || !Scalar.isFinite m₁ then none else some (m₀, m₁)

/-- The value at a time between two keys. -/
def between (a b : Keyframe α) (time : α) : α :=
  let dt := b.time - a.time
  if dt ≤ Scalar.zero then b.value
  else
    match rises? a b with
    | none => a.value
    | some (m₀, m₁) =>
      let two : α := Scalar.ofNat 2
      let three : α := Scalar.ofNat 3
      let t := (time - a.time) / dt
      let t2 := t * t
      let t3 := t2 * t
      let h00 := two * t3 - three * t2 + Scalar.one
      let h10 := t3 - two * t2 + t
      let h01 := (-two) * t3 + three * t2
      let h11 := t3 - t2
      h00 * a.value + h10 * m₀ + h01 * b.value + h11 * m₁

/-- The slope at a time between two keys. -/
def slopeBetween (a b : Keyframe α) (time : α) : α :=
  let dt := b.time - a.time
  if dt ≤ Scalar.zero then Scalar.zero
  else
    match rises? a b with
    | none => Scalar.zero
    | some (m₀, m₁) =>
      let two : α := Scalar.ofNat 2
      let three : α := Scalar.ofNat 3
      let four : α := Scalar.ofNat 4
      let six : α := Scalar.ofNat 6
      let t := (time - a.time) / dt
      let t2 := t * t
      let d00 := six * t2 - six * t
      let d10 := three * t2 - four * t + Scalar.one
      let d01 := (-six) * t2 + six * t
      let d11 := three * t2 - two * t
      (d00 * a.value + d10 * m₀ + d01 * b.value + d11 * m₁) / dt

end Keyframe

namespace Curve

variable {α : Type}

/-- The curve without keys. -/
def empty : Curve α := ⟨[]⟩

/-- The time of the first key. -/
def startTime? (c : Curve α) : Option α := c.keys.head?.map (·.time)

/-- The time of the last key. -/
def endTime? (c : Curve α) : Option α := c.keys.getLast?.map (·.time)

/-- The keys in a report. -/
def reportKeys (c : Curve Float32) : Report := .list (c.keys.map Keyframe.report)

/-- A curve in a report. -/
def report (c : Curve Float32) : Report := .record [("keys", c.reportKeys)]

variable [Scalar α]

/-- The first of two neighbours with the same time. -/
def sameTime? : List (Keyframe α) → Option (Keyframe α)
  | a :: b :: rest => if Scalar.equal a.time b.time then some a else sameTime? (b :: rest)
  | _ => none

/-- The curve through keys, in whatever order they come. -/
def ofKeys (keys : List (Keyframe α)) : Except (CurveError α) (Curve α) :=
  match keys.findSome? Keyframe.flaw? with
  | some field => .error (.notFinite field)
  | none =>
    let sorted := keys.mergeSort fun a b => Scalar.ordered a.time b.time
    match sameTime? sorted with
    | some k => .error (.duplicateTime k.time)
    | none => .ok ⟨sorted⟩

/-- A straight line between two points. -/
def line (t₀ v₀ t₁ v₁ : α) : Curve α :=
  let slope := if Scalar.equal t₁ t₀ then Scalar.zero else (v₁ - v₀) / (t₁ - t₀)
  ⟨[⟨t₀, v₀, slope, slope⟩, ⟨t₁, v₁, slope, slope⟩]⟩

/-- A line between two points that leaves and arrives gently. -/
def ease (t₀ v₀ t₁ v₁ : α) : Curve α := ⟨[.flat t₀ v₀, .flat t₁ v₁]⟩

/-- The keys around a time that lies strictly between the first key and the last one. -/
def segment? (c : Curve α) (time : α) : Option (Keyframe α × Keyframe α) :=
  match c.startTime?, c.endTime? with
  | some first, some last =>
    if time ≤ first ∨ last ≤ time then none
    else
      let next := bisect (fun k : Keyframe α => k.time ≤ time) c.keys
      match c.keys[next - 1]?, c.keys[next]? with
      | some a, some b => some (a, b)
      | _, _ => none
  | _, _ => none

/-- The value at a time; zero without keys. -/
def evaluate (c : Curve α) (time : α) : α :=
  match c.keys.head?, c.keys.getLast? with
  | some first, some last =>
    if time ≤ first.time then first.value
    else if last.time ≤ time then last.value
    else
      match c.segment? time with
      | some (a, b) => a.between b time
      | none => last.value
  | _, _ => Scalar.zero

/-- The slope at a time; zero outside the keys. -/
def derivative (c : Curve α) (time : α) : α :=
  match c.segment? time with
  | some (a, b) => a.slopeBetween b time
  | none => Scalar.zero

end Curve

end BranchingDialogue
