import BranchingDialogue.Curve.Change

/-!
# Reveals

How a line of dialogue becomes visible. A curve over the interval from zero to one says which part
of the line shows; the interval is passed through between two offsets at the ends of a duration. The
authored curve stays as it is; the one in use is a copy, into which pauses may be inserted.

The offsets never exceed the duration together: `fitOffset` sees to it in whatever arithmetic is
used.
-/

namespace BranchingDialogue

/-- A reveal of a line. -/
structure Reveal (α : Type) where
  /-- The curve as it was authored. -/
  authored : Curve α
  /-- The curve in use. -/
  inUse : Curve α
  duration : α
  startOffset : α
  endOffset : α
  deriving DecidableEq, Repr

namespace Reveal

variable {α : Type}

/-- A reveal in a report. -/
def report (r : Reveal Float32) : Report :=
  .record
    [("editor", r.authored.report), ("runtime", r.inUse.report), ("duration", .single r.duration),
      ("start_offset", .single r.startOffset), ("end_offset", .single r.endOffset)]

/-- Brings the curve in use back to the authored one. -/
def reset (r : Reveal α) : Reveal α := { r with inUse := r.authored }

/-- Replaces the authored curve. -/
def setAuthored (r : Reveal α) (c : Curve α) : Reveal α := { r with authored := c, inUse := c }

variable [Scalar α]

/-- A reveal without offsets. -/
def new (c : Curve α) (duration : α) : Reveal α :=
  { authored := c, inUse := c, duration := Scalar.finiteOrZero duration,
    startOffset := Scalar.zero, endOffset := Scalar.zero }

/-- A reveal at constant speed. -/
def steady (duration : α) : Reveal α :=
  new (.line Scalar.zero Scalar.zero Scalar.one Scalar.one) duration

/-- The largest offset, up to the wanted one, that fits into a duration beside another one. The
difference of the duration and the other offset may be rounded up, so the sum is asked. -/
def fitOffset (wanted other duration : α) : α :=
  Scalar.settle (fun offset => !decide (duration < offset + other))
    (Scalar.max (Scalar.min (Scalar.max wanted Scalar.zero) (duration - other)) Scalar.zero)

/-- Changes the offset at the start. -/
def setStartOffset (r : Reveal α) (offset : α) : Reveal α :=
  { r with startOffset := fitOffset offset r.endOffset r.duration }

/-- Changes the offset at the end. -/
def setEndOffset (r : Reveal α) (offset : α) : Reveal α :=
  { r with endOffset := fitOffset offset r.startOffset r.duration }

/-- Changes both offsets, the one at the start first. -/
def withOffsets (r : Reveal α) (startOffset endOffset : α) : Reveal α :=
  (r.setStartOffset startOffset).setEndOffset endOffset

/-- Changes the duration. Where the offsets no longer fit, the one at the end shrinks before the one
at the start. -/
def setDuration (r : Reveal α) (duration : α) : Reveal α :=
  let r := { r with duration := Scalar.finiteOrZero duration }
  if r.duration < r.startOffset + r.endOffset then
    let startOffset := Scalar.min r.startOffset r.duration
    { r with startOffset, endOffset := fitOffset r.endOffset startOffset r.duration }
  else r

/-- The time between the offsets. -/
def effectiveDuration (r : Reveal α) : α := r.duration - r.startOffset - r.endOffset

/-- How far the reveal has come at a time, from zero to one, if it starts at another. Without time
between the offsets everything shows as soon as the first one is over. -/
def intervalAt (r : Reveal α) (time start : α) : α :=
  let elapsed := time - start - r.startOffset
  let effective := r.effectiveDuration
  if effective ≤ Scalar.zero then if Scalar.zero ≤ elapsed then Scalar.one else Scalar.zero
  else
    let interval := Scalar.clamp Scalar.zero Scalar.one (elapsed / effective)
    if Scalar.isNaN interval then Scalar.zero else interval

/-- Which part of the line is visible at a time. -/
def visibilityAt (r : Reveal α) (time start : α) : α :=
  Scalar.clamp Scalar.zero Scalar.one (r.inUse.evaluate (r.intervalAt time start))

/-- How many of a line's characters are visible at a time. -/
def indexAt (r : Reveal α) (time start : α) (length : Nat) : Nat :=
  Scalar.round (r.visibilityAt time start * Scalar.ofNat length)

/-- Half the width of the stretch over which the speed is measured. -/
def tangentStep : α := Scalar.one / Scalar.ofNat 1000

/-- The speed of the reveal at a time, as the slope of the curve in use. -/
def tangentAt (r : Reveal α) (time start : α) : α :=
  let interval := r.intervalAt time start
  let low := Scalar.max (interval - tangentStep) Scalar.zero
  let high := Scalar.min (interval + tangentStep) Scalar.one
  if high ≤ low then Scalar.zero else (r.inUse.evaluate high - r.inUse.evaluate low) / (high - low)

/-! ## Looking a character up -/

/-- The largest number of frames that are sampled; longer reveals are sampled at a coarser step. -/
def maxScanFrames : Nat := 0x10000

/-- The step between samples, at least the wanted one. -/
def scanStep (r : Reveal α) (step : α) : α :=
  Scalar.max step (r.duration / Scalar.ofNat maxScanFrames)

/-- The number of the last frame that is sampled. -/
def lastFrame (r : Reveal α) (step : α) : Nat :=
  Nat.min (Scalar.ceil (r.duration / r.scanStep step)) maxScanFrames

/-- The time of a frame: a multiple of the step, and the end of the reveal for the last frame. -/
def frameTime (r : Reveal α) (start step : α) (frame : Nat) : α :=
  let stop := start + r.duration
  if frame = r.lastFrame step then stop
  else Scalar.min (start + Scalar.ofNat frame * r.scanStep step) stop

/-- Whether the line begins to show at a frame. -/
def beginsAt (r : Reveal α) (start step : α) (frame : Nat) : Bool :=
  let visibility (frame : Nat) : α := r.visibilityAt (r.frameTime start step frame) start
  let before :=
    match frame with
    | 0 => Scalar.zero
    | frame + 1 => visibility frame
  before ≤ Scalar.zero && Scalar.zero < visibility frame

/-- The first frame's time at which a number of characters is visible. No characters are visible when
the reveal begins, if there is an offset before it. -/
def timeFor? (r : Reveal α) (index : Nat) (start : α) (length : Nat) (step : α) : Option α :=
  if length < index ∨ ¬ Scalar.zero < step then none
  else
    let shows (frame : Nat) : Bool :=
      if index = 0 ∧ Scalar.zero < r.startOffset then r.beginsAt start step frame
      else index ≤ r.indexAt (r.frameTime start step frame) start length
    ((List.range (r.lastFrame step + 1)).find? shows).map (r.frameTime start step)

end Reveal

end BranchingDialogue
