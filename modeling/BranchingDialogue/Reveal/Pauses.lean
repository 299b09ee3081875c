import BranchingDialogue.Markup.Effects
import BranchingDialogue.Reveal.Basic

/-!
# Pauses in a reveal

The authored curve is compressed so that the pauses fit beside it, and a hold is inserted for each
pause where its character is reached. The whole still takes the same time. Nothing here looks at the
curve in use, so applying pauses twice is applying them once.
-/

namespace BranchingDialogue.Reveal

variable {α : Type} [Scalar α]

/-- The part of a line that is visible when a pause begins. -/
def pauseTarget (p : Pause α) (length : Nat) : α :=
  if length = 0 then Scalar.zero
  else Scalar.ofNat (Nat.min p.index length) / Scalar.ofNat length

/-- Where a pause begins on a curve and how long it is beside an effective duration; a pause past the
end begins at the end. -/
def holdFor? (c : Curve α) (effective : α) (length : Nat) (p : Pause α) : Option (α × α) :=
  (c.timeFor? (pauseTarget p length) <|> c.endTime?).map fun time => (time, p.seconds / effective)

/-- The holds for pauses, the latest first, so that none shifts one that is still to be inserted. -/
def holds (c : Curve α) (effective : α) (length : Nat) (pauses : List (Pause α)) : List (α × α) :=
  (pauses.filter fun p => Scalar.zero < p.seconds).filterMap (holdFor? c effective length)
    |>.mergeSort fun a b => Scalar.ordered b.1 a.1

/-- The authored curve with pauses in it, for a line of some length. -/
def pausedCurve (r : Reveal α) (pauses : List (Pause α)) (length : Nat) :
    Except (CurveError α) (Curve α) :=
  let effective := r.effectiveDuration
  let total := Scalar.sum (pauses.map (·.seconds))
  if pauses.isEmpty then .ok r.authored
  else if effective ≤ Scalar.zero then .error .zeroDuration
  else if effective ≤ total then .error (.pausesExceedDuration total effective)
  else
    match r.authored.scaled ((effective - total) / effective) Scalar.one with
    | .error e => .error e
    | .ok c =>
      .ok ((holds c effective length pauses).foldl (fun c (time, hold) => c.insertHold time hold) c)

/-- Puts pauses into the curve in use; where they do not fit it becomes the authored curve. -/
def applyPauses (r : Reveal α) (pauses : List (Pause α)) (length : Nat) :
    Reveal α × Option (CurveError α) :=
  match r.pausedCurve pauses length with
  | .ok c => ({ r with inUse := c }, none)
  | .error e => (r.reset, some e)

end BranchingDialogue.Reveal
