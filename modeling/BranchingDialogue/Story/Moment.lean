import BranchingDialogue.Story.Clip

/-!
# Moments

Where in its time line a walk is: the time that the last clip takes, after which the next one is
placed. A marker takes no time. An action runs beside the clip before it, so the time widens to
cover both.
-/

namespace BranchingDialogue

/-- The time taken by what came last. -/
structure Moment (α : Type) where
  node : Option NodeId
  kind : Option ClipKind
  startTime : α
  duration : α
  deriving DecidableEq, Repr

namespace Moment

variable {α : Type}

/-- A moment in a report. -/
def report (m : Moment Float32) : Report :=
  .record
    [("node", .option (.text ∘ Uuid.simple) m.node), ("kind", .option (.text ∘ ClipKind.name) m.kind),
      ("start_time", .single m.startTime), ("duration", .single m.duration)]

variable [Scalar α]

/-- The moment before the first clip. -/
def origin : Moment α := ⟨none, none, Scalar.zero, Scalar.zero⟩

/-- When the last clip ends. -/
def endTime (m : Moment α) : α := m.startTime + m.duration

/-- The moment after a clip. -/
def advance (m : Moment α) (c : Clip α) : Moment α :=
  match c.kind with
  | .marker => m
  | .action =>
    let start := Scalar.min m.startTime c.startTime
    let stop := Scalar.max m.endTime c.endTime
    ⟨some c.node, some c.kind, start, stop - start⟩
  | .dialogue | .choice | .blend => ⟨some c.node, some c.kind, c.startTime, c.duration⟩

end Moment

end BranchingDialogue
