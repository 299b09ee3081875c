import BranchingDialogue.Graph.Node
import BranchingDialogue.Reveal.Pauses

/-!
# Clips

A walk through a graph gives clips: what is said, offered or done, from a time on and for a while.
Whoever plays a story asks a clip which of its characters are visible.
-/

namespace BranchingDialogue

/-- What a clip is. -/
inductive ClipKind where
  | dialogue
  | choice
  | action
  | marker
  | blend
  deriving DecidableEq, Repr

/-- The name of a kind of clips. -/
def ClipKind.name : ClipKind → String
  | .dialogue => "Dialogue"
  | .choice => "Choice"
  | .action => "Action"
  | .marker => "Marker"
  | .blend => "Blend"

/-- All kinds of clips. -/
def ClipKind.all : List ClipKind := [.dialogue, .choice, .action, .marker, .blend]

/-- The kind with a name. -/
def ClipKind.ofName? (s : String) : Option ClipKind := all.find? fun k => k.name = s

/-- A part of a story. -/
structure Clip (α : Type) where
  kind : ClipKind
  node : NodeId
  /-- Who speaks. -/
  actor : String
  /-- What is said; the name of a marker and the target of a blend. -/
  text : String
  /-- What can be picked. -/
  choices : List String
  startTime : α
  duration : α
  tags : List PlacedTag
  effects : TextEffects α
  /-- How the text becomes visible; without it, it is visible at once. -/
  reveal : Option (Reveal α)
  deriving DecidableEq, Repr

namespace Clip

variable {α : Type}

/-- A clip without a text. -/
def new (kind : ClipKind) (node : NodeId) (startTime duration : α) : Clip α :=
  { kind, node, startTime, duration, actor := "", text := "", choices := [], tags := [],
    effects := .empty, reveal := none }

/-- A clip in a report. -/
def report (c : Clip Float32) : Report :=
  .record <|
    [("kind", .text c.kind.name), ("node", .text c.node.simple)]
    ++ Report.omitIf c.actor.isEmpty "actor" (.text c.actor)
    ++ [("text", .text c.text)]
    ++ Report.omitIf c.choices.isEmpty "choices" (.texts c.choices)
    ++ [("start_time", .single c.startTime), ("duration", .single c.duration)]
    ++ Report.omitIf c.tags.isEmpty "tags" (.list (c.tags.map PlacedTag.report))
    ++ Report.omitIf c.effects.isEmpty "effects" c.effects.report
    ++ (match c.reveal with | some r => [("visibility", r.report)] | none => [])

variable [Scalar α]

/-- When a clip ends. -/
def endTime (c : Clip α) : α := c.startTime + c.duration

/-- How many characters are visible at a time. -/
def visibleChars (c : Clip α) (time : α) : Nat :=
  match c.reveal with
  | some r => r.indexAt time c.startTime c.text.length
  | none => c.text.length

/-- The first sampled time at which a number of characters is visible. -/
def revealTime? (c : Clip α) (index : Nat) (step : α) : Option α :=
  match c.reveal with
  | some r => r.timeFor? index c.startTime c.text.length step
  | none => if index ≤ c.text.length then some c.startTime else none

/-- When the last of some clips ends; zero if there are none. -/
def lastEnd (clips : List (Clip α)) : α :=
  clips.foldl (fun latest c => Scalar.max latest c.endTime) Scalar.zero

end Clip

end BranchingDialogue
