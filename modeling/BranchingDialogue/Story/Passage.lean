import BranchingDialogue.Processor.Pull
import BranchingDialogue.Runtime
import BranchingDialogue.Story.Error
import BranchingDialogue.Story.Moment

/-!
# Passing a node

What a walk does at a single node: the clip it gives, the moment and the variables it leaves, and how
it goes on. Of several faults at a node the first one in the order of the text counts: what the node
says, how long it lasts, how it is revealed.
-/

namespace BranchingDialogue

/-- What a walk has come to: its moment and its variables. -/
structure Situation (α : Type) where
  moment : Moment α
  «variables» : Variables
  deriving DecidableEq

/-- How a walk goes on after a node. -/
inductive Onward where
  /-- Along the edge of an output. -/
  | along (output : Int)
  /-- After one of some options has been picked. -/
  | choose (options : List String)
  deriving DecidableEq, Repr

/-- What a walk does at a node. -/
structure Passage (α : Type) where
  situation : Situation α
  clip : Option (Clip α)
  onward : Onward
  deriving DecidableEq

namespace Situation

variable {α : Type} [Scalar α]

/-- Passes a node with a clip. -/
def emit (s : Situation α) (clip : Clip α) (onward : Onward) : Passage α :=
  ⟨{ s with moment := s.moment.advance clip }, some clip, onward⟩

end Situation

/-- A number under a name. -/
def Payload.scalar? {α : Type} [Scalar α] (p : Payload) (name : String) : Option α :=
  (p.double? name).map Scalar.ofDouble

/-- A duration: another one takes the place of what is no number, and there are no negative ones. -/
def durationOr {α : Type} [Scalar α] (fallback : α) (x : Option α) : α :=
  Scalar.max ((x.filter Scalar.isFinite).getD fallback) Scalar.zero

namespace Node

variable {α : Type} [Scalar α]

/-- The text under a name, empty if there is none. -/
def textAt (n : Node) (name : String) : String := (n.payload.text? name).getD ""

/-- The options under a name: none if there is nothing, else a sequence of texts. -/
def options (n : Node) (key : String) : Except (WalkError α) (List String) :=
  if n.payload.contains key then
    match n.payload.texts? key with
    | some texts => .ok texts
    | none => .error (.invalidField n.id key "expected a list of strings")
  else .ok []

/-- The key of a curve in a payload: a sequence of its four numbers. -/
def keyOf? (v : Value) : Option (Keyframe α) :=
  match v.asSequence?.bind (·.mapM fun x => x.asDouble?.map Scalar.ofDouble) with
  | some [time, value, inTangent, outTangent] => some ⟨time, value, inTangent, outTangent⟩
  | _ => none

/-- The curve by which the text of a node is revealed; a line if it does not say. -/
def authoredCurve (n : Node) : Except (WalkError α) (Curve α) :=
  match n.payload.sequence? "curve" with
  | none => .ok (.line Scalar.zero Scalar.zero Scalar.one Scalar.one)
  | some [] => .error (.invalidField n.id "curve" "needs at least one keyframe")
  | some values =>
    match values.mapM fun v => (keyOf? v : Option (Keyframe α)) with
    | none =>
      .error (.invalidField n.id "curve" "keys are [time, value, inTangent, outTangent]")
    | some keys => (Curve.ofKeys keys).mapError (.curve n.id)

/-- The text of a node without its tags, and their effects. -/
def strippedText (r : Runtime α) (n : Node) :
    Except (WalkError α) (StrippedText × TextEffects α) :=
  let raw := n.textAt "text"
  let limit := r.settings.limits.textLength
  if limit < raw.utf8ByteSize then .error (.textTooLong n.id raw.utf8ByteSize limit)
  else
    match r.tags.strip raw with
    | .error e => .error (.markup n.id e)
    | .ok stripped =>
      match TextEffects.ofTags stripped.tags with
      | .error e => .error (.markup n.id e)
      | .ok effects => .ok (stripped, effects)

/-- The reveal of a node's text, for a number of characters. -/
def reveal (r : Runtime α) (n : Node) (duration : α) (pauses : List (Pause α)) (length : Nat) :
    Except (WalkError α) (Reveal α) :=
  match (n.authoredCurve : Except (WalkError α) (Curve α)) with
  | .error e => .error e
  | .ok curve =>
    let plain := (Reveal.new curve duration).withOffsets
      ((n.payload.scalar? "startOffset").getD r.settings.startOffset)
      ((n.payload.scalar? "endOffset").getD r.settings.endOffset)
    match plain.applyPauses pauses length with
    | (reveal, none) => .ok reveal
    | (_, some e) => .error (.curve n.id e)

/-- The value that feeds the data input of a node. -/
def dataInput (r : Runtime α) (g : Graph) (index : Nat) (n : Node) (vars : Variables) :
    Except (WalkError α) Value :=
  (g.pullInput vars r.settings.processorDepth index dataSocket).mapError (.processor n.id)

/-- Says a line. -/
def passDialogue (r : Runtime α) (n : Node) (s : Situation α) : Except (WalkError α) (Passage α) :=
  match n.strippedText r with
  | .error e => .error e
  | .ok (stripped, effects) =>
    let duration := durationOr r.settings.dialogueDuration (n.payload.scalar? "duration")
    match n.reveal r duration effects.pauses stripped.charCount with
    | .error e => .error e
    | .ok reveal =>
      let clip :=
        { Clip.new .dialogue n.id s.moment.endTime duration with
          actor := n.textAt "actorID", text := stripped.text, tags := stripped.tags, effects,
          reveal := some reveal }
      .ok (s.emit clip (.along continuePort))

/-- Offers choices after a prompt, which shows at once. -/
def passChoice (r : Runtime α) (n : Node) (s : Situation α) : Except (WalkError α) (Passage α) :=
  match (n.options "choices" : Except (WalkError α) (List String)) with
  | .error e => .error e
  | .ok choices =>
    match n.strippedText r with
    | .error e => .error e
    | .ok (stripped, effects) =>
      let duration := durationOr r.settings.choiceDuration (n.payload.scalar? "duration")
      let clip :=
        { Clip.new .choice n.id s.moment.endTime duration with
          actor := n.textAt "actorID", text := stripped.text, tags := stripped.tags, effects,
          choices }
      .ok (s.emit clip (.choose choices))

/-- Offers actions while the last clip still runs. -/
def passAction (r : Runtime α) (n : Node) (s : Situation α) : Except (WalkError α) (Passage α) :=
  match (n.options "actions" : Except (WalkError α) (List String)) with
  | .error e => .error e
  | .ok choices =>
    let delay := durationOr Scalar.zero (n.payload.scalar? "delay")
    let duration := durationOr r.settings.choiceDuration (n.payload.scalar? "duration")
    let clip := { Clip.new .action n.id (s.moment.startTime + delay) duration with choices }
    .ok (s.emit clip (.choose choices))

/-- Writes a variable. -/
def passSet (r : Runtime α) (g : Graph) (index : Nat) (n : Node) (s : Situation α) :
    Except (WalkError α) (Passage α) :=
  match n.payload.text? "property" with
  | none => .error (.missingField n.id "property")
  | some name =>
    match n.dataInput r g index s.variables with
    | .error e => .error e
    | .ok value =>
      .ok ⟨{ s with «variables» := s.variables.insert name value }, none, .along continuePort⟩

/-- Goes on along the first output if the data input holds, else along the second one. -/
def passCondition (r : Runtime α) (g : Graph) (index : Nat) (n : Node) (s : Situation α) :
    Except (WalkError α) (Passage α) :=
  match n.dataInput r g index s.variables with
  | .error e => .error e
  | .ok value =>
    match value.asBool? with
    | some holds => .ok ⟨s, none, .along (if holds then 0 else 1)⟩
    | none => .error (.notBoolean n.id value.kindName)

/-- Marks a time. -/
def passMarker (n : Node) (s : Situation α) : Passage α :=
  let clip :=
    { Clip.new .marker n.id s.moment.endTime Scalar.zero with text := n.textAt "marker" }
  s.emit clip (.along continuePort)

/-- How long a blend lasts: as its data input says if there is one, else as its payload says. -/
def blendDuration (r : Runtime α) (g : Graph) (index : Nat) (n : Node) (vars : Variables) :
    Except (WalkError α) α :=
  if (n.port? .input dataSocket).any Port.isConnected then
    match n.dataInput r g index vars with
    | .error e => .error e
    | .ok value =>
      match value.asDouble? with
      | some seconds => .ok (durationOr Scalar.zero (some (Scalar.ofDouble seconds)))
      | none => .error (.notNumeric n.id value.kindName)
  else .ok (durationOr Scalar.zero (n.payload.scalar? "duration"))

/-- Blends to a target. -/
def passBlend (r : Runtime α) (g : Graph) (index : Nat) (n : Node) (s : Situation α) :
    Except (WalkError α) (Passage α) :=
  (n.blendDuration r g index s.variables).map fun duration =>
    let clip :=
      { Clip.new .blend n.id s.moment.endTime duration with text := n.textAt "target" }
    s.emit clip (.along continuePort)

/-- What a walk does at a node. Processors take no part in the flow. -/
def pass (r : Runtime α) (g : Graph) (index : Nat) (n : Node) (s : Situation α) :
    Except (WalkError α) (Passage α) :=
  match n.kind with
  | .input => .ok ⟨s, none, .along continuePort⟩
  | .dialogue => n.passDialogue r s
  | .choice => n.passChoice r s
  | .action => n.passAction r s
  | .set => n.passSet r g index s
  | .condition => n.passCondition r g index s
  | .marker => .ok (n.passMarker s)
  | .blend => n.passBlend r g index s
  | .value | .compare | .property | .not | .and | .or => .error (.notInterpretable n.id n.kind)

end Node

end BranchingDialogue
