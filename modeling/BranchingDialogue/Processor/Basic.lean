import BranchingDialogue.Graph.Node
import BranchingDialogue.Processor.Comparison
import BranchingDialogue.Processor.Error

/-!
# Processors

What a processor computes from its inputs. Inputs are asked for in order, so of two faults the
earlier one counts.
-/

namespace BranchingDialogue

namespace Node

/-- An input of a processor. -/
def input (n : Node) (inputs : List Value) (i : Nat) : Except ProcessorError Value :=
  match inputs[i]? with
  | some v => .ok v
  | none => .error (.missingInput n.id i)

/-- An input that has to be a number. -/
def numberInput (n : Node) (inputs : List Value) (i : Nat) : Except ProcessorError Float :=
  match n.input inputs i with
  | .error e => .error e
  | .ok v =>
    match v.asDouble? with
    | some x => .ok x
    | none => .error (.notNumeric n.id v.kindName)

/-- An input that has to be a truth value. -/
def boolInput (n : Node) (inputs : List Value) (i : Nat) : Except ProcessorError Bool :=
  match n.input inputs i with
  | .error e => .error e
  | .ok v =>
    match v.asBool? with
    | some b => .ok b
    | none => .error (.notBoolean n.id v.kindName)

/-- A value that the payload has to hold. -/
def payloadValue (n : Node) (key : String) : Except ProcessorError Value :=
  match n.payload.get? key with
  | some v => .ok v
  | none => .error (.missingPayload n.id key)

/-- Both of the first two inputs as truth values. -/
def bothInputs (n : Node) (inputs : List Value) : Except ProcessorError (Bool × Bool) :=
  match n.boolInput inputs 0 with
  | .error e => .error e
  | .ok a =>
    match n.boolInput inputs 1 with
    | .error e => .error e
    | .ok b => .ok (a, b)

/-- Compares the first two inputs as the payload says. -/
def compareInputs (n : Node) (inputs : List Value) : Except ProcessorError Value :=
  match n.payloadValue "comparison" with
  | .error e => .error e
  | .ok v =>
    match Comparison.ofValue v with
    | .error shown => .error (.unsupportedComparison shown)
    | .ok c =>
      match n.numberInput inputs 0 with
      | .error e => .error e
      | .ok x =>
        match n.numberInput inputs 1 with
        | .error e => .error e
        | .ok y => .ok (.bool (c.holds x y))

/-- The value of the variable that the payload names. -/
def readProperty (n : Node) (vars : Variables) : Except ProcessorError Value :=
  match n.payloadValue "property" with
  | .error e => .error e
  | .ok v =>
    match v.asText? with
    | none => .error (.missingPayload n.id "property")
    | some name =>
      match vars.get? name with
      | some v => .ok v
      | none => .error (.unknownProperty n.id name)

/-- What a processor gives at an output for its inputs. A processor has one output. -/
def process (n : Node) (inputs : List Value) (output : Int) (vars : Variables) :
    Except ProcessorError Value :=
  if n.kind.isProcessor ∧ output ≠ 0 then .error (.noSuchOutput n.id output)
  else
    match n.kind with
    | .value => n.payloadValue "value"
    | .compare => n.compareInputs inputs
    | .property => n.readProperty vars
    | .not => (n.boolInput inputs 0).map fun a => .bool (!a)
    | .and => (n.bothInputs inputs).map fun (a, b) => .bool (a && b)
    | .or => (n.bothInputs inputs).map fun (a, b) => .bool (a || b)
    | kind => .error (.notAProcessor n.id kind)

end Node

end BranchingDialogue
