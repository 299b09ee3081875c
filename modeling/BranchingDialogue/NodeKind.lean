import BranchingDialogue.Payload
import BranchingDialogue.Port

/-!
# Kinds of nodes

What a node does, and which ports it has. Flow nodes are walked; processor nodes compute values.
Documents name the kind of a node by a binder, a text that a registry resolves.
-/

namespace BranchingDialogue

/-- What a node does. -/
inductive NodeKind where
  /-- Where a walk may start. -/
  | input
  /-- A line of dialogue. -/
  | dialogue
  /-- A choice between answers. -/
  | choice
  /-- A choice between actions beside the running clip. -/
  | action
  /-- Writes a variable. -/
  | set
  /-- Branches on a truth value. -/
  | condition
  /-- Marks a time. -/
  | marker
  /-- Blends to a target. -/
  | blend
  /-- A constant. -/
  | value
  /-- Compares two numbers. -/
  | compare
  /-- Reads a variable. -/
  | property
  /-- Negates a truth value. -/
  | not
  /-- Whether both truth values hold. -/
  | and
  /-- Whether one of two truth values holds. -/
  | or
  deriving DecidableEq, Repr

namespace NodeKind

instance : Inhabited NodeKind := ⟨.input⟩

/-- All kinds. -/
def all : List NodeKind :=
  [.input, .dialogue, .choice, .action, .set, .condition, .marker, .blend, .value, .compare,
    .property, .not, .and, .or]

/-- The name of a kind, which is also its customary binder. -/
def name : NodeKind → String
  | .input => "Input"
  | .dialogue => "Dialogue"
  | .choice => "Choice"
  | .action => "Action"
  | .set => "Set"
  | .condition => "Condition"
  | .marker => "Marker"
  | .blend => "Blend"
  | .value => "Value"
  | .compare => "Compare"
  | .property => "Property"
  | .not => "Not"
  | .and => "And"
  | .or => "Or"

/-- The kind with a name. -/
def ofName? (s : String) : Option NodeKind := all.find? fun k => k.name = s

/-- Whether nodes of a kind compute values; all others take part in the flow. -/
def isProcessor : NodeKind → Bool
  | .value | .compare | .property | .not | .and | .or => true
  | _ => false

/-- Whether a walk stops at nodes of a kind until an output is picked. -/
def isBranching : NodeKind → Bool
  | .choice | .action => true
  | _ => false

end NodeKind

/-- How many sockets a node has on either side. -/
structure PortLayout where
  inputs : Nat
  outputs : Nat
  dataInputs : Nat
  dataOutputs : Nat
  deriving DecidableEq, Repr

namespace PortLayout

/-- Sockets of the flow only. -/
def flow (inputs outputs : Nat) : PortLayout := ⟨inputs, outputs, 0, 0⟩

/-- How many sockets there are in the family that a number falls in. -/
def declared (l : PortLayout) (direction : Direction) (number : Int) : Nat :=
  match direction, PortSlot.ofNumber number with
  | .input, .primary _ => l.inputs
  | .input, .secondary _ => l.dataInputs
  | .output, .primary _ => l.outputs
  | .output, .secondary _ => l.dataOutputs

/-- Whether a number stands for a socket that there is. -/
def contains (l : PortLayout) (direction : Direction) (number : Int) : Bool :=
  match PortSlot.ofNumber number with
  | .primary i => i < l.declared direction number
  | .secondary i => i < l.declared direction number

/-- A layout in a report. -/
def report (l : PortLayout) : Report :=
  .record
    [("inputs", .nat l.inputs), ("outputs", .nat l.outputs), ("data_inputs", .nat l.dataInputs),
      ("data_outputs", .nat l.dataOutputs)]

end PortLayout

namespace NodeKind

/-- The sockets of a node of a kind with a payload: a branching node has one output an option. -/
def layout (kind : NodeKind) (payload : Payload) : PortLayout :=
  match kind with
  | .input => .flow 0 1
  | .dialogue | .marker => .flow 1 1
  | .choice => .flow 1 (payload.sequenceLength "choices")
  | .action => .flow 1 (payload.sequenceLength "actions")
  | .set | .blend => { PortLayout.flow 1 1 with dataInputs := 1 }
  | .condition => { PortLayout.flow 1 2 with dataInputs := 1 }
  | .value | .property => .flow 0 1
  | .not => .flow 1 1
  | .compare | .and | .or => .flow 2 1

/-- How many edges a port of a node of a kind takes: data sockets and the inputs of processors take
one. -/
def capacity (kind : NodeKind) (direction : Direction) (number : Int) : Capacity :=
  if direction = .input ∧ ((PortSlot.ofNumber number).isSecondary || kind.isProcessor) then .single
  else .multi

end NodeKind

/-- The kinds that binders stand for. -/
abbrev NodeRegistry := Dictionary String NodeKind

namespace NodeRegistry

/-- Every kind under its own name. -/
def builtin : NodeRegistry := .ofList (NodeKind.all.map fun k => (k.name, k))

/-- Binds a binder to a kind. -/
def register (r : NodeRegistry) (binder : String) (kind : NodeKind) : NodeRegistry :=
  r.insert binder kind

/-- The kind that a binder stands for. -/
def resolve? (r : NodeRegistry) (binder : String) : Option NodeKind := r.get? binder

/-- A binder of a kind: its own name if that is one, else the first in order. -/
def binderFor? (r : NodeRegistry) (kind : NodeKind) : Option String :=
  if r.get? kind.name = some kind then some kind.name
  else (r.entries.find? fun e => e.2 = kind).map (·.1)

end NodeRegistry

end BranchingDialogue
