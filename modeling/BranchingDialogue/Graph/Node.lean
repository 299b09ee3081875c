import BranchingDialogue.NodeKind
import BranchingDialogue.Uuid

/-!
# Nodes

A node with what it carries and the ports it has so far. Ports come into being when they are first
connected or asked for, each with the capacity that the node's kind prescribes.
-/

namespace BranchingDialogue

/-- Where an editor shows a node. -/
structure Position where
  x : Int
  y : Int
  deriving DecidableEq, Repr

/-- A node of a graph. -/
structure Node where
  id : NodeId
  /-- The binder that its kind was resolved from. -/
  binder : String
  /-- The type an editor shows it as. -/
  viewType : String
  kind : NodeKind
  payload : Payload
  position : Option Position
  inputs : Dictionary Int Port
  outputs : Dictionary Int Port
  deriving DecidableEq

namespace Node

/-- A node without ports, under its kind's own name. -/
def new (id : NodeId) (kind : NodeKind) (payload : Payload) : Node :=
  { id, kind, payload, binder := kind.name, viewType := kind.name, position := none,
    inputs := {}, outputs := {} }

/-- The ports of one side. -/
def ports (n : Node) : Direction → Dictionary Int Port
  | .input => n.inputs
  | .output => n.outputs

/-- Replaces the ports of one side. -/
def setPorts (n : Node) (direction : Direction) (ports : Dictionary Int Port) : Node :=
  match direction with
  | .input => { n with inputs := ports }
  | .output => { n with outputs := ports }

/-- A port, if it exists. -/
def port? (n : Node) (direction : Direction) (number : Int) : Option Port :=
  (n.ports direction).get? number

/-- A port as it is or as it would come into being. -/
def portOrNew (n : Node) (direction : Direction) (number : Int) : Port :=
  (n.port? direction number).getD (.new direction number (n.kind.capacity direction number))

/-- Changes a port, which comes into being if need be. -/
def updatePort (n : Node) (direction : Direction) (number : Int) (f : Port → Port) : Node :=
  n.setPorts direction ((n.ports direction).insert number (f (n.portOrNew direction number)))

/-- The sockets that the node's kind and payload declare. -/
def layout (n : Node) : PortLayout := n.kind.layout n.payload

end Node

end BranchingDialogue
