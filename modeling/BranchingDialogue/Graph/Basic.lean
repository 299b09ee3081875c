import BranchingDialogue.Graph.Node

/-!
# Graphs

Nodes, edges and entries. Nodes and edges are named by their positions. Every port lists the edges
connected to it; the graph lists them all.
-/

namespace BranchingDialogue

/-- The newest version of the document format. -/
def formatVersion : Int := 1

/-- Whether documents of a version can be read. -/
def isSupported (version : Int) : Bool := version ≤ formatVersion

/-- A variable that a document declares, with its first value. -/
structure Property where
  id : Uuid
  /-- The declared type, which is carried along and not interpreted. -/
  type : String
  name : String
  value : Value
  deriving DecidableEq

/-- A dialogue graph. -/
structure Graph where
  version : Int
  objectId : String
  properties : List Property
  nodes : Array Node
  edges : Array Edge
  entries : Dictionary String Nat
  deriving DecidableEq

namespace Graph

/-- A graph without nodes. -/
def new (objectId : String) : Graph :=
  { version := formatVersion, objectId, properties := [], nodes := #[], edges := #[], entries := {} }

instance : Inhabited Graph := ⟨new ""⟩

/-- A node. -/
def node? (g : Graph) (i : Nat) : Option Node := g.nodes[i]?

/-- The position of the node with an identifier. -/
def indexOf? (g : Graph) (id : NodeId) : Option Nat := g.nodes.findIdx? fun n => n.id = id

/-- The node with an identifier. -/
def nodeById? (g : Graph) (id : NodeId) : Option Node := (g.indexOf? id).bind g.node?

/-- Adds a node at the end; nothing if its identifier is in use. -/
def addNode? (g : Graph) (n : Node) : Option (Graph × Nat) :=
  if (g.indexOf? n.id).isSome then none
  else some ({ g with nodes := g.nodes.push n }, g.nodes.size)

/-- Adds a property. -/
def addProperty (g : Graph) (p : Property) : Graph := { g with properties := g.properties ++ [p] }

/-- Names a node as an entry. -/
def registerEntry (g : Graph) (name : String) (i : Nat) : Graph :=
  { g with entries := g.entries.insert name i }

/-- The position of the node that is an entry's. -/
def entry? (g : Graph) (name : String) : Option Nat := g.entries.get? name

/-- The node that is an entry's. -/
def entryNode? (g : Graph) (name : String) : Option Node := (g.entry? name).bind g.node?

/-- An edge. -/
def edge? (g : Graph) (i : Nat) : Option Edge := g.edges[i]?

/-- A port, if it exists. -/
def port? (g : Graph) (p : PortRef) : Option Port :=
  (g.node? p.node).bind fun n => n.port? p.direction p.number

/-- Changes a port of a node, which comes into being if need be. -/
def updatePort (g : Graph) (p : PortRef) (f : Port → Port) : Graph :=
  { g with nodes := g.nodes.modify p.node fun n => n.updatePort p.direction p.number f }

/-- Makes sure that a port exists; nothing if its node does not. -/
def insertPort? (g : Graph) (p : PortRef) : Option (Graph × Port) :=
  (g.node? p.node).map fun n => (g.updatePort p id, n.portOrNew p.direction p.number)

/-- The output and the input of two ports that face different ways. -/
def orient? (a b : PortRef) : Option (PortRef × PortRef) :=
  match a.direction, b.direction with
  | .output, .input => some (a, b)
  | .input, .output => some (b, a)
  | _, _ => none

/-- Connects two ports by a new edge; nothing if they face the same way or a node is missing. -/
def connect? (g : Graph) (a b : PortRef) : Option (Graph × Nat) :=
  match orient? a b with
  | none => none
  | some (output, input) =>
    if (g.node? output.node).isNone || (g.node? input.node).isNone then none
    else
      let id := g.edges.size
      let g := g.updatePort output (·.attach id)
      let g := g.updatePort input (·.attach id)
      some ({ g with edges := g.edges.push ⟨id, output, input⟩ }, id)

/-- The edges connected to a port, in the order in which they were connected. -/
def linked (g : Graph) (p : PortRef) : List Edge :=
  match g.port? p with
  | none => []
  | some port => port.edges.filterMap g.edge?

/-- The inputs that an output leads to. -/
def targets (g : Graph) (node : Nat) (output : Int) : List PortRef :=
  (g.linked (.output node output)).map (·.input)

/-- The outputs that lead to an input. -/
def sources (g : Graph) (node : Nat) (input : Int) : List PortRef :=
  (g.linked (.input node input)).map (·.output)

/-- The node that the first edge of an output leads to. -/
def follow? (g : Graph) (node : Nat) (output : Int) : Option Nat :=
  (g.targets node output).head?.map (·.node)

/-- The output that the first edge of an input comes from. -/
def source? (g : Graph) (node : Nat) (input : Int) : Option PortRef := (g.sources node input).head?

end Graph

end BranchingDialogue
