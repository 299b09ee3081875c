import BranchingDialogue.Graph.Node

/-!
# Documents

The flat form in which a graph is stored: a list of nodes, parallel lists of their payloads and
positions, a list of edges that name nodes by identifier, and the variables the graph declares.
Identifiers are texts here, so that errors can show what stands in the document.
-/

namespace BranchingDialogue

/-- A variable as it is stored. -/
structure PropertyRecord where
  id : String
  type : String
  name : String
  value : Json

/-- A node as it is stored. -/
structure NodeRecord where
  id : String
  /-- The type an editor shows it as. -/
  viewType : String
  binder : String
  deriving DecidableEq, Repr

/-- An end of an edge as it is stored. -/
structure PortRecord where
  node : String
  number : Int
  deriving DecidableEq, Repr

/-- An edge as it is stored. -/
structure EdgeRecord where
  output : PortRecord
  input : PortRecord
  deriving DecidableEq, Repr

/-- A graph as it is stored. -/
structure Document where
  version : Int
  objectId : String
  properties : List PropertyRecord
  nodes : List NodeRecord
  edges : List EdgeRecord
  /-- One position a node, or none at all. -/
  positions : List Position
  /-- One payload a node. -/
  data : List Json

/-! ## Writing -/

/-- A property in a report. -/
def PropertyRecord.report (p : PropertyRecord) : Report :=
  .record
    [("ID", .text p.id), ("Type", .text p.type), ("Name", .text p.name), ("Value", .ofJson p.value)]

/-- A node in a report. -/
def NodeRecord.report (n : NodeRecord) : Report :=
  .record [("ID", .text n.id), ("Type", .text n.viewType), ("Binder", .text n.binder)]

/-- An end of an edge in a report. -/
def PortRecord.report (p : PortRecord) : Report :=
  .record [("NodeID", .text p.node), ("PortNumber", .integer p.number)]

/-- An edge in a report. -/
def EdgeRecord.report (e : EdgeRecord) : Report :=
  .record [("OutputPort", e.output.report), ("InputPort", e.input.report)]

/-- A position in a report. -/
def Position.report (p : Position) : Report := .record [("x", .integer p.x), ("y", .integer p.y)]

/-- A document in a report. -/
def Document.report (d : Document) : Report :=
  .record
    [("Version", .integer d.version), ("ObjectID", .text d.objectId),
      ("Properties", .list (d.properties.map PropertyRecord.report)),
      ("Nodes", .list (d.nodes.map NodeRecord.report)),
      ("Edges", .list (d.edges.map EdgeRecord.report)),
      ("Positions", .list (d.positions.map Position.report)),
      ("Data", .list (d.data.map Report.ofJson))]

end BranchingDialogue
