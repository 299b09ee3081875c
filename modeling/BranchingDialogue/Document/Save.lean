import BranchingDialogue.Document.Basic
import BranchingDialogue.Graph.Basic
import BranchingDialogue.Report.Json

/-!
# The document of a graph

Nodes and edges in the order of the graph, identifiers as 32 digits. If one node has a position, every
node is given one.
-/

namespace BranchingDialogue

/-- A property as it is stored. -/
def Property.record (p : Property) : PropertyRecord :=
  ⟨p.id.simple, p.type, p.name, p.value.toJson⟩

/-- A node as it is stored. -/
def Node.record (n : Node) : NodeRecord := ⟨n.id.simple, n.viewType, n.binder⟩

namespace Graph

/-- A port as it is stored; nothing if its node does not exist. -/
def portRecord? (g : Graph) (p : PortRef) : Option PortRecord :=
  (g.node? p.node).map fun n => ⟨n.id.simple, p.number⟩

/-- An edge as it is stored; nothing if an end does not exist. -/
def edgeRecord? (g : Graph) (e : Edge) : Option EdgeRecord :=
  match g.portRecord? e.output, g.portRecord? e.input with
  | some output, some input => some ⟨output, input⟩
  | _, _ => none

/-- The positions of all nodes, if one has one. -/
def positions (g : Graph) : List Position :=
  if g.nodes.toList.any (·.position.isSome) then
    g.nodes.toList.map fun n => n.position.getD ⟨0, 0⟩
  else []

/-- The document of a graph. -/
def toDocument (g : Graph) : Document where
  version := g.version
  objectId := g.objectId
  properties := g.properties.map Property.record
  nodes := g.nodes.toList.map Node.record
  edges := g.edges.toList.filterMap g.edgeRecord?
  positions := g.positions
  data := g.nodes.toList.map fun n => .object n.payload.toMembers

end Graph

/-- A document as JSON text. -/
def Document.text (d : Document) : String := d.report.json

end BranchingDialogue
