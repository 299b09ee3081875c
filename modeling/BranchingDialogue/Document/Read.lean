import BranchingDialogue.Document.Basic
import BranchingDialogue.Document.Error
import BranchingDialogue.Json.Record

/-!
# Reading documents

A document is a JSON object with the fields below; fields it does not know are skipped. `Document.read`
refuses a text that is too long before it looks into it.
-/

namespace BranchingDialogue

namespace Document

open Json RecordKind

/-- The fields of a port, as far as read. -/
structure PortDraft where
  node : Option String := none
  number : Option Int := none

/-- Ports in JSON. -/
def portKind : RecordKind PortDraft PortRecord where
  name := "PortRecord"
  fields :=
    [required "NodeID" (·.node) (fun d x => { d with node := some x }) textValue,
      required "PortNumber" (·.number) (fun d x => { d with number := some x }) int32Value]
  start := {}
  finish d := do some ⟨← d.node, ← d.number⟩

/-- The fields of an edge, as far as read. -/
structure EdgeDraft where
  output : Option PortRecord := none
  input : Option PortRecord := none

/-- Edges in JSON. -/
def edgeKind : RecordKind EdgeDraft EdgeRecord where
  name := "EdgeRecord"
  fields :=
    [required "OutputPort" (·.output) (fun d x => { d with output := some x }) portKind.read,
      required "InputPort" (·.input) (fun d x => { d with input := some x }) portKind.read]
  start := {}
  finish d := do some ⟨← d.output, ← d.input⟩

/-- The fields of a node, as far as read. -/
structure NodeDraft where
  id : Option String := none
  viewType : Option String := none
  binder : Option String := none

/-- Nodes in JSON. -/
def nodeKind : RecordKind NodeDraft NodeRecord where
  name := "NodeRecord"
  fields :=
    [required "ID" (·.id) (fun d x => { d with id := some x }) textValue,
      defaulted "Type" (·.viewType) (fun d x => { d with viewType := some x }) textValue,
      required "Binder" (·.binder) (fun d x => { d with binder := some x }) textValue]
  start := {}
  finish d := do some ⟨← d.id, d.viewType.getD "", ← d.binder⟩

/-- The fields of a property, as far as read. -/
structure PropertyDraft where
  id : Option String := none
  type : Option String := none
  name : Option String := none
  value : Option Json := none

/-- Properties in JSON. They lie three brackets deep. -/
def propertyKind : RecordKind PropertyDraft PropertyRecord where
  name := "PropertyRecord"
  fields :=
    [required "ID" (·.id) (fun d x => { d with id := some x }) textValue,
      defaulted "Type" (·.type) (fun d x => { d with type := some x }) textValue,
      required "Name" (·.name) (fun d x => { d with name := some x }) textValue,
      required "Value" (·.value) (fun d x => { d with value := some x })
        (readValue (depthLimit - 3))]
  start := {}
  finish d := do some ⟨← d.id, d.type.getD "", ← d.name, ← d.value⟩

/-- The fields of a position, as far as read. -/
structure PositionDraft where
  x : Option Int := none
  y : Option Int := none

/-- Positions in JSON. -/
def positionKind : RecordKind PositionDraft Position where
  name := "Position"
  fields :=
    [required "x" (·.x) (fun d x => { d with x := some x }) int32Value,
      required "y" (·.y) (fun d y => { d with y := some y }) int32Value]
  start := {}
  finish d := do some ⟨← d.x, ← d.y⟩

/-- The fields of a document, as far as read. -/
structure Draft where
  version : Option Int := none
  objectId : Option String := none
  properties : Option (List PropertyRecord) := none
  nodes : Option (List NodeRecord) := none
  edges : Option (List EdgeRecord) := none
  positions : Option (List Position) := none
  data : Option (List Json) := none

/-- Documents in JSON. The payloads lie two brackets deep. -/
def kind : RecordKind Draft Document where
  name := "GraphDocument"
  fields :=
    [required "Version" (·.version) (fun d x => { d with version := some x }) int32Value,
      defaulted "ObjectID" (·.objectId) (fun d x => { d with objectId := some x }) textValue,
      defaulted "Properties" (·.properties) (fun d x => { d with properties := some x })
        (listValue propertyKind.read),
      required "Nodes" (·.nodes) (fun d x => { d with nodes := some x }) (listValue nodeKind.read),
      defaulted "Edges" (·.edges) (fun d x => { d with edges := some x }) (listValue edgeKind.read),
      defaulted "Positions" (·.positions) (fun d x => { d with positions := some x })
        (listValue positionKind.read),
      defaulted "Data" (·.data) (fun d x => { d with data := some x })
        (listValue (readValue (depthLimit - 2)))]
  start := {}
  finish d := do
    some
      { version := ← d.version, objectId := d.objectId.getD "",
        properties := d.properties.getD [], nodes := ← d.nodes, edges := d.edges.getD [],
        positions := d.positions.getD [], data := d.data.getD [] }

/-- Reads a document of at most so many bytes. -/
def read (text : String) (maxBytes : Nat) : Except DocumentError Document :=
  if maxBytes < text.utf8ByteSize then .error (.tooLarge text.utf8ByteSize maxBytes)
  else
    match whole kind.read text with
    | .ok d => .ok d
    | .error fault => .error (.malformed (fault.message text) (.ofFault fault text))

end Document

end BranchingDialogue
