import BranchingDialogue.Document.Basic
import BranchingDialogue.Document.Error

/-!
# The graph of a document

First all nodes, then all edges, so that an edge may name any node. Every check names what it
refuses; the first one that fails ends the loading, and there is no partial graph.
-/

namespace BranchingDialogue

/-- The payload key of an entry's name. -/
def entryNameKey : String := "inputName"

/-- The payload of a node; null stands for an empty one. -/
def Payload.ofJson (node : NodeId) : Json → Except DocumentError Payload
  | .object members =>
    match Payload.ofMembers members with
    | .ok payload => .ok payload
    | .error (key, shape) => .error (.invalidPayload node key shape)
  | .null => .ok {}
  | _ => .error (.payloadNotObject node)

/-- The property of a record. -/
def Property.ofRecord (record : PropertyRecord) : Except DocumentError Property :=
  match Uuid.parse? record.id with
  | none => .error (.invalidId record.id .property)
  | some id =>
    match Value.ofJson record.value with
    | .error shape => .error (.invalidProperty record.name shape)
    | .ok value => .ok { id, type := record.type, name := record.name, value }

/-- The node of a record, its payload and its position. -/
def Node.ofRecord (registry : NodeRegistry) (record : NodeRecord) (data : Json)
    (position : Option Position) : Except DocumentError Node :=
  match NodeId.parse? record.id with
  | none => .error (.invalidId record.id .node)
  | some id =>
    match registry.resolve? record.binder with
    | none => .error (.unknownBinder id record.binder)
    | some kind =>
      match Payload.ofJson id data with
      | .error e => .error e
      | .ok payload =>
        .ok
          { Node.new id kind payload with
            binder := record.binder, viewType := record.viewType, position }

namespace Graph

/-- The name of the entry that a node is; none if it is no entry. -/
def entryName (n : Node) : Except DocumentError (Option String) :=
  if n.kind = .input then
    match n.payload.text? entryNameKey with
    | some name => .ok (some name)
    | none => .error (.missingEntryName n.id)
  else .ok none

/-- Adds a node and, if it is an entry, its name. -/
def admitNode (g : Graph) (n : Node) : Except DocumentError Graph :=
  match entryName n with
  | .error e => .error e
  | .ok entry =>
    match g.addNode? n with
    | none => .error (.duplicateNode n.id)
    | some (g, i) =>
      match entry with
      | none => .ok g
      | some name =>
        if (g.entry? name).isSome then .error (.duplicateEntry name)
        else .ok (g.registerEntry name i)

/-- The port that an end of an edge names, if its node declares it and it takes one more edge. -/
def resolvePort (g : Graph) (edge : Nat) (record : PortRecord) (direction : Direction) :
    Except DocumentError (PortRef × Node) :=
  let place : IdPlace := match direction with | .output => .output | .input => .input
  match NodeId.parse? record.node with
  | none => .error (.invalidId record.node place)
  | some id =>
    match g.indexOf? id with
    | none => .error (.danglingNode edge id)
    | some i =>
      match g.node? i with
      | none => .error (.danglingNode edge id)
      | some n =>
        if !n.layout.contains direction record.number then
          .error (.portOutOfRange edge id record.number direction
            (n.layout.declared direction record.number))
        else if (n.port? direction record.number).any (!·.accepts) then
          .error (.portCapacity edge id record.number direction)
        else .ok (⟨i, direction, record.number⟩, n)

/-- Adds an edge. Data sockets take edges from processors only. -/
def admitEdge (g : Graph) (record : EdgeRecord) (edge : Nat) : Except DocumentError Graph :=
  match g.resolvePort edge record.output .output with
  | .error e => .error e
  | .ok (output, source) =>
    match g.resolvePort edge record.input .input with
    | .error e => .error e
    | .ok (input, target) =>
      if (PortSlot.ofNumber input.number).isSecondary ∧ !source.kind.isProcessor then
        .error (.dataSource edge source.id source.kind target.id input.number)
      else
        match g.connect? output input with
        | some (g, _) => .ok g
        | none => .error (.danglingNode edge target.id)

/-- The list that has to run parallel to the nodes but does not. -/
def mismatch? (d : Document) : Option DocumentError :=
  let n := d.nodes.length
  if d.data.length ≠ n then some (.parallelMismatch .data n d.data.length)
  else if !d.positions.isEmpty ∧ d.positions.length ≠ n then
    some (.parallelMismatch .positions n d.positions.length)
  else none

/-- The position of each node. -/
def positionsOf (d : Document) : List (Option Position) :=
  if d.positions.isEmpty then List.replicate d.nodes.length none else d.positions.map some

/-- Adds the nodes of a document. -/
def admitNodes (g : Graph) (registry : NodeRegistry) (d : Document) : Except DocumentError Graph :=
  (d.nodes.zip (d.data.zip (positionsOf d))).foldlM
    (fun g (record, data, position) =>
      match Node.ofRecord registry record data position with
      | .error e => .error e
      | .ok n => g.admitNode n)
    g

/-- Adds the edges of a document. -/
def admitEdges (g : Graph) (d : Document) : Except DocumentError Graph :=
  d.edges.zipIdx.foldlM (fun g (record, edge) => g.admitEdge record edge) g

/-- The graph of a document. -/
def ofDocument (registry : NodeRegistry) (d : Document) : Except DocumentError Graph :=
  if !isSupported d.version then .error (.unsupportedVersion d.version)
  else
    match mismatch? d with
    | some e => .error e
    | none =>
      match d.properties.mapM Property.ofRecord with
      | .error e => .error e
      | .ok properties =>
        match admitNodes { new d.objectId with version := d.version, properties } registry d with
        | .error e => .error e
        | .ok g => g.admitEdges d

end Graph

end BranchingDialogue
