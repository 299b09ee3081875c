import BranchingDialogue.Document.Excerpt
import BranchingDialogue.Graph.Basic

/-!
# Errors of documents

Why a text is no document, or a document no graph. Edges are named by their positions in the
document.
-/

namespace BranchingDialogue

/-- A list of a document that runs parallel to its nodes. -/
inductive ParallelList where
  | data
  | positions
  deriving DecidableEq, Repr

/-- The name of a parallel list. -/
def ParallelList.name : ParallelList → String
  | .data => "Data"
  | .positions => "Positions"

/-- A place in a document where an identifier stands. -/
inductive IdPlace where
  | property
  | node
  | output
  | input
  deriving DecidableEq, Repr

/-- The name of a place where an identifier stands. -/
def IdPlace.name : IdPlace → String
  | .property => "Properties.ID"
  | .node => "Nodes.ID"
  | .output => "Edges.OutputPort.NodeID"
  | .input => "Edges.InputPort.NodeID"

/-- Why a text gives no graph. -/
inductive DocumentError where
  /-- The text is not the JSON of a document. -/
  | malformed (message : String) (excerpt : Excerpt)
  /-- The text is too long. -/
  | tooLarge (size limit : Nat)
  /-- The document's version is not known. -/
  | unsupportedVersion (found : Int)
  /-- A list does not have one entry a node. -/
  | parallelMismatch (list : ParallelList) (expected found : Nat)
  /-- A text is no identifier. -/
  | invalidId (value : String) (place : IdPlace)
  /-- A binder stands for no kind. -/
  | unknownBinder (node : NodeId) (binder : String)
  /-- Two nodes have the same identifier. -/
  | duplicateNode (node : NodeId)
  /-- Two entries have the same name. -/
  | duplicateEntry (name : String)
  /-- An entry has no name. -/
  | missingEntryName (node : NodeId)
  /-- An edge ends at no node. -/
  | danglingNode (edge : Nat) (node : NodeId)
  /-- An edge ends at a port that its node does not declare. -/
  | portOutOfRange (edge : Nat) (node : NodeId) (port : Int) (direction : Direction)
    (declared : Nat)
  /-- An edge is the second one at a port that takes one. -/
  | portCapacity (edge : Nat) (node : NodeId) (port : Int) (direction : Direction)
  /-- A data socket is fed by a node that computes nothing. -/
  | dataSource (edge : Nat) (node : NodeId) (kind : NodeKind) (target : NodeId) (port : Int)
  /-- A payload is neither an object nor null. -/
  | payloadNotObject (node : NodeId)
  /-- A payload holds what is no value. -/
  | invalidPayload (node : NodeId) (key : String) (shape : ShapeError)
  /-- A variable's first value is no value. -/
  | invalidProperty (name : String) (shape : ShapeError)
  deriving DecidableEq, Repr

namespace DocumentError

/-- The code of an error in diagnostics. -/
def code : DocumentError → String
  | .malformed _ _ => "ds::deser::json"
  | .tooLarge _ _ => "ds::deser::too_large"
  | .unsupportedVersion _ => "ds::deser::version"
  | .parallelMismatch _ _ _ => "ds::deser::parallel_array"
  | .invalidId _ _ => "ds::deser::guid"
  | .unknownBinder _ _ => "ds::deser::binder"
  | .duplicateNode _ => "ds::deser::duplicate_node"
  | .duplicateEntry _ => "ds::deser::duplicate_entry"
  | .missingEntryName _ => "ds::deser::entry_name"
  | .danglingNode _ _ => "ds::deser::dangling"
  | .portOutOfRange _ _ _ _ _ => "ds::deser::port_range"
  | .portCapacity _ _ _ _ => "ds::deser::port_capacity"
  | .dataSource _ _ _ _ _ => "ds::deser::data_source"
  | .payloadNotObject _ => "ds::deser::payload"
  | .invalidPayload _ _ _ => "ds::deser::payload_value"
  | .invalidProperty _ _ => "ds::deser::property"

/-- The message of an error. -/
def message : DocumentError → String
  | .malformed message _ => "invalid graph document: " ++ message
  | .tooLarge size limit =>
    "document is " ++ toString size ++ " bytes, limit is " ++ toString limit
  | .unsupportedVersion found =>
    "document version " ++ toString found ++ " is newer than supported version "
      ++ toString formatVersion
  | .parallelMismatch list expected found =>
    "`" ++ list.name ++ "` has " ++ toString found ++ " entries but `Nodes` has "
      ++ toString expected
  | .invalidId value place => "malformed id `" ++ value ++ "` in " ++ place.name
  | .unknownBinder node binder =>
    "node " ++ node.simple ++ " has unknown binder `" ++ binder ++ "`"
  | .duplicateNode node => "node id " ++ node.simple ++ " appears more than once"
  | .duplicateEntry name => "entry name `" ++ name ++ "` is used by more than one input node"
  | .missingEntryName node => "input node " ++ node.simple ++ " has no `inputName`"
  | .danglingNode edge node =>
    "edge " ++ toString edge ++ " references node " ++ node.simple
      ++ ", which is not in the document"
  | .portOutOfRange edge node port direction declared =>
    "edge " ++ toString edge ++ " uses " ++ direction.name ++ " port " ++ toString port
      ++ " of node " ++ node.simple ++ ", which declares " ++ toString declared
  | .portCapacity edge node port direction =>
    "edge " ++ toString edge ++ " connects a second edge to single " ++ direction.name ++ " port "
      ++ toString port ++ " of node " ++ node.simple
  | .dataSource edge node kind target port =>
    "edge " ++ toString edge ++ " feeds data socket " ++ toString port ++ " of node "
      ++ target.simple ++ " from " ++ kind.name ++ " node " ++ node.simple
  | .payloadNotObject node => "payload of node " ++ node.simple ++ " is not an object"
  | .invalidPayload node key shape =>
    "payload key `" ++ key ++ "` of node " ++ node.simple ++ ": " ++ shape.message
  | .invalidProperty name shape => "property `" ++ name ++ "`: " ++ shape.message

/-- Advice on an error, if there is any. -/
def help? : DocumentError → Option String
  | .tooLarge _ _ => some "Raise `limits.max_document_bytes` in the runtime config"
  | .invalidId _ _ => some "Node ids are 32 hex digits without dashes"
  | .dataSource _ _ _ _ _ => some "Data sockets take values from processor nodes only"
  | .invalidPayload _ _ _ =>
    some "Payload values are booleans, numbers, strings or arrays of those"
  | _ => none

end DocumentError

end BranchingDialogue
