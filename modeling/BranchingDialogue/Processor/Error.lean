import BranchingDialogue.NodeKind
import BranchingDialogue.Uuid

/-!
# Errors of processors

Why a value cannot be computed.
-/

namespace BranchingDialogue

/-- Why a value cannot be computed. -/
inductive ProcessorError where
  /-- A payload names no comparison. -/
  | unsupportedComparison (value : String)
  /-- An input is no number. -/
  | notNumeric (node : NodeId) (found : String)
  /-- An input is no truth value. -/
  | notBoolean (node : NodeId) (found : String)
  /-- Nothing is connected to an input. -/
  | missingInput (node : NodeId) (port : Int)
  /-- The payload lacks a value. -/
  | missingPayload (node : NodeId) (key : String)
  /-- A variable has no value. -/
  | unknownProperty (node : NodeId) (name : String)
  /-- A node of the flow computes nothing. -/
  | notAProcessor (node : NodeId) (kind : NodeKind)
  /-- A processor has one output only. -/
  | noSuchOutput (node : NodeId) (port : Int)
  /-- There is no such node. -/
  | unknownNode (index : Nat)
  /-- Processors feed processors deeper than allowed. -/
  | depthExceeded (node : NodeId) (limit : Nat)
  deriving DecidableEq, Repr

namespace ProcessorError

/-- The code of an error in diagnostics. -/
def code : ProcessorError → String
  | .unsupportedComparison _ => "ds::processor::comparison"
  | .notNumeric _ _ => "ds::processor::not_numeric"
  | .notBoolean _ _ => "ds::processor::not_boolean"
  | .missingInput _ _ => "ds::processor::missing_input"
  | .missingPayload _ _ => "ds::processor::missing_payload"
  | .unknownProperty _ _ => "ds::processor::unknown_property"
  | .notAProcessor _ _ => "ds::processor::not_a_processor"
  | .noSuchOutput _ _ => "ds::processor::output"
  | .unknownNode _ => "ds::processor::unknown_node"
  | .depthExceeded _ _ => "ds::processor::depth"

/-- The message of an error. -/
def message : ProcessorError → String
  | .unsupportedComparison value => "unsupported comparison `" ++ value ++ "`"
  | .notNumeric node found =>
    "processor " ++ node.simple ++ " expected a number, found " ++ found
  | .notBoolean node found =>
    "processor " ++ node.simple ++ " expected a boolean, found " ++ found
  | .missingInput node port =>
    "input " ++ toString port ++ " of node " ++ node.simple ++ " is not connected"
  | .missingPayload node key =>
    "processor " ++ node.simple ++ " has no `" ++ key ++ "` in its payload"
  | .unknownProperty node name =>
    "processor " ++ node.simple ++ " reads unknown property `" ++ name ++ "`"
  | .notAProcessor node kind =>
    "node " ++ node.simple ++ " is a " ++ kind.name ++ " node, not a processor"
  | .noSuchOutput node port =>
    "processor " ++ node.simple ++ " has no output port " ++ toString port
  | .unknownNode index => "node index " ++ toString index ++ " is not part of the graph"
  | .depthExceeded node limit =>
    "processor pull exceeded depth " ++ toString limit ++ " at node " ++ node.simple

/-- Advice on an error, if there is any. -/
def help? : ProcessorError → Option String
  | .unsupportedComparison _ =>
    some "Use 0..=5 or one of Equal, NotEqual, Less, LessOrEqual, Greater, GreaterOrEqual"
  | .depthExceeded _ _ => some "Processor trees must not contain cycles"
  | _ => none

end ProcessorError

end BranchingDialogue
