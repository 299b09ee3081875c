import BranchingDialogue.Curve.Basic
import BranchingDialogue.Markup.Error
import BranchingDialogue.Processor.Error

/-!
# Errors of walks

Why a walk cannot go on. Some of these errors have a cause of their own, which is told apart.
-/

namespace BranchingDialogue

/-- What lies behind an error of a walk. -/
inductive WalkCause (α : Type) where
  | markup (e : MarkupError)
  | processor (e : ProcessorError)
  | curve (e : CurveError α)
  deriving DecidableEq, Repr

/-- Why a walk cannot go on. -/
inductive WalkError (α : Type) where
  /-- There is no such entry. -/
  | missingEntry (name : String)
  /-- There is no such option. -/
  | invalidOption (node : NodeId) (option available : Nat)
  /-- A suspension belongs to another graph. -/
  | staleSuspension (node : NodeId)
  /-- A payload lacks a value. -/
  | missingField (node : NodeId) (key : String)
  /-- A payload's value does not make sense. -/
  | invalidField (node : NodeId) (key reason : String)
  /-- A text is too long. -/
  | textTooLong (node : NodeId) (length limit : Nat)
  /-- A data input is no truth value. -/
  | notBoolean (node : NodeId) (found : String)
  /-- A data input is no number. -/
  | notNumeric (node : NodeId) (found : String)
  /-- Too many nodes were visited without a choice. -/
  | depthExceeded (node : NodeId) (limit : Nat)
  /-- The flow has come to a processor. -/
  | notInterpretable (node : NodeId) (kind : NodeKind)
  /-- There is no such node. -/
  | unknownNode (index : Nat)
  /-- A text has malformed tags. -/
  | markup (node : NodeId) (cause : MarkupError)
  /-- A data input cannot be computed. -/
  | processor (node : NodeId) (cause : ProcessorError)
  /-- A line cannot be revealed. -/
  | curve (node : NodeId) (cause : CurveError α)
  deriving DecidableEq, Repr

namespace WalkError

variable {α : Type}

/-- The code of an error in diagnostics. -/
def code : WalkError α → String
  | .missingEntry _ => "ds::walk::entry"
  | .invalidOption _ _ _ => "ds::walk::option"
  | .staleSuspension _ => "ds::walk::stale"
  | .missingField _ _ => "ds::walk::missing_field"
  | .invalidField _ _ _ => "ds::walk::invalid_field"
  | .textTooLong _ _ _ => "ds::walk::text_length"
  | .notBoolean _ _ => "ds::walk::not_boolean"
  | .notNumeric _ _ => "ds::walk::not_numeric"
  | .depthExceeded _ _ => "ds::walk::depth"
  | .notInterpretable _ _ => "ds::walk::not_interpretable"
  | .unknownNode _ => "ds::walk::unknown_node"
  | .markup _ _ => "ds::walk::tag"
  | .processor _ _ => "ds::walk::processor"
  | .curve _ _ => "ds::walk::curve"

/-- The message of an error. -/
def message : WalkError α → String
  | .missingEntry name => "no entry node named `" ++ name ++ "`"
  | .invalidOption node option available =>
    "node " ++ node.simple ++ " offers " ++ toString available ++ " options, option "
      ++ toString option ++ " was chosen"
  | .staleSuspension node =>
    "suspension at node " ++ node.simple ++ " does not belong to this graph"
  | .missingField node key => "node " ++ node.simple ++ " requires payload key `" ++ key ++ "`"
  | .invalidField node key reason =>
    "payload key `" ++ key ++ "` of node " ++ node.simple ++ ": " ++ reason
  | .textTooLong node length limit =>
    "text of node " ++ node.simple ++ " is " ++ toString length ++ " bytes, limit is "
      ++ toString limit
  | .notBoolean node found =>
    "node " ++ node.simple ++ " expected a boolean input, found " ++ found
  | .notNumeric node found =>
    "node " ++ node.simple ++ " expected a numeric input, found " ++ found
  | .depthExceeded node limit =>
    "walk visited more than " ++ toString limit ++ " nodes without suspending, last at "
      ++ node.simple
  | .notInterpretable node kind =>
    "node " ++ node.simple ++ " of kind " ++ kind.name ++ " cannot take part in the flow"
  | .unknownNode index => "node index " ++ toString index ++ " is not part of the graph"
  | .markup node _ => "text of node " ++ node.simple ++ " has malformed tags"
  | .processor node _ => "data input of node " ++ node.simple ++ " failed to evaluate"
  | .curve node _ => "reveal curve of node " ++ node.simple ++ " is invalid"

/-- Advice on an error, if there is any. -/
def help? : WalkError α → Option String
  | .textTooLong _ _ _ => some "Raise `limits.max_text_length` in the runtime config"
  | .depthExceeded _ _ =>
    some "Check the graph for a loop with no choice in it, or raise `max_walk_depth`"
  | _ => none

/-- What lies behind an error, if anything does. -/
def cause? : WalkError α → Option (WalkCause α)
  | .markup _ e => some (.markup e)
  | .processor _ e => some (.processor e)
  | .curve _ e => some (.curve e)
  | _ => none

end WalkError

namespace WalkCause

/-- The code of a cause in diagnostics. -/
def code {α : Type} : WalkCause α → String
  | .markup e => e.code
  | .processor e => e.code
  | .curve e => e.code

/-- The message of a cause. -/
def message : WalkCause Float32 → String
  | .markup e => e.message
  | .processor e => e.message
  | .curve e => e.message

/-- Advice on a cause, if there is any. -/
def help? {α : Type} : WalkCause α → Option String
  | .markup e => e.help?
  | .processor e => e.help?
  | .curve e => e.help?

end WalkCause

end BranchingDialogue
