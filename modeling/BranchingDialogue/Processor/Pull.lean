import BranchingDialogue.Graph.Basic
import BranchingDialogue.Processor.Basic

/-!
# Pulling values

The value of a processor is computed on demand: its inputs first, each from whatever feeds it, from
left to right and without sharing, then the processor itself. A limit bounds how deep processors
may feed one another. Without a limit the number of nodes takes its place: a tree that is deeper
contains itself, and its evaluation would not end.
-/

namespace BranchingDialogue

namespace Graph

/-- Collects results in order, up to the first error. -/
def inOrder {α : Type} (f : Nat → Except ProcessorError α) :
    List Nat → Except ProcessorError (List α)
  | [] => .ok []
  | i :: is =>
    match f i with
    | .error e => .error e
    | .ok x =>
      match inOrder f is with
      | .error e => .error e
      | .ok xs => .ok (x :: xs)

/-- The value of what feeds an input, by a way to evaluate processors. -/
def inputFrom (g : Graph) (evaluate : Nat → Int → Except ProcessorError Value) (consumer : Nat)
    (port : Int) : Except ProcessorError Value :=
  match g.node? consumer with
  | none => .error (.unknownNode consumer)
  | some n =>
    match g.source? consumer port with
    | none => .error (.missingInput n.id port)
    | some source => evaluate source.node source.number

/-- The value of a processor at an output, where `room` more levels are allowed below a limit. -/
def valueWithin (g : Graph) (vars : Variables) (limit : Nat) :
    Nat → Nat → Int → Except ProcessorError Value
  | room, index, port =>
    match g.node? index with
    | none => .error (.unknownNode index)
    | some n =>
      match room with
      | 0 => .error (.depthExceeded n.id limit)
      | room + 1 =>
        if n.kind.isProcessor then
          let input (i : Nat) : Except ProcessorError Value :=
            g.inputFrom (g.valueWithin vars limit room) index i
          match inOrder input (List.range n.layout.inputs) with
          | .error e => .error e
          | .ok inputs => n.process inputs port vars
        else .error (.notAProcessor n.id n.kind)

/-- The limit in force: the given one, or the number of nodes. -/
def pullLimit (g : Graph) (limit : Option Nat) : Nat := limit.getD g.nodes.size

/-- The value of a processor at an output. -/
def getValue (g : Graph) (vars : Variables) (limit : Option Nat) (node : Nat) (port : Int) :
    Except ProcessorError Value :=
  g.valueWithin vars (g.pullLimit limit) (g.pullLimit limit + 1) node port

/-- The value of what feeds an input of a node. -/
def pullInput (g : Graph) (vars : Variables) (limit : Option Nat) (consumer : Nat)
    (port : Int) : Except ProcessorError Value :=
  g.inputFrom (g.valueWithin vars (g.pullLimit limit) (g.pullLimit limit)) consumer port

end Graph

end BranchingDialogue
