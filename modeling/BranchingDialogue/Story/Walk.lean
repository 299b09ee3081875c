import BranchingDialogue.Story.Passage
import BranchingDialogue.Story.Suspension

/-!
# Walks

A walk goes from node to node until the flow ends or a choice has to be made; it is resumed with the
option that was picked. A limit bounds the number of nodes in one stretch. Without a limit a bound
takes its place that no stretch reaches which ends: by then a node has been visited twice with the
same variables.
-/

namespace BranchingDialogue

/-- How a stretch of a walk ends. -/
inductive Outcome (α : Type) where
  | finished
  | suspended (s : Suspension α)
  deriving DecidableEq

/-- A stretch of a walk, or several in a row. -/
structure Walk (α : Type) where
  clips : List (Clip α)
  outcome : Outcome α
  /-- The variables at the end. -/
  «variables» : Variables
  deriving DecidableEq

namespace Walk

variable {α : Type}

/-- The suspension at the end of a walk, if it is not finished. -/
def suspension? (w : Walk α) : Option (Suspension α) :=
  match w.outcome with
  | .suspended s => some s
  | .finished => none

/-- Whether the flow has ended. -/
def isFinished (w : Walk α) : Bool := w.suspension?.isNone

/-- Two stretches in a row. -/
def append (first second : Walk α) : Walk α := { second with clips := first.clips ++ second.clips }

end Walk

/-- A graph to be walked, and the variables with which a walk starts. -/
structure Walker (α : Type) where
  runtime : Runtime α
  graph : Graph
  «variables» : Variables

namespace Walker

variable {α : Type}

/-- A walker whose variables are those the graph declares. -/
def new (runtime : Runtime α) (graph : Graph) : Walker α :=
  ⟨runtime, graph, .ofList (graph.properties.map fun p => (p.name, p.value))⟩

/-- Sets a variable. -/
def withVariable (w : Walker α) (name : String) (value : Value) : Walker α :=
  { w with «variables» := w.variables.insert name value }

/-- The number of nodes after which a stretch has come to a node with the same variables again. A
variable is absent, or it has its first value, a truth value or the value of a node. -/
def stretchBound (g : Graph) (vars : Variables) : Nat :=
  let names := vars.size + g.nodes.size
  g.nodes.size * Nat.pow (names + 3) names

/-- The limit in force on a stretch. -/
def stretchLimit (w : Walker α) (vars : Variables) : Nat :=
  w.runtime.settings.walkDepth.getD (stretchBound w.graph vars)

variable [Scalar α]

/-- Walks on from a node, where `room` more nodes are allowed below a limit. -/
def stretch (w : Walker α) (limit : Nat) :
    Nat → Nat → Situation α → Array (Clip α) → Except (WalkError α) (Walk α)
  | room, index, situation, clips =>
    match w.graph.node? index with
    | none => .error (.unknownNode index)
    | some n =>
      match room with
      | 0 => .error (.depthExceeded n.id limit)
      | room + 1 =>
        match n.pass w.runtime w.graph index situation with
        | .error e => .error e
        | .ok p =>
          let clips := match p.clip with | some c => clips.push c | none => clips
          match p.onward with
          | .along output =>
            match w.graph.follow? index output with
            | some next => w.stretch limit room next p.situation clips
            | none => .ok ⟨clips.toList, .finished, p.situation.variables⟩
          | .choose [] => .ok ⟨clips.toList, .finished, p.situation.variables⟩
          | .choose options =>
            let s : Suspension α :=
              ⟨index, n.id, n.kind, options, p.situation.moment, p.situation.variables⟩
            .ok ⟨clips.toList, .suspended s, p.situation.variables⟩

/-- Walks from a node. -/
def walkFrom (w : Walker α) (index : Nat) (situation : Situation α) : Except (WalkError α) (Walk α) :=
  let limit := w.stretchLimit situation.variables
  w.stretch limit limit index situation #[]

/-- Walks from an entry. -/
def start (w : Walker α) (entry : String) : Except (WalkError α) (Walk α) :=
  match w.graph.entry? entry with
  | none => .error (.missingEntry entry)
  | some index => w.walkFrom index ⟨.origin, w.variables⟩

/-- Walks on after an option has been picked. An option that leads nowhere ends the walk. -/
def resume (w : Walker α) (s : Suspension α) (option : Nat) : Except (WalkError α) (Walk α) :=
  if (w.graph.node? s.node).map (·.id) ≠ some s.nodeId then .error (.staleSuspension s.nodeId)
  else if s.options.length ≤ option then
    .error (.invalidOption s.nodeId option s.options.length)
  else
    match w.graph.follow? s.node option with
    | some next => w.walkFrom next ⟨s.moment, s.variables⟩
    | none => .ok ⟨[], .finished, s.variables⟩

/-- Goes on with a walk, one option a suspension, until it is finished or no options are left. -/
def answer (w : Walker α) (walk : Walk α) : List Nat → Except (WalkError α) (Walk α)
  | [] => .ok walk
  | option :: options =>
    match walk.suspension? with
    | none => .ok walk
    | some s =>
      match w.resume s option with
      | .error e => .error e
      | .ok next => w.answer (walk.append next) options

/-- Walks from an entry and answers suspensions in order. -/
def run (w : Walker α) (entry : String) (options : List Nat) : Except (WalkError α) (Walk α) :=
  match w.start entry with
  | .error e => .error e
  | .ok walk => w.answer walk options

end Walker

end BranchingDialogue
