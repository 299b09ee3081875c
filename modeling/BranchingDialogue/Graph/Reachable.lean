import BranchingDialogue.Graph.Basic

/-!
# Reachability

A walk can touch what lies ahead of an entry, and the processors that feed those nodes. Both
parts are closures under a step along edges; the first one is complete before the second one
begins, so what lies ahead of a processor alone does not count.
-/

namespace BranchingDialogue

namespace Graph

/-- A step from a node to others, for every edge that `next` takes from it. -/
def neighbours (g : Graph) (next : Edge → Option (Nat × Nat)) (i : Nat) : List Nat :=
  g.edges.toList.filterMap fun e => (next e).bind fun (source, target) =>
    if source = i then some target else none

/-- Adds what can be reached by steps from the waiting nodes to the nodes already seen. Every round
takes one waiting node away, and only nodes not seen before start to wait, so as many rounds as
nodes can be seen suffice. -/
def spread (step : Nat → List Nat) : Nat → List Nat → List Nat → List Nat
  | 0, seen, _ => seen
  | _ + 1, seen, [] => seen
  | fuel + 1, seen, i :: waiting =>
    let fresh := (step i).eraseDups.filter fun j => !seen.contains j
    spread step fuel (seen ++ fresh) (waiting ++ fresh)

/-- An edge followed forward. -/
def forward (e : Edge) : Option (Nat × Nat) := some (e.output.node, e.input.node)

/-- An edge followed backward, into a processor. -/
def backward (g : Graph) (e : Edge) : Option (Nat × Nat) :=
  match g.node? e.output.node with
  | some n => if n.kind.isProcessor then some (e.input.node, e.output.node) else none
  | none => none

/-- A number of rounds that suffices for any spread through the graph: each node that waits is an
entry's or an end of an edge. -/
def spreadFuel (g : Graph) : Nat := g.entries.size + 2 * g.edges.size + 1

/-- The nodes that a walk can touch, in ascending order. -/
def reachable (g : Graph) : List Nat :=
  let start := g.entries.values.eraseDups
  let flow := spread (g.neighbours forward) g.spreadFuel start start
  (spread (g.neighbours g.backward) g.spreadFuel flow flow).mergeSort

/-- The nodes that no walk can touch. -/
def unreachable (g : Graph) : List Nat :=
  let reached := g.reachable
  (List.range g.nodes.size).filter fun i => !reached.contains i

/-- Counts that describe a graph. -/
structure Stats where
  totalNodes : Nat
  reachableNodes : Nat
  unreachableNodes : Nat
  entryCount : Nat
  dialogueCount : Nat
  branchCount : Nat
  processorCount : Nat
  edgeCount : Nat
  deriving DecidableEq, Repr

/-- How many nodes are of a kind. -/
def countKind (g : Graph) (p : NodeKind → Bool) : Nat := g.nodes.toList.countP fun n => p n.kind

/-- The counts of a graph. Choices, actions and conditions are branches. Counts are words of 64 bits,
in which the difference is taken: an entry may name a node that the graph does not have. -/
def stats (g : Graph) : Stats :=
  let reached := g.reachable.length
  { totalNodes := g.nodes.size
    reachableNodes := reached
    unreachableNodes := (g.nodes.size.toUInt64 - reached.toUInt64).toNat
    entryCount := g.entries.size
    dialogueCount := g.countKind (· == .dialogue)
    branchCount := g.countKind fun k => k.isBranching || k == .condition
    processorCount := g.countKind NodeKind.isProcessor
    edgeCount := g.edges.size }

/-- The counts in a report. -/
def Stats.report (s : Stats) : Report :=
  .record
    [("total_nodes", .nat s.totalNodes), ("reachable_nodes", .nat s.reachableNodes),
      ("unreachable_nodes", .nat s.unreachableNodes), ("entry_count", .nat s.entryCount),
      ("dialogue_count", .nat s.dialogueCount), ("branch_count", .nat s.branchCount),
      ("processor_count", .nat s.processorCount), ("edge_count", .nat s.edgeCount)]

end Graph

end BranchingDialogue
