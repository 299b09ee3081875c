import BranchingDialogue.Proofs.Graph.Tables

/-!
# Connecting two ports

A connection is made in several steps: either port is made sure of and lists the new edge, then the
edge is added. `connectInPlace` takes these steps one after the other in the graph itself, where each may
end the call early and leave behind what came before. None does: both nodes are looked for first, so a
call that ends early has not begun to change anything (`connectInPlace_run`).

What a call that succeeds changes is the new edge and its number at its two ends (`Graph.Gains`). The
ends differ by their directions, so this is so for a node that is connected to itself, too; and an edge
that is there already is not told from others.

Main result: `connect?_local`.
-/

namespace BranchingDialogue.Graph

variable {g g' : Graph} {a b output input : PortRef} {k : Nat}

/-! ## In the graph itself -/

/-- Makes sure of a port and has it list an edge; ends the call if there is no such node. -/
def attachInPlace (p : PortRef) (edge : Nat) : EStateM Unit Graph Unit := do
  match (← get).insertPort? p with
  | none => throw ()
  | some (g, _) => set (g.updatePort p (·.attach edge))

/-- Connects an output to an input step by step; ends the call if a node is missing. -/
def joinInPlace (output input : PortRef) : EStateM Unit Graph Nat := do
  let g ← get
  if (g.node? output.node).isNone || (g.node? input.node).isNone then throw ()
  let edge := g.edges.size
  attachInPlace output edge
  attachInPlace input edge
  modify fun g => { g with edges := g.edges.push ⟨edge, output, input⟩ }
  return edge

/-- Connects two ports step by step. A call that ends early leaves the graph as it is by then. -/
def connectInPlace (a b : PortRef) : EStateM Unit Graph Nat := do
  if a.direction = b.direction then throw ()
  if a.direction = .output then joinInPlace a b else joinInPlace b a

/-- A port that has been made sure of is changed like one that has not. -/
theorem updatePort_insertPort (n : Node) (direction : Direction) (number : Int) (f : Port → Port) :
    (n.updatePort direction number id).updatePort direction number f
      = n.updatePort direction number f := by
  refine Node.ext_ports (by simp only [Node.bare_updatePort]) fun side k => ?_
  simp only [Node.port?_updatePort, portOrNew_insertPort]
  split
  · rfl
  · rfl

theorem updatePort_insertPort? (g : Graph) (p : PortRef) (f : Port → Port) :
    (g.updatePort p id).updatePort p f = g.updatePort p f := by
  have hnodes : ((g.updatePort p id).updatePort p f).nodes = (g.updatePort p f).nodes := by
    refine Array.ext_getElem? fun i => ?_
    show ((g.updatePort p id).updatePort p f).node? i = (g.updatePort p f).node? i
    simp only [node?_updatePort]
    split
    · rw [Option.map_map]
      exact congrFun (congrArg Option.map (funext fun n => updatePort_insertPort n _ _ f)) _
    · rfl
  exact congrArg (fun nodes => { g with nodes }) hnodes

theorem attachInPlace_run {p : PortRef} {n : Node} (hn : g.node? p.node = some n) (edge : Nat) :
    (attachInPlace p edge).run g = .ok () (g.updatePort p (·.attach edge)) := by
  have hport : g.insertPort? p = some (g.updatePort p id, n.portOrNew p.direction p.number) := by
    rw [insertPort?, hn, Option.map_some]
  simp only [attachInPlace, EStateM.run_bind, EStateM.run_get, hport, EStateM.run_set,
    updatePort_insertPort?]

/-- Where both nodes are found, no step ends the call. -/
theorem joinInPlace_run {n m : Node} (hn : g.node? output.node = some n)
    (hm : g.node? input.node = some m) :
    (joinInPlace output input).run g = .ok g.edges.size (g.join output input) := by
  obtain ⟨m', hm', -⟩ :=
    exists_node?_of_bareNodes (bareNodes_updatePort g output (·.attach g.edges.size)) hm
  simp only [joinInPlace, EStateM.run_bind, EStateM.run_get, hn, hm, Option.isNone_some, Bool.or_self,
    Bool.false_eq_true, if_false, EStateM.run_pure, attachInPlace_run hn, attachInPlace_run hm',
    EStateM.run_modify]
  rfl

/-- Where one is not, the first step does. -/
theorem joinInPlace_run_missing (h : g.node? output.node = none ∨ g.node? input.node = none) :
    (joinInPlace output input).run g = .error () g := by
  have hmissing : ((g.node? output.node).isNone || (g.node? input.node).isNone) = true := by
    rcases h with h | h <;> simp [h]
  simp only [joinInPlace, EStateM.run_bind, EStateM.run_get, hmissing, if_true, EStateM.run_throw]

theorem orient?_eq_none_iff : orient? a b = none ↔ a.direction = b.direction := by
  rw [orient?]
  cases a.direction <;> cases b.direction <;> simp

theorem orient?_comm (a b : PortRef) : orient? a b = orient? b a := by
  rw [orient?, orient?]
  cases a.direction <;> cases b.direction <;> rfl

/-- Two ports are connected unless they face the same way or one of their nodes is missing. -/
theorem connect?_eq_none_iff : g.connect? a b = none
    ↔ a.direction = b.direction ∨ g.node? a.node = none ∨ g.node? b.node = none := by
  rw [connect?, ← orient?_eq_none_iff]
  cases horient : orient? a b with
  | none => simp
  | some ends =>
    obtain ⟨output, input⟩ := ends
    obtain ⟨-, -, ⟨rfl, rfl⟩ | ⟨rfl, rfl⟩⟩ := orient?_eq_some_iff.1 horient
    · cases hn : g.node? output.node <;> cases hm : g.node? input.node <;> simp [hn, hm]
    · cases hn : g.node? output.node <;> cases hm : g.node? input.node <;> simp [hn, hm]

/-- Either way round, it is the output that is joined to the input. -/
theorem connectInPlace_of_orient? (h : orient? a b = some (output, input)) :
    (connectInPlace a b).run g = (joinInPlace output input).run g := by
  obtain ⟨ho, hi, ⟨rfl, rfl⟩ | ⟨rfl, rfl⟩⟩ := orient?_eq_some_iff.1 h
  · simp only [connectInPlace, ho, hi, reduceCtorEq, if_true, if_false]
  · simp only [connectInPlace, ho, hi, reduceCtorEq, if_false]

/-- **A call that ends early has changed nothing**, and one that does not has made all of the
connection. -/
theorem connectInPlace_run (g : Graph) (a b : PortRef) :
    (connectInPlace a b).run g
      = match g.connect? a b with
        | some (g', edge) => .ok edge g'
        | none => .error () g := by
  cases h : g.connect? a b with
  | some result =>
    obtain ⟨output, input, horient, ⟨n, hn⟩, ⟨m, hm⟩, hg', hedge⟩ := connect?_eq_some_iff.1 h
    rw [connectInPlace_of_orient? horient, joinInPlace_run hn hm, ← hg', ← hedge]
  | none =>
    cases horient : orient? a b with
    | none =>
      have hfaces := orient?_eq_none_iff.1 horient
      simp only [connectInPlace, hfaces, EStateM.run_bind, if_true, EStateM.run_throw]
    | some ends =>
      obtain ⟨output, input⟩ := ends
      rw [connectInPlace_of_orient? horient]
      apply joinInPlace_run_missing
      have hmissing := (connect?_eq_none_iff.1 h).resolve_left fun hfaces => by
        rw [orient?_eq_none_iff.2 hfaces] at horient
        cases horient
      obtain ⟨-, -, ⟨rfl, rfl⟩ | ⟨rfl, rfl⟩⟩ := orient?_eq_some_iff.1 horient
      · exact hmissing
      · exact hmissing.symm

/-! ## What is gained -/

/-- What a graph gains by an edge: the edge itself, as the last one, the input among what the output leads
to, the output among what feeds the input, and its number at the two ports. All else stays. -/
structure Gains (g : Graph) (output input : PortRef) (g' : Graph) : Prop where
  edges : g'.edges = g.edges.push ⟨g.edges.size, output, input⟩
  targets : ∀ node number, g'.targets node number
    = g.targets node number ++ if output = .output node number then [input] else []
  sources : ∀ node number, g'.sources node number
    = g.sources node number ++ if input = .input node number then [output] else []
  ports : ∀ p, g'.port? p
    = if p = output ∨ p = input then
        (g.node? p.node).map fun n => (n.portOrNew p.direction p.number).attach g.edges.size
      else g.port? p
  /-- Other nodes are as they were. -/
  nodes : ∀ i, i ≠ output.node → i ≠ input.node → g'.node? i = g.node? i
  /-- All nodes are as they were but for their ports. -/
  bare : ∀ i, (g'.node? i).map Node.bare = (g.node? i).map Node.bare
  index : ∀ id, g'.indexOf? id = g.indexOf? id
  entries : g'.entries = g.entries
  properties : g'.properties = g.properties
  version : g'.version = g.version
  objectId : g'.objectId = g.objectId

theorem node?_join_of_ne {i : Nat} (ho : i ≠ output.node) (hi : i ≠ input.node) :
    (g.join output input).node? i = g.node? i := by
  show ((g.updatePort output _).updatePort input _).node? i = _
  rw [node?_updatePort, if_neg hi.symm, node?_updatePort, if_neg ho.symm]

theorem Consistent.gains_join (hc : g.Consistent) {n m : Node} (ho : output.direction = .output)
    (hi : input.direction = .input) (hn : g.node? output.node = some n)
    (hm : g.node? input.node = some m) : g.Gains output input (g.join output input) := by
  have hjoin := hc.join ho hi hn hm
  have hframe := bareNodes_join g output input
  have hne : output ≠ input := fun h => by
    rw [h, hi] at ho
    cases ho
  refine ⟨rfl, fun node number => ?_, fun node number => ?_, port?_join g hne hm,
    fun i => node?_join_of_ne, fun i => ?_, indexOf?_of_bareNodes hframe, rfl, rfl, rfl, rfl⟩
  · rw [hjoin.targets_eq, hc.targets_eq, edges_join, Array.toList_push, List.filter_append,
      List.map_append, List.filter_singleton]
    by_cases h : output = .output node number <;> simp [h]
  · rw [hjoin.sources_eq, hc.sources_eq, edges_join, Array.toList_push, List.filter_append,
      List.map_append, List.filter_singleton]
    by_cases h : input = .input node number <;> simp [h]
  · rw [map_bare_node?, map_bare_node?, hframe]

end BranchingDialogue.Graph
