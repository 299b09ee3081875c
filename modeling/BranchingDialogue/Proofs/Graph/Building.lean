import BranchingDialogue.Proofs.Document.Nodes
import BranchingDialogue.Proofs.Graph.Adjacency

/-!
# Graphs that are built call by call

`BuildCall` lists the calls by which a graph comes about, and `Graph.build` makes a list of them on
a graph without nodes. A refused call changes nothing. `Graph.Changes` lists what a call may do, and
all of it keeps the ports in agreement with the edges (`Changes.consistent`) and identifiers distinct
(`Changes.distinctIds`). By induction on the calls both hold of every graph that is built
(`consistent_build`, `distinctIds_build`), whatever is called in whatever order.
-/

namespace BranchingDialogue

/-- A node as it is before a graph has it: it may have ports, but no edge is connected to them. -/
def Node.Unconnected (n : Node) : Prop :=
  ∀ direction number port, n.port? direction number = some port →
    port = .new direction number (n.kind.capacity direction number)

namespace Node

theorem unconnected_new (id : NodeId) (kind : NodeKind) (payload : Payload) :
    (Node.new id kind payload).Unconnected := by
  intro direction number port h
  cases direction <;> cases h

/-- A port as it is or as it would come into being has no edges, if the node is unconnected. -/
theorem Unconnected.portOrNew_eq {n : Node} (h : n.Unconnected) (direction : Direction)
    (number : Int) :
    n.portOrNew direction number = .new direction number (n.kind.capacity direction number) := by
  rw [portOrNew]
  cases hport : n.port? direction number with
  | none => rfl
  | some port => exact h direction number port hport

theorem kind_updatePort (n : Node) (direction : Direction) (number : Int) (f : Port → Port) :
    (n.updatePort direction number f).kind = n.kind :=
  kind_of_bare (bare_updatePort n direction number f)

end Node

/-- A call that adds to a graph. Only graphs connect ports, so the nodes that are added are
unconnected; all else may be anything. -/
inductive BuildCall where
  | addNode (n : Node) (unconnected : n.Unconnected)
  | insertPort (p : PortRef)
  | connect (a b : PortRef)
  | registerEntry (name : String) (i : Nat)
  | addProperty (p : Property)

namespace Graph

/-- The graph after a call. A refused call leaves it as it is. -/
def after (g : Graph) : BuildCall → Graph
  | .addNode n _ => ((g.addNode? n).map (·.1)).getD g
  | .insertPort p => ((g.insertPort? p).map (·.1)).getD g
  | .connect a b => ((g.connect? a b).map (·.1)).getD g
  | .registerEntry name i => g.registerEntry name i
  | .addProperty p => g.addProperty p

/-- The graph after calls, from one without nodes on. -/
def build (objectId : String) (calls : List BuildCall) : Graph := calls.foldl after (.new objectId)

theorem build_concat (objectId : String) (calls : List BuildCall) (call : BuildCall) :
    build objectId (calls ++ [call]) = (build objectId calls).after call := by
  rw [build, List.foldl_append]
  rfl

/-! ## What a call does -/

/-- The graph with one more node. -/
def withNode (g : Graph) (n : Node) : Graph := { g with nodes := g.nodes.push n }

theorem node?_withNode (g : Graph) (n : Node) (i : Nat) :
    (g.withNode n).node? i = if i = g.nodes.size then some n else g.node? i :=
  Array.getElem?_push

/-- Two ports are turned round so that the first one is the output, if one of them is and the other is
not. -/
theorem orient?_eq_some_iff {a b output input : PortRef} :
    orient? a b = some (output, input)
      ↔ output.direction = .output ∧ input.direction = .input
        ∧ (output = a ∧ input = b ∨ output = b ∧ input = a) := by
  constructor
  · intro h
    rw [orient?] at h
    split at h
    · next ha hb =>
      cases h
      exact ⟨ha, hb, .inl ⟨rfl, rfl⟩⟩
    · next ha hb =>
      cases h
      exact ⟨hb, ha, .inr ⟨rfl, rfl⟩⟩
    · cases h
  · rintro ⟨ho, hi, ⟨rfl, rfl⟩ | ⟨rfl, rfl⟩⟩
    · rw [orient?, ho, hi]
    · rw [orient?, ho, hi]

/-- Ports are connected by being joined, an output to an input, both of existing nodes. -/
theorem connect?_eq_some_iff {g g' : Graph} {a b : PortRef} {id : Nat} :
    g.connect? a b = some (g', id)
      ↔ ∃ output input, orient? a b = some (output, input)
        ∧ (∃ n, g.node? output.node = some n) ∧ (∃ m, g.node? input.node = some m)
        ∧ g' = g.join output input ∧ id = g.edges.size := by
  constructor
  · intro h
    rw [connect?] at h
    split at h
    · cases h
    · next output input horient =>
      split at h
      · cases h
      · next hnodes =>
        rw [Bool.or_eq_true, not_or, Bool.not_eq_true, Bool.not_eq_true,
          Option.isNone_eq_false_iff, Option.isNone_eq_false_iff, Option.isSome_iff_exists,
          Option.isSome_iff_exists] at hnodes
        cases h
        exact ⟨output, input, horient, hnodes.1, hnodes.2, rfl, rfl⟩
  · rintro ⟨output, input, horient, ⟨n, hn⟩, ⟨m, hm⟩, rfl, rfl⟩
    simp only [connect?, horient, hn, hm, Option.isNone_some, Bool.or_self, Bool.false_eq_true,
      if_false]
    rfl

/-- **What a call may do to a graph**: it is refused, or it adds a node under a new identifier, makes
sure of a port of an existing node, joins two ports, or changes neither nodes nor edges. -/
inductive Changes (g : Graph) : BuildCall → Graph → Prop
  | refused (call : BuildCall) : Changes g call g
  | node {n : Node} (unconnected : n.Unconnected) (fresh : g.indexOf? n.id = none) :
      Changes g (.addNode n unconnected) (g.withNode n)
  | port {p : PortRef} {n : Node} (exist : g.node? p.node = some n) :
      Changes g (.insertPort p) (g.updatePort p id)
  | edge {a b output input : PortRef} {n m : Node} (leaves : output.direction = .output)
      (enters : input.direction = .input) (source : g.node? output.node = some n)
      (target : g.node? input.node = some m) : Changes g (.connect a b) (g.join output input)
  | rest {call : BuildCall} {g' : Graph} (nodes : g'.nodes = g.nodes) (edges : g'.edges = g.edges) :
      Changes g call g'

theorem changes_after (g : Graph) (call : BuildCall) : g.Changes call (g.after call) := by
  cases call with
  | addNode n unconnected =>
    rw [after, addNode?]
    cases hindex : g.indexOf? n.id with
    | some i => exact .refused _
    | none => exact .node unconnected hindex
  | insertPort p =>
    rw [after, insertPort?]
    cases hn : g.node? p.node with
    | none => exact .refused _
    | some n => exact .port hn
  | connect a b =>
    rw [after]
    cases h : g.connect? a b with
    | none => exact .refused _
    | some result =>
      obtain ⟨output, input, horient, ⟨n, hn⟩, ⟨m, hm⟩, heq, -⟩ := connect?_eq_some_iff.1 h
      obtain ⟨ho, hi, -⟩ := orient?_eq_some_iff.1 horient
      rw [Option.map_some, Option.getD_some, heq]
      exact .edge ho hi hn hm
  | registerEntry name i => exact .rest rfl rfl
  | addProperty p => exact .rest rfl rfl

/-! ## What every call keeps -/

/-- Whether the ports agree with the edges depends on nodes and edges alone. -/
theorem Consistent.of_eq {g g' : Graph} (hc : g.Consistent) (hnodes : g'.nodes = g.nodes)
    (hedges : g'.edges = g.edges) : g'.Consistent := by
  have hnode : ∀ i, g'.node? i = g.node? i := fun i => by rw [node?, node?, hnodes]
  have hat : ∀ p, g'.edgesAt p = g.edgesAt p := fun p => by rw [edgesAt, edgesAt, hedges]
  refine ⟨?_, ?_, ?_, ?_⟩
  · rw [hedges]
    exact hc.ids
  · simp only [hedges, hnode]
    exact hc.outputs
  · simp only [hedges, hnode]
    exact hc.inputs
  · intro p n hn
    rw [hnode] at hn
    rw [hat]
    exact hc.ports p n hn

/-- Edges end at nodes that exist, so none ends at a node that is still to come. -/
theorem Consistent.edgesAt_eq_nil {g : Graph} (hc : g.Consistent) {p : PortRef}
    (hp : g.node? p.node = none) : g.edgesAt p = [] := by
  rw [edgesAt, List.map_eq_nil_iff, List.filter_eq_nil_iff]
  intro e he hend
  have he : e ∈ g.edges := Array.mem_toList_iff.1 he
  have hend : e.endpoint p.direction = p := of_decide_eq_true hend
  have hexists : ∃ n, g.node? (e.endpoint p.direction).node = some n := by
    cases p.direction with
    | input => exact (hc.inputs e he).2
    | output => exact (hc.outputs e he).2
  obtain ⟨n, hn⟩ := hexists
  rw [hend, hp] at hn
  cases hn

theorem Consistent.withNode {g : Graph} (hc : g.Consistent) {n : Node} (hn : n.Unconnected) :
    (g.withNode n).Consistent := by
  have hlast : g.node? g.nodes.size = none := Array.getElem?_size
  have hexists : ∀ i, (∃ m, g.node? i = some m) → ∃ m, (g.withNode n).node? i = some m := by
    rintro i ⟨m, hm⟩
    refine ⟨m, ?_⟩
    rw [node?_withNode, if_neg, hm]
    rintro rfl
    rw [hlast] at hm
    cases hm
  refine ⟨hc.ids, fun e he => ?_, fun e he => ?_, fun p m hm => ?_⟩
  · exact ⟨(hc.outputs e he).1, hexists _ (hc.outputs e he).2⟩
  · exact ⟨(hc.inputs e he).1, hexists _ (hc.inputs e he).2⟩
  · show m.portOrNew p.direction p.number = ⟨_, _, _, g.edgesAt p⟩
    rw [node?_withNode] at hm
    split at hm
    · next hnew =>
      cases hm
      -- No edge could end at the new node before it was there.
      rw [hc.edgesAt_eq_nil (by rw [hnew, hlast])]
      exact hn.portOrNew_eq _ _
    · exact hc.ports p m hm

/-- A port that comes into being without edges is as it would have been. -/
theorem portOrNew_insertPort (n : Node) (direction side : Direction) (number k : Int) :
    (n.updatePort direction number id).portOrNew side k = n.portOrNew side k := by
  rw [Node.portOrNew, Node.port?_updatePort, Node.kind_updatePort]
  split
  · next heq =>
    rw [← heq.1, ← heq.2]
    rfl
  · rfl

/-- Asking for a port does not connect it. -/
theorem unconnected_insertPort {n : Node} (h : n.Unconnected) (direction : Direction)
    (number : Int) : (n.updatePort direction number id).Unconnected := by
  intro side k port hport
  rw [Node.port?_updatePort] at hport
  rw [Node.kind_updatePort]
  split at hport
  · next heq =>
    cases hport
    rw [← heq.1, ← heq.2]
    exact h.portOrNew_eq direction number
  · exact h side k port hport

theorem Consistent.insertPort {g : Graph} (hc : g.Consistent) (p : PortRef) :
    (g.updatePort p id).Consistent := by
  have hexists : ∀ i, (∃ n, g.node? i = some n) → ∃ n, (g.updatePort p id).node? i = some n := by
    rintro i ⟨n, hn⟩
    obtain ⟨n', hn', -⟩ := exists_node?_of_bareNodes (bareNodes_updatePort g p id) hn
    exact ⟨n', hn'⟩
  refine ⟨hc.ids, fun e he => ?_, fun e he => ?_, fun q n hn => ?_⟩
  · exact ⟨(hc.outputs e he).1, hexists _ (hc.outputs e he).2⟩
  · exact ⟨(hc.inputs e he).1, hexists _ (hc.inputs e he).2⟩
  · show n.portOrNew q.direction q.number = ⟨_, _, _, g.edgesAt q⟩
    rw [node?_updatePort] at hn
    split at hn
    · obtain ⟨m, hm, rfl⟩ := Option.map_eq_some_iff.1 hn
      rw [portOrNew_insertPort, Node.kind_updatePort]
      exact hc.ports q m hm
    · exact hc.ports q n hn

/-- **Every call keeps the ports in agreement with the edges.** -/
theorem Changes.consistent {g g' : Graph} {call : BuildCall} (h : g.Changes call g')
    (hc : g.Consistent) : g'.Consistent := by
  cases h with
  | refused => exact hc
  | node unconnected fresh => exact hc.withNode unconnected
  | port exist => exact hc.insertPort _
  | edge leaves enters source target => exact hc.join leaves enters source target
  | rest nodes edges => exact hc.of_eq nodes edges

theorem DistinctIds.of_bareNodes {g g' : Graph} (hd : g.DistinctIds)
    (h : g'.bareNodes = g.bareNodes) : g'.DistinctIds := by
  intro i j n m hn hm hid
  obtain ⟨n₀, hn₀, hbare⟩ := exists_node?_of_bareNodes h.symm hn
  obtain ⟨m₀, hm₀, hbare'⟩ := exists_node?_of_bareNodes h.symm hm
  have hsame : n₀.bare.id = m₀.bare.id := by
    rw [hbare, hbare']
    exact hid
  exact hd i j n₀ m₀ hn₀ hm₀ hsame

theorem DistinctIds.withNode {g : Graph} (hd : g.DistinctIds) {n : Node}
    (hfresh : g.indexOf? n.id = none) : (g.withNode n).DistinctIds := by
  have hother : ∀ {i m}, g.node? i = some m → m.id ≠ n.id := fun hm =>
    indexOf?_eq_none_iff.1 hfresh _ (Array.mem_of_getElem? hm)
  intro i j m m' hm hm' hid
  rw [node?_withNode] at hm hm'
  split at hm <;> split at hm'
  · next hi hj => rw [hi, hj]
  · cases hm
    exact absurd hid.symm (hother hm')
  · cases hm'
    exact absurd hid (hother hm)
  · exact hd i j m m' hm hm' hid

/-- Every call keeps identifiers distinct. -/
theorem Changes.distinctIds {g g' : Graph} {call : BuildCall} (h : g.Changes call g')
    (hd : g.DistinctIds) : g'.DistinctIds := by
  cases h with
  | refused => exact hd
  | node unconnected fresh => exact hd.withNode fresh
  | port exist => exact hd.of_bareNodes (bareNodes_updatePort g _ _)
  | edge leaves enters source target => exact hd.of_bareNodes (bareNodes_join g _ _)
  | rest nodes edges => exact hd.of_bareNodes (by rw [bareNodes, bareNodes, nodes])

theorem consistent_new (objectId : String) : (Graph.new objectId).Consistent := by
  refine ⟨fun k e he => ?_, fun e he => ?_, fun e he => ?_, fun p n hn => ?_⟩
  · cases he
  · exact absurd he (Array.not_mem_empty e)
  · exact absurd he (Array.not_mem_empty e)
  · cases hn

theorem distinctIds_new (objectId : String) : (Graph.new objectId).DistinctIds := by
  intro i j n m hn
  cases hn

theorem consistent_build (objectId : String) (calls : List BuildCall) :
    (build objectId calls).Consistent := by
  induction calls using List.reverseRecOn with
  | nil => exact consistent_new objectId
  | append_singleton calls call ih =>
    rw [build_concat]
    exact (changes_after _ call).consistent ih

theorem distinctIds_build (objectId : String) (calls : List BuildCall) :
    (build objectId calls).DistinctIds := by
  induction calls using List.reverseRecOn with
  | nil => exact distinctIds_new objectId
  | append_singleton calls call ih =>
    rw [build_concat]
    exact (changes_after _ call).distinctIds ih

end Graph

end BranchingDialogue
