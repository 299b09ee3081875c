import BranchingDialogue.Proofs.Graph.Building

/-!
# The tables of a graph

Four things in a graph tell the same story: the nodes, the positions of their identifiers, the ports
of every node and the edges. Walks read the ports, analyses and drawings go through the edges.
`Graph.TablesAgree` says in full that none of them differs from the others, and `tablesAgree_build`
that this is so for every graph that is built by calls, refused calls and loops included.

A graph finds an identifier by going through its nodes. `enter` keeps a table of positions beside the
graph instead, in which an accepted node is entered and which decides what is accepted; the table and
the search give the same positions (`tabled_eq_build`).
-/

namespace BranchingDialogue.Graph

/-! ## Edges at a port -/

/-- In a graph whose ports agree with its edges, a port is linked to the edges that end at it, in
their order. -/
theorem Consistent.linked_eq {g : Graph} (hc : g.Consistent) (p : PortRef) :
    g.linked p = g.edges.toList.filter fun e => e.endpoint p.direction = p := by
  have hlisted : g.linked p = (g.edgesAt p).filterMap g.edge? := by
    rw [linked]
    cases hn : g.node? p.node with
    | none =>
      rw [port?, hn, hc.edgesAt_eq_nil hn]
      rfl
    | some n =>
      have hport := hc.ports p n hn
      rw [port?_eq_of_node? hn]
      rw [Node.portOrNew] at hport
      cases h : n.port? p.direction p.number with
      | none =>
        rw [h, Option.getD_none, Port.new, Port.mk.injEq] at hport
        rw [← hport.2.2.2]
        rfl
      | some port =>
        rw [h, Option.getD_some] at hport
        rw [hport]
  -- An edge is found under its number.
  have hfound : ∀ e ∈ g.edges.toList, g.edge? e.id = some e := by
    intro e he
    obtain ⟨k, hk⟩ := Array.mem_iff_getElem?.1 (Array.mem_toList_iff.1 he)
    rw [edge?, hc.ids k e hk, hk]
  rw [hlisted, edgesAt, List.filterMap_map]
  calc (g.edges.toList.filter fun e => e.endpoint p.direction = p).filterMap (g.edge? ∘ (·.id))
      = (g.edges.toList.filter fun e => e.endpoint p.direction = p).filterMap some :=
        List.filterMap_congr fun e he => hfound e (List.mem_filter.1 he).1
    _ = g.edges.toList.filter fun e => e.endpoint p.direction = p := List.filterMap_some

/-- Edges are numbered in their order. -/
theorem Consistent.pairwise_ids {g : Graph} (hc : g.Consistent) :
    g.edges.toList.Pairwise fun e f => e.id < f.id := by
  rw [List.pairwise_iff_getElem]
  intro i j hi hj hij
  have hid : ∀ k (hk : k < g.edges.toList.length), g.edges.toList[k].id = k := fun k hk =>
    hc.ids k _ (by rw [← Array.getElem?_toList, List.getElem?_eq_getElem hk])
  rw [hid i hi, hid j hj]
  exact hij

theorem Consistent.pairwise_edgesAt {g : Graph} (hc : g.Consistent) (p : PortRef) :
    (g.edgesAt p).Pairwise (· < ·) := by
  rw [edgesAt, List.pairwise_map]
  exact hc.pairwise_ids.filter _

/-- The end of an edge on the side of a port is that port if one of its ends is. -/
theorem Consistent.endpoint_eq_iff {g : Graph} (hc : g.Consistent) {e : Edge} (he : e ∈ g.edges)
    (p : PortRef) : e.endpoint p.direction = p ↔ e.output = p ∨ e.input = p := by
  have ho := (hc.outputs e he).1
  have hi := (hc.inputs e he).1
  cases hp : p.direction with
  | input =>
    refine ⟨Or.inr, fun h => h.resolve_left fun heq => ?_⟩
    rw [heq, hp] at ho
    cases ho
  | output =>
    refine ⟨Or.inl, fun h => h.resolve_right fun heq => ?_⟩
    rw [heq, hp] at hi
    cases hi

theorem Consistent.mem_edgesAt_iff {g : Graph} (hc : g.Consistent) {p : PortRef} {k : Nat} :
    k ∈ g.edgesAt p ↔ ∃ e, g.edge? k = some e ∧ (e.output = p ∨ e.input = p) := by
  rw [edgesAt, List.mem_map]
  constructor
  · rintro ⟨e, he, rfl⟩
    obtain ⟨hmem, hend⟩ := List.mem_filter.1 he
    have hmem : e ∈ g.edges := Array.mem_toList_iff.1 hmem
    obtain ⟨k, hk⟩ := Array.mem_iff_getElem?.1 hmem
    refine ⟨e, ?_, (hc.endpoint_eq_iff hmem p).1 (of_decide_eq_true hend)⟩
    rw [edge?, hc.ids k e hk, hk]
  · rintro ⟨e, he, hends⟩
    have hmem : e ∈ g.edges := Array.mem_of_getElem? he
    refine ⟨e, List.mem_filter.2 ⟨Array.mem_toList_iff.2 hmem, ?_⟩, hc.ids k e he⟩
    exact decide_eq_true ((hc.endpoint_eq_iff hmem p).2 hends)

/-- A port that exists lists the edges that end at it. -/
theorem Consistent.port_eq {g : Graph} (hc : g.Consistent) {p : PortRef} {n : Node} {port : Port}
    (hn : g.node? p.node = some n) (hport : n.port? p.direction p.number = some port) :
    port = ⟨p.direction, p.number, n.kind.capacity p.direction p.number, g.edgesAt p⟩ := by
  have hports := hc.ports p n hn
  rwa [Node.portOrNew, hport, Option.getD_some] at hports

/-- Where an edge ends, there is a port. -/
theorem Consistent.exists_port {g : Graph} (hc : g.Consistent) {p : PortRef} {n : Node}
    (hn : g.node? p.node = some n) {k : Nat} (hk : k ∈ g.edgesAt p) :
    ∃ port, g.port? p = some port := by
  have hports := hc.ports p n hn
  rw [port?_eq_of_node? hn]
  cases h : n.port? p.direction p.number with
  | some port => exact ⟨port, rfl⟩
  | none =>
    rw [Node.portOrNew, h, Option.getD_none, Port.new, Port.mk.injEq] at hports
    rw [← hports.2.2.2] at hk
    cases hk

/-! ## A table of identifiers -/

/-- A call on a graph and a table of the positions of its identifiers. The table decides whether a
node is accepted, and the identifier of a node that is accepted is entered. -/
def enter (state : Graph × (NodeId → Option Nat)) : BuildCall → Graph × (NodeId → Option Nat)
  | .addNode n _ =>
    if (state.2 n.id).isSome then state
    else (state.1.withNode n, Function.update state.2 n.id (some state.1.nodes.size))
  | call => (state.1.after call, state.2)

/-- The graph after calls with the table of its identifiers. -/
def tabled (objectId : String) (calls : List BuildCall) : Graph × (NodeId → Option Nat) :=
  calls.foldl enter (.new objectId, fun _ => none)

theorem indexOf?_withNode {g : Graph} {n : Node} (hfresh : g.indexOf? n.id = none) :
    (g.withNode n).indexOf? = Function.update g.indexOf? n.id (some g.nodes.size) := by
  funext id
  rw [indexOf?, withNode, Array.findIdx?_push]
  by_cases h : id = n.id
  · subst h
    rw [indexOf?] at hfresh
    rw [hfresh, Function.update_self]
    simp
  · rw [Function.update_of_ne h, ← indexOf?]
    simp [Ne.symm h]

theorem indexOf?_eq_of_bareNodes {g g' : Graph} (h : g'.bareNodes = g.bareNodes) :
    g'.indexOf? = g.indexOf? :=
  funext fun id => indexOf?_of_bareNodes h id

/-- A call does the same to the graph whether identifiers are looked up in the table or searched
for. -/
theorem enter_eq_after (g : Graph) (call : BuildCall) :
    enter (g, g.indexOf?) call = (g.after call, (g.after call).indexOf?) := by
  have hkept : ∀ {g' : Graph}, g'.bareNodes = g.bareNodes → (g', g.indexOf?) = (g', g'.indexOf?) :=
    fun h => by rw [indexOf?_eq_of_bareNodes h]
  cases call with
  | addNode n unconnected =>
    simp only [enter, after, addNode?]
    cases hindex : g.indexOf? n.id with
    | some i => rfl
    | none => exact Prod.ext rfl (indexOf?_withNode hindex).symm
  | insertPort p =>
    show (g.after (.insertPort p), g.indexOf?) = _
    rw [after, insertPort?]
    cases g.node? p.node with
    | none => rfl
    | some n => exact hkept (bareNodes_updatePort g p id)
  | connect a b =>
    show (g.after (.connect a b), g.indexOf?) = _
    rw [after]
    cases h : g.connect? a b with
    | none => rfl
    | some result =>
      obtain ⟨output, input, -, -, -, heq, -⟩ := connect?_eq_some_iff.1 h
      refine hkept ?_
      rw [Option.map_some, Option.getD_some, heq]
      exact bareNodes_join g output input
  | registerEntry name i => rfl
  | addProperty p => rfl

/-- **The table has every identifier where the search finds it.** -/
theorem tabled_eq_build (objectId : String) (calls : List BuildCall) :
    tabled objectId calls = (build objectId calls, (build objectId calls).indexOf?) := by
  induction calls using List.reverseRecOn with
  | nil => exact Prod.ext rfl (funext fun _ => Array.findIdx?_empty.symm)
  | append_singleton calls call ih =>
    rw [build_concat, ← enter_eq_after, ← ih, tabled, tabled, List.foldl_append]
    rfl

/-! ## Agreement -/

/-- Nodes, positions of identifiers, ports and edges of a graph agree. -/
structure TablesAgree (g : Graph) : Prop where
  /-- An identifier is found at the node that has it. -/
  index : ∀ id i, g.indexOf? id = some i ↔ ∃ n, g.node? i = some n ∧ n.id = id
  /-- No two nodes have the same identifier. -/
  distinct : g.DistinctIds
  /-- Edges are numbered by their positions and lead from outputs to inputs of nodes that exist. -/
  edges : ∀ k e, g.edge? k = some e →
    e.id = k ∧ e.output.direction = .output ∧ e.input.direction = .input
      ∧ (∃ n, g.node? e.output.node = some n) ∧ ∃ n, g.node? e.input.node = some n
  /-- A port is stored under its own number and direction and takes as many edges as its node's
  kind prescribes. -/
  ports : ∀ i n direction number port, g.node? i = some n →
    n.port? direction number = some port →
    port.direction = direction ∧ port.number = number
      ∧ port.capacity = n.kind.capacity direction number
  /-- Both ends of an edge are ports. -/
  ends : ∀ k e, g.edge? k = some e →
    (∃ port, g.port? e.output = some port) ∧ ∃ port, g.port? e.input = some port
  /-- A port lists every edge that ends at it once and no other edge. -/
  listed : ∀ p port, g.port? p = some port → ∀ k,
    port.edges.count k
      = if (g.edge? k).any fun e => decide (e.output = p ∨ e.input = p) then 1 else 0
  /-- A port lists its edges in ascending order. -/
  ascending : ∀ p port, g.port? p = some port → port.edges.Pairwise (· < ·)
  /-- An output leads to the inputs at the other ends of its edges, in the order of the edges. -/
  targets : ∀ node number,
    g.targets node number
      = (g.edges.toList.filter fun e => e.output = .output node number).map (·.input)
  /-- An input is fed by the outputs at the other ends of its edges, in the order of the edges. -/
  sources : ∀ node number,
    g.sources node number
      = (g.edges.toList.filter fun e => e.input = .input node number).map (·.output)
  /-- A walk follows the first edge of an output. -/
  follow : ∀ node number,
    g.follow? node number
      = (g.edges.toList.find? fun e => e.output = .output node number).map (·.input.node)
  /-- A pull follows the first edge of an input. -/
  source : ∀ node number,
    g.source? node number
      = (g.edges.toList.find? fun e => e.input = .input node number).map (·.output)

theorem Consistent.targets_eq {g : Graph} (hc : g.Consistent) (node : Nat) (number : Int) :
    g.targets node number
      = (g.edges.toList.filter fun e => e.output = .output node number).map (·.input) := by
  rw [targets, hc.linked_eq]
  rfl

theorem Consistent.sources_eq {g : Graph} (hc : g.Consistent) (node : Nat) (number : Int) :
    g.sources node number
      = (g.edges.toList.filter fun e => e.input = .input node number).map (·.output) := by
  rw [sources, hc.linked_eq]
  rfl

theorem Consistent.count_edges {g : Graph} (hc : g.Consistent) {p : PortRef} {n : Node}
    {port : Port} (hn : g.node? p.node = some n)
    (hport : n.port? p.direction p.number = some port) (k : Nat) :
    port.edges.count k
      = if (g.edge? k).any fun e => decide (e.output = p ∨ e.input = p) then 1 else 0 := by
  rw [hc.port_eq hn hport]
  have hnodup : (g.edgesAt p).Nodup := (hc.pairwise_edgesAt p).imp Nat.ne_of_lt
  rw [hnodup.count]
  refine if_congr ?_ rfl rfl
  rw [hc.mem_edgesAt_iff, Option.any_eq_true]
  simp only [decide_eq_true_eq]

theorem Consistent.tablesAgree {g : Graph} (hc : g.Consistent) (hd : g.DistinctIds) :
    g.TablesAgree where
  index _ _ := indexOf?_eq_some_iff hd
  distinct := hd
  edges k e he := by
    have hmem : e ∈ g.edges := Array.mem_of_getElem? he
    have ho := hc.outputs e hmem
    have hi := hc.inputs e hmem
    exact ⟨hc.ids k e he, ho.1, hi.1, ho.2, hi.2⟩
  ports i n direction number port hn hport := by
    rw [hc.port_eq (p := ⟨i, direction, number⟩) hn hport]
    exact ⟨rfl, rfl, rfl⟩
  ends k e he := by
    have hmem : e ∈ g.edges := Array.mem_of_getElem? he
    obtain ⟨n, hn⟩ := (hc.outputs e hmem).2
    obtain ⟨m, hm⟩ := (hc.inputs e hmem).2
    exact ⟨hc.exists_port hn (hc.mem_edgesAt_iff.2 ⟨e, he, Or.inl rfl⟩),
      hc.exists_port hm (hc.mem_edgesAt_iff.2 ⟨e, he, Or.inr rfl⟩)⟩
  listed p port hport := by
    rw [port?, Option.bind_eq_some_iff] at hport
    obtain ⟨n, hn, hport⟩ := hport
    exact hc.count_edges hn hport
  ascending p port hport := by
    rw [port?, Option.bind_eq_some_iff] at hport
    obtain ⟨n, hn, hport⟩ := hport
    rw [hc.port_eq hn hport]
    exact hc.pairwise_edgesAt p
  targets := hc.targets_eq
  sources := hc.sources_eq
  follow node number := by
    rw [follow?, hc.targets_eq, List.head?_map, List.head?_filter, Option.map_map]
    rfl
  source node number := by
    rw [source?, hc.sources_eq, List.head?_map, List.head?_filter]

end BranchingDialogue.Graph
