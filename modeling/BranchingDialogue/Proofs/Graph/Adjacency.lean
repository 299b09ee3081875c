import BranchingDialogue.Graph.Basic
import BranchingDialogue.Proofs.Dictionary

/-!
# The ports of a graph agree with its edges

A graph keeps its edges twice: in one list, and at every port the numbers of the edges that end
there. `Graph.edgesAt` reads the second off the first, `Graph.Consistent` says that the two agree,
and `Consistent.join` that connecting two ports keeps them in agreement. Nothing but ports and
edges changes when ports are connected: the rest of a node is its `Node.bare` form, and `join`
leaves those alone.
-/

namespace BranchingDialogue

/-- The end of an edge on one side. -/
def Edge.endpoint (e : Edge) : Direction → PortRef
  | .input => e.input
  | .output => e.output

namespace Node

/-- A node without its ports. -/
def bare (n : Node) : Node := { n with inputs := {}, outputs := {} }

theorem kind_of_bare {a b : Node} (h : a.bare = b.bare) : a.kind = b.kind := by
  show a.bare.kind = b.bare.kind
  rw [h]

theorem layout_of_bare {a b : Node} (h : a.bare = b.bare) : a.layout = b.layout := by
  show a.bare.layout = b.bare.layout
  rw [h]

@[simp] theorem bare_updatePort (n : Node) (direction : Direction) (number : Int)
    (f : Port → Port) : (n.updatePort direction number f).bare = n.bare := by
  cases direction <;> rfl

theorem port?_updatePort (n : Node) (direction side : Direction) (number k : Int)
    (f : Port → Port) :
    (n.updatePort direction number f).port? side k
      = if direction = side ∧ number = k then some (f (n.portOrNew direction number))
        else n.port? side k := by
  cases direction <;> cases side <;>
    simp [port?, updatePort, setPorts, ports, Dictionary.get?_insert]

/-- Two nodes that are the same but for their ports, and whose ports are the same, are the same. -/
theorem ext_ports {a b : Node} (hbare : a.bare = b.bare)
    (hports : ∀ direction number, a.port? direction number = b.port? direction number) : a = b := by
  have hinputs : a.inputs = b.inputs := Dictionary.ext_get? (hports .input)
  have houtputs : a.outputs = b.outputs := Dictionary.ext_get? (hports .output)
  cases a
  cases b
  simp only [bare, mk.injEq] at hbare hinputs houtputs ⊢
  exact ⟨hbare.1, hbare.2.1, hbare.2.2.1, hbare.2.2.2.1, hbare.2.2.2.2.1, hbare.2.2.2.2.2.1,
    hinputs, houtputs⟩

end Node

namespace Graph

/-! ## Nodes without their ports -/

/-- The nodes of a graph without their ports. -/
def bareNodes (g : Graph) : Array Node := g.nodes.map Node.bare

theorem indexOf?_eq_bare (g : Graph) (id : NodeId) :
    g.indexOf? id = g.bareNodes.findIdx? fun n => n.id = id := by
  rw [indexOf?, bareNodes, Array.findIdx?_map]
  rfl

theorem map_bare_node? (g : Graph) (i : Nat) : (g.node? i).map Node.bare = g.bareNodes[i]? := by
  rw [node?, bareNodes, Array.getElem?_map]

@[simp] theorem bareNodes_updatePort (g : Graph) (p : PortRef) (f : Port → Port) :
    (g.updatePort p f).bareNodes = g.bareNodes := by
  apply Array.ext_getElem?
  intro i
  rw [bareNodes, bareNodes, updatePort, Array.getElem?_map, Array.getElem?_map,
    Array.getElem?_modify]
  split
  · next h =>
    rw [Option.map_map, ← h]
    congr 1
    funext n
    exact Node.bare_updatePort n _ _ _
  · rfl

theorem size_bareNodes (g : Graph) : g.bareNodes.size = g.nodes.size := Array.size_map

/-- Graphs whose nodes differ at most in their ports find a node at the same position, the same but
for its ports. -/
theorem exists_node?_of_bareNodes {g g' : Graph} (h : g'.bareNodes = g.bareNodes) {i : Nat}
    {n : Node} (hn : g.node? i = some n) : ∃ n', g'.node? i = some n' ∧ n'.bare = n.bare := by
  have hmap := map_bare_node? g' i
  rw [h, ← map_bare_node? g i, hn, Option.map_some, Option.map_eq_some_iff] at hmap
  exact hmap

theorem indexOf?_of_bareNodes {g g' : Graph} (h : g'.bareNodes = g.bareNodes) (id : NodeId) :
    g'.indexOf? id = g.indexOf? id := by
  rw [indexOf?_eq_bare, indexOf?_eq_bare, h]

/-! ## Ports -/

theorem node?_updatePort (g : Graph) (p : PortRef) (f : Port → Port) (i : Nat) :
    (g.updatePort p f).node? i
      = if p.node = i then (g.node? i).map fun n => n.updatePort p.direction p.number f
        else g.node? i := by
  rw [node?, updatePort, Array.getElem?_modify]
  rfl

theorem port?_updatePort (g : Graph) (p q : PortRef) (f : Port → Port) :
    (g.updatePort p f).port? q
      = if p = q then (g.node? p.node).map fun n => f (n.portOrNew p.direction p.number)
        else g.port? q := by
  obtain ⟨i, direction, number⟩ := p
  obtain ⟨j, side, k⟩ := q
  simp only [port?, node?_updatePort, PortRef.mk.injEq]
  by_cases hi : i = j
  · subst hi
    simp only [if_true, true_and]
    cases g.node? i with
    | none => simp
    | some n =>
      simp only [Option.map_some, Option.bind_some, Node.port?_updatePort]
  · simp [hi]

/-- A port of an existing node as it is or would come into being. -/
theorem portOrNew_updatePort_of_ne {g : Graph} {p q : PortRef} {f : Port → Port} (hne : p ≠ q)
    {n n' : Node} (hn : g.node? q.node = some n) (hn' : (g.updatePort p f).node? q.node = some n') :
    n'.portOrNew q.direction q.number = n.portOrNew q.direction q.number := by
  have hport := port?_updatePort g p q f
  rw [if_neg hne, port?, port?, hn, hn', Option.bind_some, Option.bind_some] at hport
  have hbare : n'.bare = n.bare := by
    obtain ⟨m, hm, hbare⟩ := exists_node?_of_bareNodes (bareNodes_updatePort g p f) hn
    rw [hn'] at hm
    rw [Option.some.inj hm, hbare]
  have hkind : n'.kind = n.kind := Node.kind_of_bare hbare
  rw [Node.portOrNew, Node.portOrNew, hport, hkind]

/-- Connects an output to an input by a new edge, both of existing nodes. -/
def join (g : Graph) (output input : PortRef) : Graph :=
  { (g.updatePort output (·.attach g.edges.size)).updatePort input (·.attach g.edges.size) with
    edges := g.edges.push ⟨g.edges.size, output, input⟩ }

theorem connect?_eq_join {g : Graph} {output input : PortRef} (ho : output.direction = .output)
    (hi : input.direction = .input) {n m : Node} (hn : g.node? output.node = some n)
    (hm : g.node? input.node = some m) :
    g.connect? output input = some (g.join output input, g.edges.size) := by
  rw [connect?, orient?, ho, hi]
  simp only [hn, hm, Option.isNone_some, Bool.or_self, Bool.false_eq_true, if_false]
  rfl

@[simp] theorem bareNodes_join (g : Graph) (output input : PortRef) :
    (g.join output input).bareNodes = g.bareNodes := by
  show ((g.updatePort output _).updatePort input _).bareNodes = g.bareNodes
  rw [bareNodes_updatePort, bareNodes_updatePort]

@[simp] theorem edges_join (g : Graph) (output input : PortRef) :
    (g.join output input).edges = g.edges.push ⟨g.edges.size, output, input⟩ := rfl

theorem port?_join (g : Graph) {output input : PortRef} (hne : output ≠ input) {m : Node}
    (hm : g.node? input.node = some m) (p : PortRef) :
    (g.join output input).port? p
      = if p = output ∨ p = input then
          (g.node? p.node).map fun n => (n.portOrNew p.direction p.number).attach g.edges.size
        else g.port? p := by
  show ((g.updatePort output _).updatePort input _).port? p = _
  rw [port?_updatePort, port?_updatePort]
  by_cases hi : input = p
  · subst hi
    obtain ⟨m', hm', -⟩ := exists_node?_of_bareNodes (bareNodes_updatePort g output _) hm
    rw [if_pos rfl, if_pos (Or.inr rfl), hm', hm, Option.map_some, Option.map_some,
      portOrNew_updatePort_of_ne hne hm hm']
  · rw [if_neg hi]
    by_cases ho : output = p
    · subst ho
      rw [if_pos rfl, if_pos (Or.inl rfl)]
    · rw [if_neg ho, if_neg (fun h => h.elim (fun h => ho h.symm) fun h => hi h.symm)]

/-! ## The edges at a port -/

/-- The numbers of the edges that end at a port, in the order of the edges. -/
def edgesAt (g : Graph) (p : PortRef) : List Nat :=
  (g.edges.toList.filter fun e => e.endpoint p.direction = p).map (·.id)

theorem edgesAt_join (g : Graph) {output input : PortRef} (ho : output.direction = .output)
    (hi : input.direction = .input) (p : PortRef) :
    (g.join output input).edgesAt p
      = g.edgesAt p ++ if p = output ∨ p = input then [g.edges.size] else [] := by
  obtain ⟨i, direction, number⟩ := p
  rw [edgesAt, edges_join, Array.toList_push, List.filter_append, List.map_append, edgesAt]
  congr 1
  cases direction with
  | input =>
    have hne : (⟨i, .input, number⟩ : PortRef) ≠ output := fun h => by
      rw [← h] at ho
      cases ho
    by_cases h : input = ⟨i, .input, number⟩
    · simp [Edge.endpoint, h]
    · simp [Edge.endpoint, h, hne, Ne.symm h]
  | output =>
    have hne : (⟨i, .output, number⟩ : PortRef) ≠ input := fun h => by
      rw [← h] at hi
      cases hi
    by_cases h : output = ⟨i, .output, number⟩
    · simp [Edge.endpoint, h]
    · simp [Edge.endpoint, h, hne, Ne.symm h]

/-! ## Agreement -/

/-- Edges are numbered by their positions, lead from outputs to inputs of existing nodes, and every
port lists exactly the edges that end at it. -/
structure Consistent (g : Graph) : Prop where
  ids : ∀ k (e : Edge), g.edges[k]? = some e → e.id = k
  outputs : ∀ e ∈ g.edges, e.output.direction = .output ∧ ∃ n, g.node? e.output.node = some n
  inputs : ∀ e ∈ g.edges, e.input.direction = .input ∧ ∃ n, g.node? e.input.node = some n
  ports : ∀ p n, g.node? p.node = some n →
    n.portOrNew p.direction p.number
      = ⟨p.direction, p.number, n.kind.capacity p.direction p.number, g.edgesAt p⟩

/-- Ports come into being by being connected only. -/
def Sparse (g : Graph) : Prop := ∀ p port, g.port? p = some port → g.edgesAt p ≠ []

theorem port?_eq_of_node? {g : Graph} {p : PortRef} {n : Node} (hn : g.node? p.node = some n) :
    g.port? p = n.port? p.direction p.number := by
  rw [port?, hn, Option.bind_some]

/-- In a graph whose ports agree with its edges a port is known from the edges. -/
theorem Consistent.port?_eq {g : Graph} (hc : g.Consistent) (hs : g.Sparse) {p : PortRef} {n : Node}
    (hn : g.node? p.node = some n) :
    g.port? p
      = if g.edgesAt p = [] then none
        else some ⟨p.direction, p.number, n.kind.capacity p.direction p.number, g.edgesAt p⟩ := by
  have hports := hc.ports p n hn
  rw [Node.portOrNew, ← port?_eq_of_node? hn] at hports
  cases hport : g.port? p with
  | none =>
    rw [hport, Option.getD_none, Port.new, Port.mk.injEq] at hports
    rw [if_pos hports.2.2.2.symm]
  | some port =>
    rw [hport, Option.getD_some] at hports
    rw [if_neg (hs p port hport), hports]

theorem Consistent.join {g : Graph} (hc : g.Consistent) {output input : PortRef}
    (ho : output.direction = .output) (hi : input.direction = .input) {n m : Node}
    (hn : g.node? output.node = some n) (hm : g.node? input.node = some m) :
    (g.join output input).Consistent := by
  have hframe := bareNodes_join g output input
  have hexists : ∀ i, (∃ n, g.node? i = some n) → ∃ n, (g.join output input).node? i = some n := by
    rintro i ⟨n, hn⟩
    obtain ⟨n', hn', -⟩ := exists_node?_of_bareNodes hframe hn
    exact ⟨n', hn'⟩
  have hne : output ≠ input := fun h => by
    rw [h, hi] at ho
    cases ho
  refine ⟨?_, ?_, ?_, ?_⟩
  · intro k e he
    rw [edges_join, Array.getElem?_push] at he
    split at he
    · next hk =>
      cases he
      exact hk.symm
    · exact hc.ids k e he
  · intro e he
    rw [edges_join, Array.mem_push] at he
    rcases he with he | rfl
    · exact ⟨(hc.outputs e he).1, hexists _ (hc.outputs e he).2⟩
    · exact ⟨ho, hexists _ ⟨n, hn⟩⟩
  · intro e he
    rw [edges_join, Array.mem_push] at he
    rcases he with he | rfl
    · exact ⟨(hc.inputs e he).1, hexists _ (hc.inputs e he).2⟩
    · exact ⟨hi, hexists _ ⟨m, hm⟩⟩
  · -- At the two ends the old list grows by the new edge; every other port is as it was.
    intro p n' hn'
    obtain ⟨n₀, hn₀, hbare⟩ := exists_node?_of_bareNodes hframe.symm hn'
    have hkind : n₀.kind = n'.kind := Node.kind_of_bare hbare
    have hold := hc.ports p n₀ hn₀
    have hport := port?_join g hne hm p
    rw [port?_eq_of_node? hn', port?_eq_of_node? hn₀, hn₀, Option.map_some, hold] at hport
    rw [edgesAt_join g ho hi, Node.portOrNew, hport, ← hkind]
    split
    · rfl
    · rw [List.append_nil, ← hold, Node.portOrNew, hkind]

theorem Sparse.join {g : Graph} (hs : g.Sparse) {output input : PortRef}
    (ho : output.direction = .output) (hi : input.direction = .input) {m : Node}
    (hm : g.node? input.node = some m) : (g.join output input).Sparse := by
  have hne : output ≠ input := fun h => by
    rw [h, hi] at ho
    cases ho
  intro p port hport
  rw [port?_join g hne hm] at hport
  rw [edgesAt_join g ho hi]
  split at hport
  · next h => simp [h]
  · next h =>
    rw [if_neg h, List.append_nil]
    exact hs p port hport

end Graph

end BranchingDialogue
