import BranchingDialogue.Proofs.Document.Loading
import BranchingDialogue.Proofs.Graph.Tables

/-!
# Loaded graphs

What can be relied on in a graph that comes from a document: its ports, its identifiers and its
edges agree, nothing in it leads to a node that is not there (`Graph.Closed`), and its edges are
those of the document, in their order (`Graph.Depicts.forall₂_edges`). Each of them connects sockets
that its nodes declare (`Edge.Connects`).
-/

namespace BranchingDialogue

/-- An edge of a graph is the one that a record of a document stands for. -/
def Edge.IsOf (d : Document) (record : EdgeRecord) (e : Edge) : Prop :=
  ∀ side, ∃ i, d.Names (record.endpoint side).node i
    ∧ e.endpoint side = ⟨i, side, (record.endpoint side).number⟩

/-- An edge leads from a declared output of one node to a declared input of another, and to a data
socket from a processor only. -/
structure Edge.Connects (g : Graph) (e : Edge) (n m : Node) : Prop where
  output : g.node? e.output.node = some n
  input : g.node? e.input.node = some m
  declaredOutput : n.layout.contains .output e.output.number = true
  declaredInput : m.layout.contains .input e.input.number = true
  source : (PortSlot.ofNumber e.input.number).isSecondary = true → n.kind.isProcessor = true

namespace Graph

/-- What entries and ports lead to is there. -/
structure Closed (g : Graph) : Prop where
  entry : ∀ {name i}, g.entry? name = some i → ∃ n, g.node? i = some n
  follow : ∀ {i number j}, g.follow? i number = some j → ∃ n, g.node? j = some n
  source : ∀ {i number p}, g.source? i number = some p → ∃ n, g.node? p.node = some n

variable {r : NodeRegistry} {d : Document} {g : Graph}

theorem consistent_of_ofDocument (h : ofDocument r d = .ok g) : g.Consistent := by
  obtain ⟨-, ⟨hdata, hpos⟩, properties, -, g₁, hg₁, hg⟩ := ofDocument_eq_ok_iff_stages.1 h
  obtain ⟨ns, hns, hfits, hpair, rfl⟩ := admitNodes_eq_ok_iff.1 hg₁
  obtain ⟨-, hlen, hnodes⟩ := (forall₂_ofRecord_iff hdata hpos).1 hns
  have hstocked := stocked_admitAll_blank hlen hnodes hfits hpair
  obtain ⟨ends, hall, -, rfl⟩ := hstocked.admitEdges_eq_ok_iff.1 hg
  exact (consistent_joinAll hstocked.consistent hstocked.sparse hall).1

theorem distinctIds_of_ofDocument (h : ofDocument r d = .ok g) : g.DistinctIds := by
  obtain ⟨hwell, hdepicts⟩ := wellFormed_and_depicts h
  exact hdepicts.hasNodes.distinctIds_iff.2 hwell.distinctIds

/-- The tables of a loaded graph agree. -/
theorem tablesAgree_of_ofDocument (h : ofDocument r d = .ok g) : g.TablesAgree :=
  (consistent_of_ofDocument h).tablesAgree (distinctIds_of_ofDocument h)

theorem TablesAgree.exists_node_of_mem (h : g.TablesAgree) {e : Edge} (he : e ∈ g.edges) :
    (∃ n, g.node? e.output.node = some n) ∧ ∃ n, g.node? e.input.node = some n := by
  obtain ⟨k, hk⟩ := Array.mem_iff_getElem?.1 he
  exact (h.edges k e hk).2.2.2

/-- What an output leads to is at the other end of one of its edges. -/
theorem TablesAgree.exists_edge_of_follow (h : g.TablesAgree) {i j : Nat} {output : Int}
    (hfollow : g.follow? i output = some j) :
    ∃ e ∈ g.edges, e.output = .output i output ∧ e.input.node = j := by
  rw [h.follow, Option.map_eq_some_iff] at hfollow
  obtain ⟨e, hfind, rfl⟩ := hfollow
  exact ⟨e, Array.mem_toList_iff.1 (List.mem_of_find?_eq_some hfind),
    by simpa using List.find?_some hfind, rfl⟩

/-- What feeds an input is at the other end of one of its edges. -/
theorem TablesAgree.exists_edge_of_source (h : g.TablesAgree) {i : Nat} {input : Int}
    {source : PortRef} (hsource : g.source? i input = some source) :
    ∃ e ∈ g.edges, e.input = .input i input ∧ e.output = source := by
  rw [h.source, Option.map_eq_some_iff] at hsource
  obtain ⟨e, hfind, rfl⟩ := hsource
  exact ⟨e, Array.mem_toList_iff.1 (List.mem_of_find?_eq_some hfind),
    by simpa using List.find?_some hfind, rfl⟩

/-- Nothing in a loaded graph leads out of it. -/
theorem closed_of_ofDocument (h : ofDocument r d = .ok g) : g.Closed where
  entry {name i} hentry := by
    obtain ⟨-, hdepicts⟩ := wellFormed_and_depicts h
    rw [hdepicts.entries, hdepicts.hasNodes.entryNameAt?_eq, Option.bind_eq_some_iff] at hentry
    obtain ⟨n, hn, -⟩ := hentry
    exact ⟨n, hn⟩
  follow {i number j} hfollow := by
    have htables := tablesAgree_of_ofDocument h
    obtain ⟨e, he, -, rfl⟩ := htables.exists_edge_of_follow hfollow
    exact (htables.exists_node_of_mem he).2
  source {i number p} hsource := by
    have htables := tablesAgree_of_ofDocument h
    obtain ⟨e, he, -, rfl⟩ := htables.exists_edge_of_source hsource
    exact (htables.exists_node_of_mem he).1

/-- The edges of a graph are those of its document. -/
theorem Depicts.forall₂_edges (h : g.Depicts r d) :
    List.Forall₂ (Edge.IsOf d) d.edges g.edges.toList := by
  refine forall₂_iff_getElem?.2 ⟨by rw [Array.length_toList, h.edgeCount], ?_⟩
  intro k record e hrecord he
  obtain ⟨i, j, hi, hj, hk⟩ := h.edges k record hrecord
  rw [Array.getElem?_toList, hk, Option.some.injEq] at he
  subst he
  intro side
  cases side with
  | input => exact ⟨j, hj, rfl⟩
  | output => exact ⟨i, hi, rfl⟩

/-- Every edge of a loaded graph is one of the document, which leads from the same socket to the
same socket. -/
theorem exists_record_of_mem (h : ofDocument r d = .ok g) {e : Edge} (he : e ∈ g.edges) :
    ∃ record ∈ d.edges, d.Leads r record e.output.node e.input.node
      ∧ record.output.number = e.output.number ∧ record.input.number = e.input.number := by
  obtain ⟨hwell, hdepicts⟩ := wellFormed_and_depicts h
  obtain ⟨k, hk⟩ := Array.mem_iff_getElem?.1 he
  have hlt : k < d.edges.length := by
    rw [← hdepicts.edgeCount]
    exact (Array.getElem?_eq_some_iff.1 hk).1
  have hrecord := List.getElem?_eq_getElem hlt
  obtain ⟨i, j, hi, hj, hedge⟩ := hdepicts.edges k _ hrecord
  rw [hk, Option.some.injEq] at hedge
  subst hedge
  have hmem := List.mem_of_getElem? hrecord
  obtain ⟨i', j', hleads⟩ := hwell.edges _ hmem
  rw [hleads.output.eq hwell.distinctIds hi, hleads.input.eq hwell.distinctIds hj] at hleads
  exact ⟨_, hmem, hleads, rfl, rfl⟩

theorem exists_connects_of_mem (h : ofDocument r d = .ok g) {e : Edge} (he : e ∈ g.edges) :
    ∃ n m, e.Connects g n m := by
  obtain ⟨record, -, hleads, houtput, hinput⟩ := exists_record_of_mem h he
  have hnodes := (wellFormed_and_depicts h).2.hasNodes
  obtain ⟨l, hl, hcontains⟩ := hleads.declaredOutput
  obtain ⟨l', hl', hcontains'⟩ := hleads.declaredInput
  rw [hnodes.layoutAt?_eq] at hl hl'
  obtain ⟨n, hn, rfl⟩ := Option.map_eq_some_iff.1 hl
  obtain ⟨m, hm, rfl⟩ := Option.map_eq_some_iff.1 hl'
  refine ⟨n, m, hn, hm, houtput ▸ hcontains, hinput ▸ hcontains', fun hdata => ?_⟩
  obtain ⟨kind, hkind, hprocessor⟩ := hleads.source (hinput ▸ hdata)
  rw [hnodes.kindAt?_eq, hn, Option.map_some, Option.some.injEq] at hkind
  rwa [hkind]

/-- Entries of a loaded graph are input nodes. -/
theorem kind_of_entry? (h : ofDocument r d = .ok g) {name : String} {i : Nat}
    (hentry : g.entry? name = some i) : ∃ n, g.node? i = some n ∧ n.kind = .input := by
  obtain ⟨-, hdepicts⟩ := wellFormed_and_depicts h
  rw [hdepicts.entries, Document.entryNameAt?, hdepicts.hasNodes.kindAt?_eq] at hentry
  split at hentry
  · next hkind => exact Option.map_eq_some_iff.1 hkind
  · cases hentry

/-- A port of a node is connected if an edge ends there. -/
theorem Depicts.isConnected_eq (h : g.Depicts r d) {i : Nat} {n : Node} (hn : g.node? i = some n)
    (side : Direction) (number : Int) :
    (n.port? side number).any Port.isConnected
      = (g.edges.toList.find? fun e => e.endpoint side = ⟨i, side, number⟩).isSome := by
  have hport := h.ports ⟨i, side, number⟩ n hn
  rw [port?_eq_of_node? hn] at hport
  rw [← List.head?_filter, hport, edgesAt]
  cases g.edges.toList.filter fun e => e.endpoint side = ⟨i, side, number⟩ with
  | nil => rfl
  | cons e es => rfl

end Graph

end BranchingDialogue
