import BranchingDialogue.Proofs.Graph.Adjacency
import BranchingDialogue.Proofs.Identifier
import BranchingDialogue.Proofs.Loops
import BranchingDialogue.Proofs.Value

/-!
# Well-formed documents and the graphs they describe

`Document.WellFormed` states, rule by rule and about the document as a whole, which documents have a
graph; `Graph.Depicts` states which graph that is. Neither mentions the order in which a document is
checked or a graph is built. `Depicts.eq` shows that a document describes at most one graph: nodes,
edges, entries and ports leave nothing open.
-/

namespace BranchingDialogue

/-- The end of an edge, as it is stored, on one side. -/
def EdgeRecord.endpoint (e : EdgeRecord) : Direction → PortRecord
  | .input => e.input
  | .output => e.output

namespace Document

/-- The kind of a node: what its binder stands for. -/
def kindAt? (r : NodeRegistry) (d : Document) (i : Nat) : Option NodeKind :=
  d.nodes[i]?.bind fun n => r.resolve? n.binder

/-- The payload of a node. -/
def payloadAt (d : Document) (i : Nat) : Payload := (d.data[i]?.getD .null).payload

/-- The sockets of a node. -/
def layoutAt? (r : NodeRegistry) (d : Document) (i : Nat) : Option PortLayout :=
  (d.kindAt? r i).map fun kind => kind.layout (d.payloadAt i)

/-- The name under which an input node is an entry. -/
def entryNameAt? (r : NodeRegistry) (d : Document) (i : Nat) : Option String :=
  if d.kindAt? r i = some .input then (d.payloadAt i).text? entryNameKey else none

/-- A text consists of 32 digits that denote the identifier of a node. -/
def Names (d : Document) (text : String) (i : Nat) : Prop :=
  NodeId.IsDigits text ∧ ∃ n, d.nodes[i]? = some n ∧ NodeId.parse? n.id = NodeId.parse? text

/-- An edge leads from one node to another: it names both and ends at sockets that they declare, and
only a processor feeds a data socket. -/
structure Leads (r : NodeRegistry) (d : Document) (e : EdgeRecord) (i j : Nat) : Prop where
  output : d.Names e.output.node i
  input : d.Names e.input.node j
  declaredOutput : ∃ l, d.layoutAt? r i = some l ∧ l.contains .output e.output.number = true
  declaredInput : ∃ l, d.layoutAt? r j = some l ∧ l.contains .input e.input.number = true
  source : (PortSlot.ofNumber e.input.number).isSecondary = true →
    ∃ kind, d.kindAt? r i = some kind ∧ kind.isProcessor = true

/-- Two edges have an end in common on one side. -/
def Meet (d : Document) (e f : EdgeRecord) (side : Direction) (i : Nat) : Prop :=
  d.Names (e.endpoint side).node i ∧ d.Names (f.endpoint side).node i
    ∧ (e.endpoint side).number = (f.endpoint side).number

/-- A document that has a graph. -/
structure WellFormed (r : NodeRegistry) (d : Document) : Prop where
  version : d.version ≤ 1
  /-- Data run parallel to nodes. -/
  data : d.data.length = d.nodes.length
  /-- Positions run parallel to nodes or are left out. -/
  positions : d.positions = [] ∨ d.positions.length = d.nodes.length
  propertyIds : ∀ p ∈ d.properties, ∃ id, Uuid.parse? p.id = some id
  propertyValues : ∀ p ∈ d.properties, p.value.IsPlain
  nodeIds : ∀ n ∈ d.nodes, NodeId.IsDigits n.id
  /-- No two nodes denote the same identifier. -/
  distinctIds : (d.nodes.map fun n => NodeId.parse? n.id).Nodup
  binders : ∀ n ∈ d.nodes, ∃ kind, r.resolve? n.binder = some kind
  payloads : ∀ j ∈ d.data, j.IsPayload
  /-- Every input node has a name. -/
  entryNames : ∀ i, d.kindAt? r i = some .input → ∃ name, d.entryNameAt? r i = some name
  /-- No two input nodes have the same name. -/
  distinctEntries : ∀ i j name,
    d.entryNameAt? r i = some name → d.entryNameAt? r j = some name → i = j
  edges : ∀ e ∈ d.edges, ∃ i j, d.Leads r e i j
  /-- Edges meet only at ports that take many. -/
  capacity : d.edges.Pairwise fun e f => ∀ side i kind, d.Meet e f side i →
    d.kindAt? r i = some kind → kind.capacity side (e.endpoint side).number = .multi

end Document

/-- A property is read from its record. -/
structure Property.IsOf (record : PropertyRecord) (p : Property) : Prop where
  id : Uuid.parse? record.id = some p.id
  type : p.type = record.type
  name : p.name = record.name
  value : Value.ofJson record.value = .ok p.value

/-- A node is, but for its ports, the one at a position of a document. -/
structure Node.IsAt (r : NodeRegistry) (d : Document) (i : Nat) (n : Node) : Prop where
  record : ∃ record, d.nodes[i]? = some record ∧ NodeId.parse? record.id = some n.id
    ∧ n.binder = record.binder ∧ n.viewType = record.viewType
    ∧ r.resolve? record.binder = some n.kind
  payload : n.payload = d.payloadAt i
  position : n.position = d.positions[i]?

/-- The graph that a document describes. -/
structure Graph.Depicts (r : NodeRegistry) (d : Document) (g : Graph) : Prop where
  version : g.version = d.version
  objectId : g.objectId = d.objectId
  properties : List.Forall₂ Property.IsOf d.properties g.properties
  size : g.nodes.size = d.nodes.length
  nodes : ∀ i n, g.node? i = some n → n.IsAt r d i
  /-- Identifiers lead to their nodes. -/
  index : ∀ id i, g.indexOf? id = some i
    ↔ ∃ record, d.nodes[i]? = some record ∧ NodeId.parse? record.id = some id
  edgeCount : g.edges.size = d.edges.length
  /-- Edges are numbered in the order of the document. -/
  edges : ∀ k (e : EdgeRecord), d.edges[k]? = some e →
    ∃ i j, d.Names e.output.node i ∧ d.Names e.input.node j
      ∧ g.edges[k]? = some (Edge.mk k (.output i e.output.number) (.input j e.input.number))
  /-- There are the ports at which edges end, each with its edges in order. -/
  ports : ∀ p n, g.node? p.node = some n →
    g.port? p = if g.edgesAt p = [] then none
      else some ⟨p.direction, p.number, n.kind.capacity p.direction p.number, g.edgesAt p⟩
  entries : ∀ name i, g.entry? name = some i ↔ d.entryNameAt? r i = some name

/-! ## There is only one -/

namespace Document

theorem Names.eq {d : Document} (h : (d.nodes.map fun n => NodeId.parse? n.id).Nodup)
    {text : String} {i j : Nat} (hi : d.Names text i) (hj : d.Names text j) : i = j := by
  obtain ⟨-, n, hn, hnid⟩ := hi
  obtain ⟨-, m, hm, hmid⟩ := hj
  rw [List.Nodup, List.pairwise_map, pairwise_iff_getElem?_ne fun hne => Ne.symm hne] at h
  by_contra hne
  exact h i j n m hne hn hm (hnid.trans hmid.symm)

end Document

theorem Property.IsOf.eq {record : PropertyRecord} {p q : Property} (hp : p.IsOf record)
    (hq : q.IsOf record) : p = q := by
  have hid := hp.id.symm.trans hq.id
  have hvalue := hp.value.symm.trans hq.value
  cases p
  cases q
  cases hid
  cases hvalue
  cases hp.type.trans hq.type.symm
  cases hp.name.trans hq.name.symm
  rfl

theorem Node.IsAt.bare_eq {r : NodeRegistry} {d : Document} {i : Nat} {n m : Node}
    (hn : n.IsAt r d i) (hm : m.IsAt r d i) : n.bare = m.bare := by
  obtain ⟨record, hrecord, hid, hbinder, hview, hkind⟩ := hn.record
  obtain ⟨record', hrecord', hid', hbinder', hview', hkind'⟩ := hm.record
  rw [hrecord, Option.some.injEq] at hrecord'
  subst hrecord'
  have hids := hid.symm.trans hid'
  have hkinds := hkind.symm.trans hkind'
  rw [Option.some.injEq] at hids hkinds
  rw [bare, bare, mk.injEq]
  exact ⟨hids, hbinder.trans hbinder'.symm, hview.trans hview'.symm, hkinds,
    hn.payload.trans hm.payload.symm, hn.position.trans hm.position.symm, rfl, rfl⟩

namespace Graph

theorem Depicts.edges_eq {r : NodeRegistry} {d : Document}
    (hd : (d.nodes.map fun n => NodeId.parse? n.id).Nodup) {g g' : Graph} (h : g.Depicts r d)
    (h' : g'.Depicts r d) : g.edges = g'.edges := by
  apply Array.ext_getElem?
  intro k
  cases he : d.edges[k]? with
  | none =>
    rw [List.getElem?_eq_none_iff] at he
    rw [Array.getElem?_eq_none (h.edgeCount ▸ he), Array.getElem?_eq_none (h'.edgeCount ▸ he)]
  | some e =>
    obtain ⟨i, j, hi, hj, hk⟩ := h.edges k e he
    obtain ⟨i', j', hi', hj', hk'⟩ := h'.edges k e he
    rw [hk, hk', hi.eq hd hi', hj.eq hd hj']

/-- A document describes at most one graph. -/
theorem Depicts.eq {r : NodeRegistry} {d : Document}
    (hd : (d.nodes.map fun n => NodeId.parse? n.id).Nodup) {g g' : Graph} (h : g.Depicts r d)
    (h' : g'.Depicts r d) : g = g' := by
  have hproperties : g.properties = g'.properties := by
    have hflip := List.Forall₂.flip h.properties
    refine List.ext_getElem (hflip.length_eq.trans h'.properties.length_eq) fun k hk hk' => ?_
    exact (hflip.get hk (hflip.length_eq ▸ hk)).eq (h'.properties.get (hflip.length_eq ▸ hk) hk')
  have hedges := h.edges_eq hd h'
  have hentries : g.entries = g'.entries := by
    apply Dictionary.ext_get?
    intro name
    apply Option.ext
    intro i
    exact (h.entries name i).trans (h'.entries name i).symm
  have hnodes : g.nodes = g'.nodes := by
    apply Array.ext (h.size.trans h'.size.symm)
    intro i hi hi'
    have hn : g.node? i = some g.nodes[i] := Array.getElem?_eq_getElem hi
    have hn' : g'.node? i = some g'.nodes[i] := Array.getElem?_eq_getElem hi'
    have hbare := (h.nodes i _ hn).bare_eq (h'.nodes i _ hn')
    refine Node.ext_ports hbare fun direction number => ?_
    have hat : g.edgesAt ⟨i, direction, number⟩ = g'.edgesAt ⟨i, direction, number⟩ := by
      rw [edgesAt, edgesAt, hedges]
    have hport := h.ports ⟨i, direction, number⟩ _ hn
    rw [hat, Node.kind_of_bare hbare, ← h'.ports ⟨i, direction, number⟩ _ hn',
      port?_eq_of_node? (p := ⟨i, direction, number⟩) hn,
      port?_eq_of_node? (p := ⟨i, direction, number⟩) hn'] at hport
    exact hport
  have hversion := h.version.trans h'.version.symm
  have hobject := h.objectId.trans h'.objectId.symm
  cases g
  cases g'
  cases hproperties
  cases hedges
  cases hentries
  cases hnodes
  cases hversion
  cases hobject
  rfl

end Graph

end BranchingDialogue
