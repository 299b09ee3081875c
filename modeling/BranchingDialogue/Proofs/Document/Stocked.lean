import BranchingDialogue.Proofs.Document.Edges
import BranchingDialogue.Proofs.Document.Nodes
import BranchingDialogue.Proofs.Document.WellFormed

/-!
# A graph with the nodes of a document

Edges are checked when all nodes are in. `Graph.Stocked` is the graph at that point: it has the
nodes of the document and no edges, its identifiers differ and its entries are named.
`Graph.HasNodes` is the part of this that stays true while edges come in, and it is what turns
statements about the graph into statements about the document: what it says of a node's kind,
sockets, name and identifier is what the graph has there.

`exists_stocked` and `stocked_admitAll_blank` say that the rules of `Document.WellFormed` about
nodes are the ones under which such a graph comes about.
-/

namespace BranchingDialogue

/-- A place in a document depends on a node's ports no more than the document says of them. -/
theorem Node.IsAt.of_bare {r : NodeRegistry} {d : Document} {i : Nat} {n m : Node}
    (h : m.bare = n.bare) (hn : n.IsAt r d i) : m.IsAt r d i := by
  rw [bare, bare, mk.injEq] at h
  obtain ⟨hid, hbinder, hview, hkind, hpayload, hposition, -⟩ := h
  obtain ⟨⟨record, hrecord⟩, hp, hpos⟩ := hn
  rw [← hid, ← hbinder, ← hview, ← hkind] at hrecord
  exact ⟨⟨record, hrecord⟩, hpayload.trans hp, hposition.trans hpos⟩

namespace Graph

/-- The nodes of a graph are those of a document, but for their ports. -/
structure HasNodes (r : NodeRegistry) (d : Document) (g : Graph) : Prop where
  size : g.nodes.size = d.nodes.length
  nodes : ∀ i n, g.node? i = some n → n.IsAt r d i

namespace HasNodes

variable {r : NodeRegistry} {d : Document} {g : Graph}

theorem node?_eq_none (h : g.HasNodes r d) {i : Nat} (hi : g.node? i = none) :
    d.nodes[i]? = none := by
  rw [node?, Array.getElem?_eq_none_iff, h.size] at hi
  rwa [List.getElem?_eq_none_iff]

theorem exists_node? (h : g.HasNodes r d) {i : Nat} (hi : i < d.nodes.length) :
    ∃ n, g.node? i = some n :=
  ⟨_, Array.getElem?_eq_getElem (h.size ▸ hi)⟩

theorem record_iff (h : g.HasNodes r d) {id : NodeId} {i : Nat} :
    (∃ record, d.nodes[i]? = some record ∧ NodeId.parse? record.id = some id)
      ↔ ∃ n, g.node? i = some n ∧ n.id = id := by
  cases hn : g.node? i with
  | none => simp [h.node?_eq_none hn]
  | some n =>
    obtain ⟨record, hrecord, hid, -⟩ := (h.nodes i n hn).record
    simp [hrecord, hid]

theorem kindAt?_eq (h : g.HasNodes r d) (i : Nat) : d.kindAt? r i = (g.node? i).map Node.kind := by
  rw [Document.kindAt?]
  cases hn : g.node? i with
  | none => rw [h.node?_eq_none hn, Option.bind_none, Option.map_none]
  | some n =>
    obtain ⟨record, hrecord, -, -, -, hkind⟩ := (h.nodes i n hn).record
    rw [hrecord, Option.bind_some, hkind, Option.map_some]

theorem layoutAt?_eq (h : g.HasNodes r d) (i : Nat) :
    d.layoutAt? r i = (g.node? i).map Node.layout := by
  rw [Document.layoutAt?, h.kindAt?_eq]
  cases hn : g.node? i with
  | none => rfl
  | some n =>
    rw [Option.map_some, Option.map_some, Option.map_some, Node.layout, (h.nodes i n hn).payload]

theorem entryNameAt?_eq (h : g.HasNodes r d) (i : Nat) :
    d.entryNameAt? r i = (g.node? i).bind Node.entryName? := by
  rw [Document.entryNameAt?, h.kindAt?_eq]
  cases hn : g.node? i with
  | none => rfl
  | some n =>
    rw [Option.bind_some, Node.entryName?, (h.nodes i n hn).payload, Option.map_some]
    simp only [Option.some.injEq]

theorem names_iff (h : g.HasNodes r d) {text : String} {i : Nat} :
    d.Names text i ↔ ∃ id, NodeId.parse? text = some id ∧ ∃ n, g.node? i = some n ∧ n.id = id := by
  constructor
  · rintro ⟨hdigits, record, hrecord, hsame⟩
    obtain ⟨id, hid⟩ := NodeId.exists_parse?_iff.2 hdigits
    exact ⟨id, hid, h.record_iff.1 ⟨record, hrecord, hsame.trans hid⟩⟩
  · rintro ⟨id, hid, hn⟩
    obtain ⟨record, hrecord, hsame⟩ := h.record_iff.2 hn
    exact ⟨NodeId.exists_parse?_iff.1 ⟨id, hid⟩, record, hrecord, hsame.trans hid.symm⟩

theorem distinctIds_iff (h : g.HasNodes r d) :
    g.DistinctIds ↔ (d.nodes.map fun n => NodeId.parse? n.id).Nodup := by
  rw [List.Nodup, List.pairwise_map, pairwise_iff_getElem?_ne fun hne => Ne.symm hne]
  constructor
  · intro hg i j a b hne ha hb hsame
    obtain ⟨hi, -⟩ := List.getElem?_eq_some_iff.1 ha
    obtain ⟨n, hn⟩ := h.exists_node? hi
    obtain ⟨record, hrecord, hid, -⟩ := (h.nodes i _ hn).record
    rw [ha, Option.some.injEq] at hrecord
    subst hrecord
    obtain ⟨m, hm, hmid⟩ := h.record_iff.1 ⟨b, hb, hsame.symm.trans hid⟩
    exact hne (hg i j _ m hn hm hmid.symm)
  · intro hd i j n m hn hm hsame
    obtain ⟨a, ha, haid⟩ := h.record_iff.2 ⟨n, hn, rfl⟩
    obtain ⟨b, hb, hbid⟩ := h.record_iff.2 ⟨m, hm, rfl⟩
    by_contra hne
    exact hd i j a b hne ha hb (by rw [haid, hbid, hsame])

theorem resolves_iff (h : g.HasNodes r d) (hids : g.DistinctIds) {record : PortRecord}
    {direction : Direction} {p : PortRef} :
    g.Resolves record direction p
      ↔ p.direction = direction ∧ p.number = record.number ∧ d.Names record.node p.node
        ∧ ∃ l, d.layoutAt? r p.node = some l ∧ l.contains direction record.number = true := by
  rw [h.layoutAt?_eq, h.names_iff]
  constructor
  · rintro ⟨⟨id, hid, hindex⟩, hfaces, hnumber, n, hn, hcontains⟩
    have hnode := (indexOf?_eq_some_iff hids).1 hindex
    refine ⟨hfaces, hnumber, ⟨id, hid, hnode⟩, n.layout, ?_, hcontains⟩
    rw [hn, Option.map_some]
  · rintro ⟨hfaces, hnumber, ⟨id, hid, hnode⟩, l, hl, hcontains⟩
    obtain ⟨n, hn, rfl⟩ := Option.map_eq_some_iff.1 hl
    exact ⟨⟨id, hid, (indexOf?_eq_some_iff hids).2 hnode⟩, hfaces, hnumber, n, hn, hcontains⟩

/-- An edge leads somewhere in the document exactly when its ends are found in the graph. -/
theorem resolvesEdge_iff (h : g.HasNodes r d) (hids : g.DistinctIds) {e : EdgeRecord}
    {ends : PortRef × PortRef} :
    g.ResolvesEdge e ends
      ↔ ∃ i j, d.Leads r e i j ∧ ends = (.output i e.output.number, .input j e.input.number) := by
  obtain ⟨⟨i, oside, onumber⟩, ⟨j, iside, inumber⟩⟩ := ends
  have hsource : (∃ n, g.node? i = some n ∧ n.kind.isProcessor = true)
      ↔ ∃ kind, d.kindAt? r i = some kind ∧ kind.isProcessor = true := by
    rw [h.kindAt?_eq]
    cases g.node? i <;> simp
  constructor
  · rintro ⟨houtput, hinput, hfed⟩
    obtain ⟨rfl, rfl, honame, holayout⟩ := (h.resolves_iff hids).1 houtput
    obtain ⟨rfl, rfl, hiname, hilayout⟩ := (h.resolves_iff hids).1 hinput
    exact ⟨i, j, ⟨honame, hiname, holayout, hilayout, fun hs => hsource.1 (hfed hs)⟩, rfl⟩
  · rintro ⟨_, _, hleads, ⟨⟩⟩
    exact ⟨(h.resolves_iff hids).2 ⟨rfl, rfl, hleads.output, hleads.declaredOutput⟩,
      (h.resolves_iff hids).2 ⟨rfl, rfl, hleads.input, hleads.declaredInput⟩,
      fun hs => hsource.2 (hleads.source hs)⟩

end HasNodes

/-! ## Nodes -/

theorem getElem?_positionsOf {d : Document}
    (hpos : d.positions = [] ∨ d.positions.length = d.nodes.length) {i : Nat}
    (hi : i < d.nodes.length) : (positionsOf d)[i]? = some d.positions[i]? := by
  rw [positionsOf]
  rcases hpos with hpos | hpos
  · simp [hpos, hi]
  · have hne : ¬d.positions.isEmpty := by
      rw [List.isEmpty_iff_length_eq_zero]
      omega
    rw [if_neg hne, List.getElem?_map, List.getElem?_eq_getElem (hpos ▸ hi), Option.map_some]

theorem length_positionsOf {d : Document}
    (hpos : d.positions = [] ∨ d.positions.length = d.nodes.length) :
    (positionsOf d).length = d.nodes.length := by
  rw [positionsOf]
  split
  · exact List.length_replicate
  · next hne =>
    rw [List.length_map]
    rcases hpos with hpos | hpos
    · simp [hpos] at hne
    · exact hpos

/-- What is read at a position is the node without ports that the document has there. -/
theorem ofRecord_at_iff {r : NodeRegistry} {d : Document} {i : Nat} {record : NodeRecord}
    {data : Json} (hrecord : d.nodes[i]? = some record) (hdata : d.data[i]? = some data)
    {n : Node} :
    Node.ofRecord r record data d.positions[i]? = .ok n
      ↔ data.IsPayload ∧ n.IsAt r d i ∧ n.bare = n := by
  have hpayload : d.payloadAt i = data.payload := by
    rw [Document.payloadAt, hdata, Option.getD_some]
  rw [Node.ofRecord_eq_ok_iff]
  refine and_congr_right fun _ => ?_
  constructor
  · rintro ⟨id, kind, hid, hkind, rfl⟩
    exact ⟨⟨⟨record, hrecord, hid, rfl, rfl, hkind⟩, hpayload.symm, rfl⟩, rfl⟩
  · rintro ⟨⟨⟨record', hrecord', hid, hbinder, hview, hkind⟩, hp, hpos⟩, hbare⟩
    rw [hrecord, Option.some.injEq] at hrecord'
    subst hrecord'
    refine ⟨n.id, n.kind, hid, hkind, ?_⟩
    rw [← hbare, Node.bare, ← hbinder, ← hview, ← hpayload, ← hp, ← hpos]

/-- The records of a document beside their payloads and positions. -/
def rowsOf (d : Document) : List (NodeRecord × Json × Option Position) :=
  d.nodes.zip (d.data.zip (positionsOf d))

theorem getElem?_rowsOf {d : Document}
    (hpos : d.positions = [] ∨ d.positions.length = d.nodes.length) {i : Nat}
    {row : NodeRecord × Json × Option Position} :
    (rowsOf d)[i]? = some row
      ↔ d.nodes[i]? = some row.1 ∧ d.data[i]? = some row.2.1 ∧ row.2.2 = d.positions[i]? := by
  obtain ⟨record, data, position⟩ := row
  rw [rowsOf, List.getElem?_zip_eq_some, List.getElem?_zip_eq_some]
  refine and_congr_right fun hrecord => and_congr_right fun _ => ?_
  obtain ⟨hi, -⟩ := List.getElem?_eq_some_iff.1 hrecord
  rw [getElem?_positionsOf hpos hi, Option.some.injEq]
  exact eq_comm

/-- The rows of a document are read as the nodes it has, all without ports. -/
theorem forall₂_ofRecord_iff {r : NodeRegistry} {d : Document}
    (hdata : d.data.length = d.nodes.length)
    (hpos : d.positions = [] ∨ d.positions.length = d.nodes.length) {ns : List Node} :
    List.Forall₂ (fun row n => Node.ofRecord r row.1 row.2.1 row.2.2 = .ok n) (rowsOf d) ns
      ↔ (∀ j ∈ d.data, j.IsPayload) ∧ ns.length = d.nodes.length
        ∧ ∀ (i : Nat) n, ns[i]? = some n → n.IsAt r d i ∧ n.bare = n := by
  have hlen : (rowsOf d).length = d.nodes.length := by
    rw [rowsOf, List.length_zip, List.length_zip, hdata, length_positionsOf hpos, Nat.min_self,
      Nat.min_self]
  -- With lists of one length, every node has a row.
  have hrow : ∀ i, i < d.nodes.length → ∃ record data, d.nodes[i]? = some record
      ∧ d.data[i]? = some data ∧ (rowsOf d)[i]? = some (record, data, d.positions[i]?) := by
    intro i hi
    have hrecord := List.getElem?_eq_getElem hi
    have hread := List.getElem?_eq_getElem (hdata ▸ hi)
    exact ⟨_, _, hrecord, hread, (getElem?_rowsOf hpos).2 ⟨hrecord, hread, rfl⟩⟩
  rw [forall₂_iff_getElem?, hlen]
  constructor
  · rintro ⟨hns, hread⟩
    refine ⟨fun j hj => ?_, hns.symm, fun i n hn => ?_⟩
    · obtain ⟨i, hi, rfl⟩ := List.getElem_of_mem hj
      obtain ⟨record, data, hrecord, hj, hat⟩ := hrow i (hdata ▸ hi)
      have hn := List.getElem?_eq_getElem (l := ns) (i := i) (by omega)
      rw [List.getElem?_eq_getElem hi, Option.some.injEq] at hj
      rw [hj]
      exact ((ofRecord_at_iff hrecord (hj ▸ List.getElem?_eq_getElem hi)).1
        (hread i _ _ hat hn)).1
    · obtain ⟨hi, -⟩ := List.getElem?_eq_some_iff.1 hn
      obtain ⟨record, data, hrecord, hj, hat⟩ := hrow i (by omega)
      exact ((ofRecord_at_iff hrecord hj).1 (hread i _ _ hat hn)).2
  · rintro ⟨hpayloads, hns, hnodes⟩
    refine ⟨hns.symm, fun i row n hat hn => ?_⟩
    obtain ⟨hrecord, hj, hposition⟩ := (getElem?_rowsOf hpos).1 hat
    rw [hposition]
    exact (ofRecord_at_iff hrecord hj).2 ⟨hpayloads _ (List.mem_of_getElem? hj), hnodes i n hn⟩

/-- All nodes of a document and none of its edges. -/
structure Stocked (r : NodeRegistry) (d : Document) (g : Graph) : Prop extends g.HasNodes r d where
  bare : ∀ i n, g.node? i = some n → n.bare = n
  distinctIds : g.DistinctIds
  named : g.Named
  inputs : ∀ i n, g.node? i = some n → n.kind = .input → n.entryName? ≠ none
  edges : g.edges = #[]

/-- The graph that loading a document starts from. -/
def blank (d : Document) (properties : List Property) : Graph :=
  { new d.objectId with version := d.version, properties }

section Nodes

variable {r : NodeRegistry} {d : Document} {properties : List Property} {ns : List Node}

theorem node?_admitAll_blank (i : Nat) : ((blank d properties).admitAll ns).node? i = ns[i]? := by
  rw [node?, nodes_admitAll, blank, new]
  simp

/-- Admitting a node touches neither edges nor the head of the graph. -/
theorem admitAll_frame (g : Graph) (ns : List Node) :
    (g.admitAll ns).version = g.version ∧ (g.admitAll ns).objectId = g.objectId
      ∧ (g.admitAll ns).properties = g.properties ∧ (g.admitAll ns).edges = g.edges := by
  induction ns generalizing g with
  | nil => exact ⟨rfl, rfl, rfl, rfl⟩
  | cons n ns ih => exact ih (g.admitted n)

theorem fits_blank_iff {n : Node} :
    (blank d properties).Fits n ↔ (n.kind = .input → n.entryName? ≠ none) :=
  ⟨fun h => h.named, fun h => ⟨indexOf?_eq_none_iff.2 (by simp [blank, new]), h, fun _ _ => rfl⟩⟩

theorem named_blank : (blank d properties).Named := by
  intro name i
  constructor
  · intro h
    cases h
  · rintro ⟨n, hn, -⟩
    rw [node?, blank, new] at hn
    simp at hn

theorem hasNodes_admitAll_blank (hlen : ns.length = d.nodes.length)
    (hnodes : ∀ (i : Nat) n, ns[i]? = some n → n.IsAt r d i) :
    ((blank d properties).admitAll ns).HasNodes r d := by
  refine ⟨?_, fun i n hn => hnodes i n (by rwa [node?_admitAll_blank] at hn)⟩
  rw [nodes_admitAll, blank, new]
  simpa using hlen

theorem stocked_admitAll_blank (hlen : ns.length = d.nodes.length)
    (hnodes : ∀ (i : Nat) n, ns[i]? = some n → n.IsAt r d i ∧ n.bare = n)
    (hfits : ∀ n ∈ ns, (blank d properties).Fits n) (hpair : ns.Pairwise Node.Compatible) :
    ((blank d properties).admitAll ns).Stocked r d := by
  refine ⟨hasNodes_admitAll_blank hlen fun i n hn => (hnodes i n hn).1, fun i n hn => ?_, ?_,
    named_blank.admitAll hfits hpair, fun i n hn => ?_, (admitAll_frame _ ns).2.2.2⟩
  · rw [node?_admitAll_blank] at hn
    exact (hnodes i n hn).2
  · intro i j n m hn hm hsame
    rw [node?_admitAll_blank] at hn hm
    by_contra hne
    have hcompatible := (pairwise_iff_getElem?_ne Node.Compatible.symm).1 hpair i j n m hne hn hm
    exact hcompatible.id hsame
  · rw [node?_admitAll_blank] at hn
    exact (hfits n (List.mem_of_getElem? hn)).named

/-- The rules about nodes say that all of them are admitted. -/
theorem exists_stocked (h : d.WellFormed r) (properties : List Property) :
    ∃ ns, List.Forall₂ (fun row n => Node.ofRecord r row.1 row.2.1 row.2.2 = .ok n) (rowsOf d) ns
      ∧ (∀ n ∈ ns, (blank d properties).Fits n) ∧ ns.Pairwise Node.Compatible := by
  have hrows : ∀ row ∈ rowsOf d, ∃ n, Node.ofRecord r row.1 row.2.1 row.2.2 = .ok n := by
    intro row hrow
    obtain ⟨i, hi, hat⟩ := List.getElem_of_mem hrow
    obtain ⟨hrecord, hdata, -⟩ := (getElem?_rowsOf h.positions).1
      (hat ▸ List.getElem?_eq_getElem hi)
    obtain ⟨id, hid⟩ := NodeId.exists_parse?_iff.2 (h.nodeIds _ (List.mem_of_getElem? hrecord))
    obtain ⟨kind, hkind⟩ := h.binders _ (List.mem_of_getElem? hrecord)
    exact ⟨_, Node.ofRecord_eq_ok_iff.2
      ⟨h.payloads _ (List.mem_of_getElem? hdata), id, kind, hid, hkind, rfl⟩⟩
  obtain ⟨ns, hns⟩ := exists_forall₂ hrows
  obtain ⟨-, hlen, hnodes⟩ := (forall₂_ofRecord_iff h.data h.positions).1 hns
  have hg : ((blank d properties).admitAll ns).HasNodes r d :=
    hasNodes_admitAll_blank hlen fun i n hn => (hnodes i n hn).1
  -- From here on the rules of the document are read off the nodes.
  have hentry : ∀ (i : Nat) n, ns[i]? = some n → d.entryNameAt? r i = n.entryName? := by
    intro i n hn
    rw [hg.entryNameAt?_eq, node?_admitAll_blank, hn, Option.bind_some]
  refine ⟨ns, hns, fun n hn => fits_blank_iff.2 fun hinput hnone => ?_,
    (pairwise_iff_getElem?_ne Node.Compatible.symm).2 fun i j n m hne hn hm => ⟨?_, ?_⟩⟩
  · obtain ⟨i, hi, rfl⟩ := List.getElem_of_mem hn
    have hat := List.getElem?_eq_getElem hi
    obtain ⟨name, hname⟩ := h.entryNames i (by
      rw [hg.kindAt?_eq, node?_admitAll_blank, hat, Option.map_some, hinput])
    rw [hentry i _ hat, hnone] at hname
    cases hname
  · intro hsame
    exact hne (hg.distinctIds_iff.2 h.distinctIds i j n m (by rwa [node?_admitAll_blank])
      (by rwa [node?_admitAll_blank]) hsame)
  · intro name hn' hm'
    exact hne (h.distinctEntries i j name (by rw [hentry i n hn, hn']) (by rw [hentry j m hm, hm']))

end Nodes

/-! ## No edges -/

namespace Stocked

variable {r : NodeRegistry} {d : Document} {g : Graph}

theorem edgesAt_eq (h : g.Stocked r d) (p : PortRef) : g.edgesAt p = [] := by
  rw [edgesAt, h.edges]
  rfl

theorem port?_eq_none (h : g.Stocked r d) (p : PortRef) : g.port? p = none := by
  rw [port?]
  cases hn : g.node? p.node with
  | none => rfl
  | some n =>
    rw [Option.bind_some, ← h.bare _ n hn]
    cases p.direction <;> rfl

theorem consistent (h : g.Stocked r d) : g.Consistent := by
  refine ⟨fun k e he => ?_, fun e he => ?_, fun e he => ?_, fun p n hn => ?_⟩
  · simp [h.edges] at he
  · simp [h.edges] at he
  · simp [h.edges] at he
  · have hport := h.port?_eq_none p
    rw [port?_eq_of_node? hn] at hport
    rw [Node.portOrNew, hport, h.edgesAt_eq]
    rfl

theorem sparse (h : g.Stocked r d) : g.Sparse := by
  intro p port hport
  rw [h.port?_eq_none] at hport
  cases hport

end Stocked

end Graph

end BranchingDialogue
