import BranchingDialogue.Document.Read
import BranchingDialogue.Document.Save
import BranchingDialogue.Proofs.Document.Alike
import BranchingDialogue.Proofs.Stored

/-!
# Loading what was written

The document written for a loaded graph is the one it was loaded from, in normal form:
`Document.normal` writes identifiers in one way, gives null payloads as empty objects and whole
numbers as they were read. A document and its normal form are alike, so the graph is loaded again
as it is, with its ports and entries: `ofDocument_toDocument`.
-/

namespace BranchingDialogue

/-! ## Normal form -/

/-- A property's record with its identifier in 32 digits and its value as it was read. -/
def PropertyRecord.normal (p : PropertyRecord) : PropertyRecord :=
  { p with
    id := match Uuid.parse? p.id with
      | some id => id.simple
      | none => p.id
    value := p.value.normal }

/-- A node's record with its identifier in lower case. -/
def NodeRecord.normal (n : NodeRecord) : NodeRecord := { n with id := lowered n.id }

/-- An edge's end with its node's identifier in lower case. -/
def PortRecord.normal (p : PortRecord) : PortRecord := { p with node := lowered p.node }

/-- An edge's record with identifiers in lower case. -/
def EdgeRecord.normal (e : EdgeRecord) : EdgeRecord := ⟨e.output.normal, e.input.normal⟩

/-- A document as it is written after loading; version, name, positions and all order stay. -/
def Document.normal (d : Document) : Document :=
  { d with
    properties := d.properties.map PropertyRecord.normal
    nodes := d.nodes.map NodeRecord.normal
    edges := d.edges.map EdgeRecord.normal
    data := d.data.map Json.normalPayload }

theorem NodeId.parse?_lowered {s : String} (h : IsDigits s) : parse? (lowered s) = parse? s := by
  obtain ⟨id, hid⟩ := exists_parse?_iff.2 h
  rw [← simple_of_parse? hid, parse?_simple, hid]

theorem PropertyRecord.alike_normal {p : PropertyRecord} (h : ∃ id, Uuid.parse? p.id = some id) :
    p.Alike p.normal := by
  obtain ⟨id, hid⟩ := h
  refine ⟨?_, rfl, rfl, (Value.ofJson_normal p.value).symm⟩
  rw [normal, hid]
  exact (Uuid.parse?_simple id).symm

theorem NodeRecord.alike_normal {n : NodeRecord} (h : NodeId.IsDigits n.id) : n.Alike n.normal :=
  ⟨(NodeId.parse?_lowered h).symm, rfl, rfl⟩

theorem EdgeRecord.alike_normal {e : EdgeRecord}
    (h : ∀ side, NodeId.IsDigits (e.endpoint side).node) :
    e.Alike e.normal := by
  refine ⟨fun side => ?_, fun side => ?_⟩
  · cases side with
    | input => exact (NodeId.parse?_lowered (h .input)).symm
    | output => exact (NodeId.parse?_lowered (h .output)).symm
  · cases side <;> rfl

theorem Json.alikePayload_toMembers {j : Json} (h : j.IsPayload) :
    j.AlikePayload (.object j.payload.toMembers) :=
  ⟨⟨fun _ => Payload.isPayload_toMembers (Payload.storable_payload j), fun _ => h⟩,
    (Payload.payload_toMembers (Payload.storable_payload j)).symm⟩

/-! ## What is written -/

theorem Property.record_eq_normal {record : PropertyRecord} {p : Property} (h : p.IsOf record) :
    p.record = record.normal := by
  obtain ⟨hid, htype, hname, hvalue⟩ := h
  rw [Property.record, PropertyRecord.normal, hid, htype, hname, Value.toJson_eq_normal hvalue]

namespace Graph

variable {r : NodeRegistry} {d : Document} {g : Graph}

theorem Depicts.node_record (h : g.Depicts r d) {i : Nat} {n : Node} (hn : g.node? i = some n) :
    ∃ record, d.nodes[i]? = some record ∧ n.id.simple = lowered record.id
      ∧ n.record = record.normal := by
  obtain ⟨record, hrecord, hid, hbinder, hview, -⟩ := (h.nodes i n hn).record
  have hsimple := NodeId.simple_of_parse? hid
  refine ⟨record, hrecord, hsimple, ?_⟩
  rw [Node.record, NodeRecord.normal, hsimple, hview, hbinder]

/-- A list made node by node runs parallel to the nodes of the document. -/
theorem Depicts.forall₂_nodes (h : g.Depicts r d) {β : Type} {R : Node → β → Prop} {ys : List β}
    (hlen : ys.length = d.nodes.length)
    (hR : ∀ (i : Nat) n y, g.node? i = some n → ys[i]? = some y → R n y) :
    List.Forall₂ R g.nodes.toList ys := by
  refine forall₂_iff_getElem?.2 ⟨by rw [Array.length_toList, h.size, hlen], fun i n y hn hy => ?_⟩
  rw [Array.getElem?_toList] at hn
  exact hR i n y hn hy

theorem Depicts.nodes_toDocument (h : g.Depicts r d) :
    g.toDocument.nodes = d.nodes.map NodeRecord.normal := by
  refine map_eq_of_forall₂ (h.forall₂_nodes rfl fun i n record hn hrecord => ?_)
  obtain ⟨record', hrecord', -, heq⟩ := h.node_record hn
  rw [hrecord, Option.some.injEq] at hrecord'
  rw [heq, hrecord']

theorem Depicts.data_toDocument (h : g.Depicts r d) (hd : d.WellFormed r) :
    g.toDocument.data = d.data.map fun j => .object j.payload.toMembers := by
  refine map_eq_of_forall₂ (h.forall₂_nodes hd.data fun i n j hn hj => ?_)
  rw [(h.nodes i n hn).payload, Document.payloadAt, hj, Option.getD_some]

theorem Depicts.positions_toDocument (h : g.Depicts r d) (hd : d.WellFormed r) :
    g.toDocument.positions = d.positions := by
  show g.positions = d.positions
  rw [positions]
  -- Positions are written where a node has one; either none of them has, or all.
  rcases hd.positions with hnone | hall
  · have hany : g.nodes.toList.any (·.position.isSome) = false := by
      rw [List.any_eq_false]
      intro n hn
      obtain ⟨i, hi, rfl⟩ := List.getElem_of_mem hn
      have hat : g.node? i = some g.nodes.toList[i] := by
        rw [node?, ← Array.getElem?_toList, List.getElem?_eq_getElem hi]
      rw [(h.nodes i _ hat).position, hnone]
      simp
    rw [hany, hnone]
    rfl
  · have hpositions : List.Forall₂ (fun n p => n.position = some p) g.nodes.toList d.positions :=
      h.forall₂_nodes hall fun i n p hn hp => by rw [(h.nodes i n hn).position, hp]
    split
    · have hmap := map_eq_of_forall₂ (f := fun n : Node => n.position.getD ⟨0, 0⟩)
        (g := fun p : Position => p) (hpositions.imp fun n p h => by rw [h, Option.getD_some])
      rw [hmap, List.map_id']
    · -- No node has a position though each should have: there are none.
      next hany =>
      generalize g.nodes.toList = ns at hpositions hany
      generalize d.positions = ps at hpositions
      cases hpositions with
      | nil => rfl
      | cons hhead _ => simp [hhead] at hany

theorem Depicts.portRecord?_eq (h : g.Depicts r d) {text : String} {i : Nat} (hi : d.Names text i)
    (side : Direction) (number : Int) :
    g.portRecord? ⟨i, side, number⟩ = some ⟨lowered text, number⟩ := by
  obtain ⟨id, hid, n, hn, rfl⟩ := h.hasNodes.names_iff.1 hi
  rw [portRecord?, hn, Option.map_some, NodeId.simple_of_parse? hid]

theorem Depicts.edges_toDocument (h : g.Depicts r d) :
    g.toDocument.edges = d.edges.map EdgeRecord.normal := by
  refine filterMap_of_forall₂ ?_
  rw [List.forall₂_map_right_iff]
  refine forall₂_iff_getElem?.2 ⟨by rw [Array.length_toList, h.edgeCount], fun k edge e hk he => ?_⟩
  obtain ⟨i, j, hi, hj, hedge⟩ := h.edges k e he
  rw [Array.getElem?_toList, hedge, Option.some.injEq] at hk
  subst hk
  rw [edgeRecord?, PortRef.output, PortRef.input, h.portRecord?_eq hi, h.portRecord?_eq hj]
  rfl

theorem Depicts.properties_toDocument (h : g.Depicts r d) :
    g.toDocument.properties = d.properties.map PropertyRecord.normal :=
  (map_eq_of_forall₂ (h.properties.imp fun _ _ h => (Property.record_eq_normal h).symm)).symm

/-- The document of a graph and the one it was loaded from are alike. -/
theorem Depicts.alike_toDocument (h : g.Depicts r d) (hd : d.WellFormed r) :
    d.Alike g.toDocument where
  version := h.version.symm
  objectId := h.objectId.symm
  properties := by
    rw [h.properties_toDocument]
    exact forall₂_map_self fun p hp => PropertyRecord.alike_normal (hd.propertyIds p hp)
  nodes := by
    rw [h.nodes_toDocument]
    exact forall₂_map_self fun n hn => NodeRecord.alike_normal (hd.nodeIds n hn)
  edges := by
    rw [h.edges_toDocument]
    refine forall₂_map_self fun e he => EdgeRecord.alike_normal fun side => ?_
    obtain ⟨i, j, hleads⟩ := hd.edges e he
    cases side with
    | input => exact hleads.input.1
    | output => exact hleads.output.1
  positions := (h.positions_toDocument hd).symm
  data := by
    rw [h.data_toDocument hd]
    exact forall₂_map_self fun j hj => Json.alikePayload_toMembers (hd.payloads j hj)

/-- The document of a graph is the one it was loaded from, in normal form. -/
theorem Depicts.toDocument_eq_normal (h : g.Depicts r d) (hd : d.WellFormed r)
    (hordered : ∀ j ∈ d.data, j.Ordered) : g.toDocument = d.normal := by
  have hdata : g.toDocument.data = d.data.map Json.normalPayload := by
    rw [h.data_toDocument hd]
    exact List.map_congr_left fun j hj =>
      Payload.toMembers_payload (hd.payloads j hj) (hordered j hj)
  have hversion : g.toDocument.version = d.version := h.version
  have hobject : g.toDocument.objectId = d.objectId := h.objectId
  rw [Document.normal, ← hdata, ← h.nodes_toDocument, ← h.edges_toDocument,
    ← h.properties_toDocument, ← hversion, ← hobject, ← h.positions_toDocument hd]

end Graph

/-! ## Documents that were read -/

/-- The payloads gathered so far have a property. -/
def Document.Draft.Holds (P : Json → Prop) (draft : Document.Draft) : Prop :=
  ∀ js, draft.data = some js → ∀ j ∈ js, P j

section Read

variable {P : Json → Prop}

/-- Only one field of a document is about payloads. -/
theorem Document.Draft.Holds.field
    (hread : ∀ cs j rest, Json.readValue (Json.depthLimit - 2) cs = .ok (j, rest) → P j)
    {f : Json.Field Document.Draft} (hf : f ∈ Document.kind.fields) {cs rest : List Char}
    {draft draft' : Document.Draft} (h : draft.Holds P)
    (hfield : f.read cs draft = .ok (draft', rest)) : draft'.Holds P := by
  simp only [Document.kind, List.mem_cons, List.not_mem_nil, or_false] at hf
  rcases hf with rfl | rfl | rfl | rfl | rfl | rfl | rfl
  · exact Json.RecordKind.required_keeps hfield fun _ _ _ _ => h
  · exact Json.RecordKind.defaulted_keeps hfield fun _ _ _ _ => h
  · exact Json.RecordKind.defaulted_keeps hfield fun _ _ _ _ => h
  · exact Json.RecordKind.required_keeps hfield fun _ _ _ _ => h
  · exact Json.RecordKind.defaulted_keeps hfield fun _ _ _ _ => h
  · exact Json.RecordKind.defaulted_keeps hfield fun _ _ _ _ => h
  · refine Json.RecordKind.defaulted_keeps hfield fun _ js _ hjs js' heq => ?_
    cases heq
    exact Json.forall_mem_of_listValue hread hjs

/-- The payloads of a document that was read have what values have that are read. -/
theorem Document.forall_data_of_read
    (hread : ∀ cs j rest, Json.readValue (Json.depthLimit - 2) cs = .ok (j, rest) → P j)
    {text : String} {limit : Nat} {d : Document} (h : Document.read text limit = .ok d) :
    ∀ j ∈ d.data, P j := by
  rw [Document.read] at h
  split at h
  · cases h
  · split at h
    · next d hwhole =>
      cases h
      obtain ⟨rest, hread'⟩ := Json.exists_of_whole hwhole
      obtain ⟨draft, hdraft, hfinish⟩ := Json.RecordKind.exists_of_read
        (fun f hf _ _ _ _ => Document.Draft.Holds.field hread hf) (fun _ hjs => nomatch hjs) hread'
      simp only [Document.kind, Option.bind_eq_bind, Option.bind_eq_some_iff,
        Option.some.injEq] at hfinish
      obtain ⟨version, -, nodes, -, rfl⟩ := hfinish
      cases hdata : draft.data with
      | none => exact List.forall_mem_nil _
      | some js => exact hdraft js hdata
    · cases h

/-- A document that was read lists the members of its payloads in order. -/
theorem Document.ordered_of_read {text : String} {limit : Nat} {d : Document}
    (h : Document.read text limit = .ok d) : ∀ j ∈ d.data, j.Ordered :=
  Document.forall_data_of_read (fun _ _ _ => Json.ordered_of_readValue) h

end Read

namespace Graph

variable {r : NodeRegistry} {d : Document} {g : Graph}

/-- **Writing a loaded graph and loading it again loses nothing.** The graph comes back with all its
ports, edge lists and entries; what is written is what was read, in normal form, provided that the
objects of the document list their members in order, as they do in every document that was read from
a text; and written a second time it does not change. -/
theorem ofDocument_toDocument (h : ofDocument r d = .ok g) :
    ofDocument r g.toDocument = .ok g
      ∧ ((∀ j ∈ d.data, j.Ordered) → g.toDocument = d.normal)
      ∧ (∀ text limit, Document.read text limit = .ok d → g.toDocument = d.normal)
      ∧ ∀ g', ofDocument r g.toDocument = .ok g' → g'.toDocument = g.toDocument := by
  obtain ⟨hwell, hdepicts⟩ := ofDocument_eq_ok_iff.1 h
  have hagain := (hdepicts.alike_toDocument hwell).ofDocument_iff.1 h
  have hnormal := hdepicts.toDocument_eq_normal hwell
  refine ⟨hagain, hnormal, fun text limit hread => hnormal (Document.ordered_of_read hread),
    fun g' hg' => ?_⟩
  rw [hagain, Except.ok.injEq] at hg'
  rw [hg']

/-- A document that is not in normal form: its identifiers have upper-case letters and hyphens, a
payload is missing, and a whole number is too large for 64 bits with a sign. -/
def unusualDocument : Document where
  version := 1
  objectId := "unusual"
  properties :=
    [⟨"6F1C2A4E-1B2C-4D3E-9F00-AABBCCDDEEFF", "Int", "coins",
      .integer ⟨0x8000000000000000, by decide⟩⟩]
  nodes :=
    [⟨"AAAAAAAAAAAAAAAAAAAAAAAAAAAAAAAA", "InputNode", "Input"⟩,
      ⟨"bbbbbbbbbbbbbbbbbbbbbbbbbbbbbbbb", "DialogueNode", "Dialogue"⟩]
  edges :=
    [⟨⟨"aaaaaaaaaaaaaaaaaaaaaaaaaaaaaaaa", 0⟩, ⟨"BBBBBBBBBBBBBBBBBBBBBBBBBBBBBBBB", 0⟩⟩]
  positions := []
  data :=
    [.object
      [("inputName", .text "start"), ("weight", .integer ⟨0x8000000000000000, by decide⟩)],
      .null]

theorem ofDocument_toDocument_unusual :
    ∃ g, ofDocument .builtin unusualDocument = .ok g ∧ ofDocument .builtin g.toDocument = .ok g
      ∧ g.toDocument = unusualDocument.normal := by
  have hloads : (ofDocument .builtin unusualDocument).isOk = true := by decide +kernel
  cases hg : ofDocument .builtin unusualDocument with
  | error e =>
    rw [hg] at hloads
    cases hloads
  | ok g =>
    obtain ⟨hagain, hnormal, -⟩ := ofDocument_toDocument hg
    refine ⟨g, rfl, hagain, hnormal fun j hj => ?_⟩
    simp only [unusualDocument, List.mem_cons, List.not_mem_nil, or_false] at hj
    rcases hj with rfl | rfl
    · rw [Json.Ordered, List.pairwise_cons]
      refine ⟨fun m hm => ?_, List.pairwise_singleton _ _⟩
      rw [List.mem_singleton.1 hm]
      decide
    · trivial

end Graph

end BranchingDialogue
