import BranchingDialogue.Proofs.Document.Loading

/-!
# Documents that differ in notation only

An identifier can be written in several ways, and a payload too. Documents whose records denote the
same things are alike, and alike documents load to the same graph: `Document.Alike.ofDocument_iff`.
The proof goes through what the documents say as a whole, `Document.WellFormed` and
`Graph.Depicts`.
-/

namespace BranchingDialogue

/-- Two records are read as the same property. -/
structure PropertyRecord.Alike (p q : PropertyRecord) : Prop where
  id : Uuid.parse? p.id = Uuid.parse? q.id
  type : p.type = q.type
  name : p.name = q.name
  value : Value.ofJson p.value = Value.ofJson q.value

/-- Two records are read as the same node. -/
structure NodeRecord.Alike (n m : NodeRecord) : Prop where
  id : NodeId.parse? n.id = NodeId.parse? m.id
  viewType : n.viewType = m.viewType
  binder : n.binder = m.binder

/-- Two records name the same sockets. -/
structure EdgeRecord.Alike (e f : EdgeRecord) : Prop where
  node : ∀ side, NodeId.parse? (e.endpoint side).node = NodeId.parse? (f.endpoint side).node
  number : ∀ side, (e.endpoint side).number = (f.endpoint side).number

/-- Two JSON values are read as the same payload. -/
structure Json.AlikePayload (j k : Json) : Prop where
  readable : j.IsPayload ↔ k.IsPayload
  payload : j.payload = k.payload

/-- Two documents say the same. -/
structure Document.Alike (d d' : Document) : Prop where
  version : d.version = d'.version
  objectId : d.objectId = d'.objectId
  properties : List.Forall₂ PropertyRecord.Alike d.properties d'.properties
  nodes : List.Forall₂ NodeRecord.Alike d.nodes d'.nodes
  edges : List.Forall₂ EdgeRecord.Alike d.edges d'.edges
  positions : d.positions = d'.positions
  data : List.Forall₂ Json.AlikePayload d.data d'.data

theorem Property.IsOf.of_alike {p q : PropertyRecord} {x : Property} (h : p.Alike q)
    (hx : x.IsOf p) : x.IsOf q :=
  ⟨h.id.symm.trans hx.id, hx.type.trans h.type, hx.name.trans h.name, h.value.symm.trans hx.value⟩

namespace Document.Alike

variable {d d' : Document} {r : NodeRegistry}

theorem symm (h : d.Alike d') : d'.Alike d where
  version := h.version.symm
  objectId := h.objectId.symm
  properties := h.properties.flip.imp fun _ _ h =>
    ⟨h.id.symm, h.type.symm, h.name.symm, h.value.symm⟩
  nodes := h.nodes.flip.imp fun _ _ h => ⟨h.id.symm, h.viewType.symm, h.binder.symm⟩
  edges := h.edges.flip.imp fun _ _ h => ⟨fun side => (h.node side).symm,
    fun side => (h.number side).symm⟩
  positions := h.positions.symm
  data := h.data.flip.imp fun _ _ h => ⟨h.readable.symm, h.payload.symm⟩

/-! ## What the documents say of a node -/

theorem kindAt?_eq (h : d.Alike d') (i : Nat) : d.kindAt? r i = d'.kindAt? r i := by
  rw [kindAt?, kindAt?]
  rcases getElem?_of_forall₂ h.nodes i with ⟨hn, hm⟩ | ⟨n, m, hn, hm, halike⟩
  · rw [hn, hm]
  · rw [hn, hm, Option.bind_some, Option.bind_some, halike.binder]

theorem payloadAt_eq (h : d.Alike d') (i : Nat) : d.payloadAt i = d'.payloadAt i := by
  rw [payloadAt, payloadAt]
  rcases getElem?_of_forall₂ h.data i with ⟨hj, hk⟩ | ⟨j, k, hj, hk, halike⟩
  · rw [hj, hk]
  · rw [hj, hk, Option.getD_some, Option.getD_some, halike.payload]

theorem layoutAt?_eq (h : d.Alike d') (i : Nat) : d.layoutAt? r i = d'.layoutAt? r i := by
  rw [layoutAt?, layoutAt?, h.kindAt?_eq, h.payloadAt_eq]

theorem entryNameAt?_eq (h : d.Alike d') (i : Nat) : d.entryNameAt? r i = d'.entryNameAt? r i := by
  rw [entryNameAt?, entryNameAt?, h.kindAt?_eq, h.payloadAt_eq]

theorem names (h : d.Alike d') {s t : String} (hst : NodeId.parse? s = NodeId.parse? t) {i : Nat}
    (hs : d.Names s i) : d'.Names t i := by
  obtain ⟨hdigits, n, hn, hid⟩ := hs
  refine ⟨NodeId.exists_parse?_iff.1 (hst ▸ NodeId.exists_parse?_iff.2 hdigits), ?_⟩
  obtain ⟨m, hm, halike⟩ := exists_right_of_forall₂ h.nodes hn
  exact ⟨m, hm, by rw [← halike.id, hid, hst]⟩

theorem leads (h : d.Alike d') {e f : EdgeRecord} (hef : e.Alike f) {i j : Nat}
    (he : d.Leads r e i j) : d'.Leads r f i j := by
  have hnumber : e.input.number = f.input.number := hef.number .input
  have hnumber' : e.output.number = f.output.number := hef.number .output
  refine ⟨h.names (hef.node .output) he.output, h.names (hef.node .input) he.input, ?_, ?_, ?_⟩
  · rw [← h.layoutAt?_eq, ← hnumber']
    exact he.declaredOutput
  · rw [← h.layoutAt?_eq, ← hnumber]
    exact he.declaredInput
  · rw [← h.kindAt?_eq, ← hnumber]
    exact he.source

/-! ## What they say as a whole -/

theorem distinctIds (h : d.Alike d') :
    (d.nodes.map fun n => NodeId.parse? n.id) = d'.nodes.map fun n => NodeId.parse? n.id :=
  map_eq_of_forall₂ (h.nodes.imp fun _ _ h => h.id)

theorem wellFormed (h : d.Alike d') (hd : d.WellFormed r) : d'.WellFormed r where
  version := h.version ▸ hd.version
  data := by rw [← h.data.length_eq, ← h.nodes.length_eq, hd.data]
  positions := by
    rw [← h.positions, ← h.nodes.length_eq]
    exact hd.positions
  propertyIds q hq := by
    obtain ⟨p, hp, halike⟩ := exists_mem_of_forall₂ h.properties hq
    rw [← halike.id]
    exact hd.propertyIds p hp
  propertyValues q hq := by
    obtain ⟨p, hp, halike⟩ := exists_mem_of_forall₂ h.properties hq
    rw [← Value.exists_ofJson_iff, ← halike.value]
    exact Value.exists_ofJson (hd.propertyValues p hp)
  nodeIds m hm := by
    obtain ⟨n, hn, halike⟩ := exists_mem_of_forall₂ h.nodes hm
    rw [← NodeId.exists_parse?_iff, ← halike.id, NodeId.exists_parse?_iff]
    exact hd.nodeIds n hn
  distinctIds := h.distinctIds ▸ hd.distinctIds
  binders m hm := by
    obtain ⟨n, hn, halike⟩ := exists_mem_of_forall₂ h.nodes hm
    rw [← halike.binder]
    exact hd.binders n hn
  payloads k hk := by
    obtain ⟨j, hj, halike⟩ := exists_mem_of_forall₂ h.data hk
    exact halike.readable.1 (hd.payloads j hj)
  entryNames i := by
    rw [← h.kindAt?_eq, ← h.entryNameAt?_eq]
    exact hd.entryNames i
  distinctEntries i j := by
    simp only [← h.entryNameAt?_eq]
    exact hd.distinctEntries i j
  edges f hf := by
    obtain ⟨e, he, halike⟩ := exists_mem_of_forall₂ h.edges hf
    obtain ⟨i, j, hleads⟩ := hd.edges e he
    exact ⟨i, j, h.leads halike hleads⟩
  capacity := by
    refine (pairwise_iff_of_forall₂ h.edges fun {e e' f f'} hef hef' => ?_).1 hd.capacity
    -- What two edges share is told by the identifiers and numbers of their sockets.
    have hmeet : ∀ side i, d.Meet e e' side i ↔ d'.Meet f f' side i := by
      intro side i
      rw [Meet, Meet, hef.number side, hef'.number side]
      refine and_congr ⟨h.names (hef.node side), h.symm.names (hef.node side).symm⟩
        (and_congr_left' ⟨h.names (hef'.node side), h.symm.names (hef'.node side).symm⟩)
    simp only [hmeet, h.kindAt?_eq, hef.number]

theorem isAt (h : d.Alike d') {i : Nat} {n : Node} (hn : n.IsAt r d i) : n.IsAt r d' i := by
  obtain ⟨⟨record, hrecord, hid, hbinder, hview, hkind⟩, hpayload, hposition⟩ := hn
  refine ⟨?_, hpayload.trans (h.payloadAt_eq i), h.positions ▸ hposition⟩
  obtain ⟨m, hm, halike⟩ := exists_right_of_forall₂ h.nodes hrecord
  exact ⟨m, hm, halike.id ▸ hid, hbinder.trans halike.binder, hview.trans halike.viewType,
    halike.binder ▸ hkind⟩

theorem depicts (h : d.Alike d') {g : Graph} (hg : g.Depicts r d) : g.Depicts r d' where
  version := hg.version.trans h.version
  objectId := hg.objectId.trans h.objectId
  properties := by
    refine forall₂_iff_getElem?.2 ⟨h.properties.length_eq ▸ hg.properties.length_eq, ?_⟩
    intro i q x hq hx
    obtain ⟨p, hp, halike⟩ := exists_left_of_forall₂ h.properties hq
    exact ((forall₂_iff_getElem?.1 hg.properties).2 i p x hp hx).of_alike halike
  size := hg.size.trans h.nodes.length_eq
  nodes i n hn := h.isAt (hg.nodes i n hn)
  index id i := by
    rw [hg.index]
    rcases getElem?_of_forall₂ h.nodes i with ⟨hn, hm⟩ | ⟨n, m, hn, hm, halike⟩
    · simp [hn, hm]
    · simp [hn, hm, halike.id]
  edgeCount := hg.edgeCount.trans h.edges.length_eq
  edges k f hf := by
    obtain ⟨e, he, halike⟩ := exists_left_of_forall₂ h.edges hf
    obtain ⟨i, j, hi, hj, hk⟩ := hg.edges k e he
    have hnumber : e.input.number = f.input.number := halike.number .input
    have hnumber' : e.output.number = f.output.number := halike.number .output
    exact ⟨i, j, h.names (halike.node .output) hi, h.names (halike.node .input) hj,
      by rw [hk, hnumber, hnumber']⟩
  ports := hg.ports
  entries name i := by rw [hg.entries, h.entryNameAt?_eq]

/-- **Alike documents load to the same graph**, or both to none. -/
theorem ofDocument_iff (h : d.Alike d') {g : Graph} :
    Graph.ofDocument r d = .ok g ↔ Graph.ofDocument r d' = .ok g := by
  rw [Graph.ofDocument_eq_ok_iff, Graph.ofDocument_eq_ok_iff]
  exact ⟨fun ⟨hwell, hg⟩ => ⟨h.wellFormed hwell, h.depicts hg⟩,
    fun ⟨hwell, hg⟩ => ⟨h.symm.wellFormed hwell, h.symm.depicts hg⟩⟩

end Document.Alike

end BranchingDialogue
