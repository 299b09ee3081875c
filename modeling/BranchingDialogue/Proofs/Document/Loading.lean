import BranchingDialogue.Proofs.Document.Stocked

/-!
# Loading accepts exactly the well-formed documents

Loading goes through a document in order and checks each record against the graph built so far.
`Document.WellFormed` and `Graph.Depicts` know no order. Between the two stands `Graph.Stocked`, the
graph when all nodes and no edges are in: the checks of edges against the growing graph are checks
against it, and those are statements about the document.

Main results:
- `ofDocument_eq_ok_iff`: a document loads to a graph exactly when it is well-formed and describes
  it.
- `loads_iff_wellFormed`: loading succeeds on the well-formed documents and on no other, and gives
  the graph that is described and no other.
-/

namespace BranchingDialogue

theorem Property.ofRecord_eq_ok_iff {record : PropertyRecord} {p : Property} :
    Property.ofRecord record = .ok p ↔ p.IsOf record := by
  rw [Property.ofRecord]
  constructor
  · intro h
    split at h
    · cases h
    · next id hid =>
      split at h
      · cases h
      · next v hv =>
        cases h
        exact ⟨hid, rfl, rfl, hv⟩
  · rintro ⟨hid, htype, hname, hvalue⟩
    rw [hid, hvalue, ← htype, ← hname]

namespace Graph

/-! ## Edges -/

/-- Of two edges at one port, the port takes many: said of the document and of the ports found. -/
theorem HasNodes.capacity_iff {r : NodeRegistry} {d : Document} {g : Graph} (h : g.HasNodes r d)
    (hids : g.DistinctIds) {ends : List (PortRef × PortRef)}
    (hall : List.Forall₂ g.ResolvesEdge d.edges ends) :
    (d.edges.Pairwise fun e f => ∀ side i kind, d.Meet e f side i →
        d.kindAt? r i = some kind → kind.capacity side (e.endpoint side).number = .multi)
      ↔ ends.Pairwise fun a b => a.2 = b.2 → g.TakesMany b.2 := by
  have hnodup := h.distinctIds_iff.1 hids
  refine pairwise_iff_of_forall₂ hall fun {e f a b} ha hb => ?_
  obtain ⟨i, j, hleads, rfl⟩ := (h.resolvesEdge_iff hids).1 ha
  obtain ⟨i', j', hleads', rfl⟩ := (h.resolvesEdge_iff hids).1 hb
  constructor
  · intro hcap heq n hn
    simp only [PortRef.input, PortRef.mk.injEq, true_and] at heq
    obtain ⟨rfl, hnumber⟩ := heq
    show n.kind.capacity .input f.input.number = .multi
    rw [← hnumber]
    refine hcap .input j n.kind ⟨hleads.input, hleads'.input, hnumber⟩ ?_
    rw [h.kindAt?_eq]
    exact congrArg (Option.map Node.kind) hn
  · rintro hcap side k kind ⟨he, hf, hnumber⟩ hkind
    -- Outputs take many edges whatever their number, so only inputs can be too full.
    cases side with
    | output => exact capacity_output kind _
    | input =>
      obtain rfl := he.eq hnodup hleads.input
      obtain rfl := hf.eq hnodup hleads'.input
      rw [h.kindAt?_eq, Option.map_eq_some_iff] at hkind
      obtain ⟨n, hn, rfl⟩ := hkind
      rw [hnumber]
      exact hcap (congrArg (PortRef.input k) hnumber) n hn

/-! ## The whole document -/

theorem mismatch?_eq_none_iff {d : Document} :
    mismatch? d = none
      ↔ d.data.length = d.nodes.length
        ∧ (d.positions = [] ∨ d.positions.length = d.nodes.length) := by
  rw [mismatch?]
  by_cases hdata : d.data.length = d.nodes.length
  · by_cases hempty : d.positions = []
    · simp [hdata, hempty]
    · by_cases hpos : d.positions.length = d.nodes.length
      · simp [hdata, hpos]
      · simp [hdata, hempty, hpos]
  · simp [hdata]

/-- Rows are admitted if each is read as a node, and those are admitted. -/
theorem foldlM_admitRow_eq_ok_iff {g g' : Graph} {r : NodeRegistry}
    {rows : List (NodeRecord × Json × Option Position)} :
    rows.foldlM (m := Except DocumentError) (fun g (record, data, position) =>
        match Node.ofRecord r record data position with
        | .error e => .error e
        | .ok n => g.admitNode n) g = .ok g'
      ↔ ∃ ns, List.Forall₂ (fun row n => Node.ofRecord r row.1 row.2.1 row.2.2 = .ok n) rows ns
        ∧ (∀ n ∈ ns, g.Fits n) ∧ ns.Pairwise Node.Compatible ∧ g' = g.admitAll ns := by
  simp only [← foldlM_admitNode_eq_ok_iff]
  refine foldlM_read_eq_ok_iff fun {g row g'} => ?_
  cases hn : Node.ofRecord r row.1 row.2.1 row.2.2 with
  | error e => simp
  | ok n => simp

theorem admitNodes_eq_ok_iff {g g' : Graph} {r : NodeRegistry} {d : Document} :
    g.admitNodes r d = .ok g'
      ↔ ∃ ns, List.Forall₂ (fun row n => Node.ofRecord r row.1 row.2.1 row.2.2 = .ok n)
            (rowsOf d) ns
        ∧ (∀ n ∈ ns, g.Fits n) ∧ ns.Pairwise Node.Compatible ∧ g' = g.admitAll ns :=
  foldlM_admitRow_eq_ok_iff

theorem admitEdges_eq_ok_iff {g g' : Graph} (hc : g.Consistent) {d : Document} :
    g.admitEdges d = .ok g'
      ↔ ∃ ends, List.Forall₂ g.ResolvesEdge d.edges ends ∧ (∀ e ∈ ends, g.Free e.2)
          ∧ ends.Pairwise (fun a b => a.2 = b.2 → g.TakesMany b.2) ∧ g' = g.joinAll ends := by
  have hrecords : ∀ ends, List.Forall₂ g.ResolvesEdge d.edges ends
      ↔ List.Forall₂ (fun r e => g.ResolvesEdge r.1 e) d.edges.zipIdx ends := by
    intro ends
    rw [← List.forall₂_map_left_iff (f := Prod.fst) (R := g.ResolvesEdge), List.zipIdx_map_fst]
  simp only [hrecords]
  exact foldlM_admitEdge_eq_ok_iff hc

/-- The checks of a document in their order. -/
theorem ofDocument_eq_ok_iff_stages {r : NodeRegistry} {d : Document} {g : Graph} :
    ofDocument r d = .ok g
      ↔ d.version ≤ 1
        ∧ (d.data.length = d.nodes.length
          ∧ (d.positions = [] ∨ d.positions.length = d.nodes.length))
        ∧ ∃ properties, List.Forall₂ (fun record p => p.IsOf record) d.properties properties
          ∧ ∃ g₁, (blank d properties).admitNodes r d = .ok g₁ ∧ g₁.admitEdges d = .ok g := by
  rw [← mismatch?_eq_none_iff, ofDocument]
  have hproperties : ∀ properties, d.properties.mapM Property.ofRecord = .ok properties
      ↔ List.Forall₂ (fun record p => p.IsOf record) d.properties properties := by
    intro properties
    rw [mapM_eq_ok_iff]
    simp only [Property.ofRecord_eq_ok_iff]
  simp only [← hproperties]
  -- Each check ends the load at its first error, so the cases follow the checks in their order.
  by_cases hversion : d.version ≤ 1
  · cases hmismatch : mismatch? d with
    | some e => simp [isSupported, formatVersion, hversion]
    | none =>
      cases hp : d.properties.mapM Property.ofRecord with
      | error e => simp [isSupported, formatVersion, hversion]
      | ok properties =>
        cases hg : (blank d properties).admitNodes r d with
        | error e =>
          rw [blank] at hg
          simp [isSupported, formatVersion, hversion, blank, hg]
        | ok g₁ =>
          rw [blank] at hg
          simp [isSupported, formatVersion, hversion, blank, hg]
  · simp [isSupported, formatVersion, hversion]

section Whole

variable {r : NodeRegistry} {d : Document} {g g₁ : Graph}

theorem HasNodes.exists_node (h : g.HasNodes r d) {i : Nat} {record : NodeRecord}
    (hrecord : d.nodes[i]? = some record) :
    ∃ n, g.node? i = some n ∧ NodeId.parse? record.id = some n.id
      ∧ r.resolve? record.binder = some n.kind := by
  obtain ⟨hi, -⟩ := List.getElem?_eq_some_iff.1 hrecord
  obtain ⟨n, hn⟩ := h.exists_node? hi
  obtain ⟨record', hrecord', hid, -, -, hkind⟩ := (h.nodes i _ hn).record
  rw [hrecord, Option.some.injEq] at hrecord'
  subst hrecord'
  exact ⟨_, hn, hid, hkind⟩

theorem Depicts.hasNodes (h : g.Depicts r d) : g.HasNodes r d := ⟨h.size, h.nodes⟩

/-- The rules about edges, where all nodes are in. -/
theorem Stocked.admitEdges_eq_ok_iff (h : g₁.Stocked r d) :
    g₁.admitEdges d = .ok g
      ↔ ∃ ends, List.Forall₂ g₁.ResolvesEdge d.edges ends
          ∧ ends.Pairwise (fun a b => a.2 = b.2 → g₁.TakesMany b.2) ∧ g = g₁.joinAll ends := by
  rw [Graph.admitEdges_eq_ok_iff h.consistent]
  refine exists_congr fun ends => and_congr_right fun _ => ?_
  -- There are no edges yet, so every port is free for the first one.
  refine ⟨fun h => h.2, fun hends => ⟨fun e _ hne => absurd (h.edgesAt_eq e.2) hne, hends⟩⟩

/-- The nodes that were admitted obey the rules about nodes. -/
theorem Stocked.wellFormed (h : g₁.Stocked r d) (hversion : d.version ≤ 1)
    (hdata : d.data.length = d.nodes.length)
    (hpos : d.positions = [] ∨ d.positions.length = d.nodes.length)
    {properties : List Property}
    (hproperties : List.Forall₂ (fun record p => p.IsOf record) d.properties properties)
    (hpayloads : ∀ j ∈ d.data, j.IsPayload)
    {ends : List (PortRef × PortRef)} (hall : List.Forall₂ g₁.ResolvesEdge d.edges ends)
    (hcap : ends.Pairwise fun a b => a.2 = b.2 → g₁.TakesMany b.2) : d.WellFormed r := by
  have hread : ∀ record ∈ d.properties, ∃ p : Property, p.IsOf record := fun record hrecord => by
    obtain ⟨i, hi⟩ := List.mem_iff_getElem?.1 hrecord
    obtain ⟨p, -, hp⟩ := exists_right_of_forall₂ hproperties hi
    exact ⟨p, hp⟩
  have hnode : ∀ record ∈ d.nodes, ∃ n : Node, NodeId.parse? record.id = some n.id
      ∧ r.resolve? record.binder = some n.kind := fun record hrecord => by
    obtain ⟨i, hi, rfl⟩ := List.getElem_of_mem hrecord
    obtain ⟨n, -, hn⟩ := h.exists_node (List.getElem?_eq_getElem hi)
    exact ⟨n, hn⟩
  refine
    { version := hversion
      data := hdata
      positions := hpos
      propertyIds := fun record hrecord => ?_
      propertyValues := fun record hrecord => ?_
      nodeIds := fun record hrecord => ?_
      distinctIds := h.distinctIds_iff.1 h.distinctIds
      binders := fun record hrecord => ?_
      payloads := hpayloads
      entryNames := fun i hkind => ?_
      distinctEntries := fun i j name hi hj => ?_
      edges := fun e he => ?_
      capacity := (h.capacity_iff h.distinctIds hall).2 hcap }
  · obtain ⟨p, hp⟩ := hread record hrecord
    exact ⟨p.id, hp.id⟩
  · obtain ⟨p, hp⟩ := hread record hrecord
    exact Value.isPlain_of_ofJson hp.value
  · obtain ⟨n, hid, -⟩ := hnode record hrecord
    exact NodeId.exists_parse?_iff.1 ⟨n.id, hid⟩
  · obtain ⟨n, -, hkind⟩ := hnode record hrecord
    exact ⟨n.kind, hkind⟩
  · rw [h.kindAt?_eq, Option.map_eq_some_iff] at hkind
    obtain ⟨n, hn, hinput⟩ := hkind
    rw [h.entryNameAt?_eq, hn, Option.bind_some]
    exact Option.ne_none_iff_exists'.1 (h.inputs i n hn hinput)
  · rw [h.entryNameAt?_eq, Option.bind_eq_some_iff, ← h.named] at hi hj
    exact Option.some.inj (hi.symm.trans hj)
  · obtain ⟨k, hk⟩ := List.mem_iff_getElem?.1 he
    obtain ⟨_, -, hresolves⟩ := exists_right_of_forall₂ hall hk
    obtain ⟨i, j, hleads, -⟩ := (h.resolvesEdge_iff h.distinctIds).1 hresolves
    exact ⟨i, j, hleads⟩

/-- Joining the ends of all edges gives the graph that the document describes. -/
theorem Stocked.depicts (h : g₁.Stocked r d) (hversion : g₁.version = d.version)
    (hobject : g₁.objectId = d.objectId)
    (hproperties : List.Forall₂ Property.IsOf d.properties g₁.properties)
    {ends : List (PortRef × PortRef)} (hall : List.Forall₂ g₁.ResolvesEdge d.edges ends) :
    (g₁.joinAll ends).Depicts r d := by
  obtain ⟨hversion', hobject', hproperties', hentries⟩ := joinAll_frame g₁ ends
  have hframe := bareNodes_joinAll g₁ ends
  obtain ⟨hconsistent, hsparse⟩ := consistent_joinAll h.consistent h.sparse hall
  have hedges := edges_joinAll g₁ ends
  rw [h.edges, List.nil_append] at hedges
  refine
    { version := hversion'.trans hversion
      objectId := hobject'.trans hobject
      properties := hproperties' ▸ hproperties
      size := ?_
      nodes := fun i n hn => ?_
      index := fun id i => ?_
      edgeCount := ?_
      edges := fun k e he => ?_
      ports := fun p n hn => hconsistent.port?_eq hsparse hn
      entries := fun name i => ?_ }
  · rw [← size_bareNodes, hframe, size_bareNodes, h.size]
  · obtain ⟨n₁, hn₁, hbare⟩ := exists_node?_of_bareNodes hframe.symm hn
    exact (h.nodes i n₁ hn₁).of_bare hbare.symm
  · rw [indexOf?_of_bareNodes hframe, indexOf?_eq_some_iff h.distinctIds]
    exact h.record_iff.symm
  · rw [← Array.length_toList, hedges, List.length_mapIdx, hall.length_eq]
  · obtain ⟨_, hends, hresolves⟩ := exists_right_of_forall₂ hall he
    obtain ⟨i, j, hleads, rfl⟩ := (h.resolvesEdge_iff h.distinctIds).1 hresolves
    refine ⟨i, j, hleads.output, hleads.input, ?_⟩
    rw [← Array.getElem?_toList, hedges, List.getElem?_mapIdx, hends, Option.map_some]
    simp
  · rw [ entry?, hentries, h.entryNameAt?_eq, Option.bind_eq_some_iff]
    exact h.named name i

/-- What has been loaded obeys every rule and is what the document describes. -/
theorem wellFormed_and_depicts (h : ofDocument r d = .ok g) : d.WellFormed r ∧ g.Depicts r d := by
  obtain ⟨hversion, ⟨hdata, hpos⟩, properties, hproperties, g₁, hg₁, hg⟩ :=
    ofDocument_eq_ok_iff_stages.1 h
  obtain ⟨ns, hns, hfits, hpair, rfl⟩ := admitNodes_eq_ok_iff.1 hg₁
  obtain ⟨hpayloads, hlen, hnodes⟩ := (forall₂_ofRecord_iff hdata hpos).1 hns
  have hstocked := stocked_admitAll_blank hlen hnodes hfits hpair
  obtain ⟨ends, hall, hcap, rfl⟩ := hstocked.admitEdges_eq_ok_iff.1 hg
  obtain ⟨hversion', hobject, hproperties', -⟩ := admitAll_frame (blank d properties) ns
  exact ⟨hstocked.wellFormed hversion hdata hpos hproperties hpayloads hall hcap,
    hstocked.depicts hversion' hobject (hproperties'.symm ▸ hproperties) hall⟩

/-- Nothing but the rules is checked. -/
theorem exists_ofDocument (h : d.WellFormed r) : ∃ g, ofDocument r d = .ok g := by
  have hread : ∀ record ∈ d.properties, ∃ p : Property, p.IsOf record := by
      intro record hrecord
      obtain ⟨id, hid⟩ := h.propertyIds record hrecord
      obtain ⟨v, hv⟩ := Value.exists_ofJson (h.propertyValues record hrecord)
      exact ⟨⟨id, record.type, record.name, v⟩, hid, rfl, rfl, hv⟩
  obtain ⟨properties, hproperties⟩ := exists_forall₂ hread
  obtain ⟨ns, hns, hfits, hpair⟩ := exists_stocked h properties
  obtain ⟨-, hlen, hnodes⟩ := (forall₂_ofRecord_iff h.data h.positions).1 hns
  have hstocked := stocked_admitAll_blank hlen hnodes hfits hpair
  have hresolves : ∀ e ∈ d.edges,
      ∃ ends, ((blank d properties).admitAll ns).ResolvesEdge e ends := by
    intro e he
    obtain ⟨i, j, hleads⟩ := h.edges e he
    exact ⟨_, (hstocked.resolvesEdge_iff hstocked.distinctIds).2 ⟨i, j, hleads, rfl⟩⟩
  obtain ⟨ends, hall⟩ := exists_forall₂ hresolves
  have hcap := (hstocked.capacity_iff hstocked.distinctIds hall).1 h.capacity
  exact ⟨_, ofDocument_eq_ok_iff_stages.2 ⟨h.version, ⟨h.data, h.positions⟩, properties,
    hproperties, _, admitNodes_eq_ok_iff.2 ⟨ns, hns, hfits, hpair, rfl⟩,
    hstocked.admitEdges_eq_ok_iff.2 ⟨ends, hall, hcap, rfl⟩⟩⟩

/-- A document loads to a graph exactly when it is well-formed and describes it. -/
theorem ofDocument_eq_ok_iff : ofDocument r d = .ok g ↔ d.WellFormed r ∧ g.Depicts r d := by
  refine ⟨wellFormed_and_depicts, fun ⟨hwell, hdepicts⟩ => ?_⟩
  obtain ⟨g', hg'⟩ := exists_ofDocument hwell
  rw [hdepicts.eq hwell.distinctIds (wellFormed_and_depicts hg').2, hg']

end Whole

/-- **Loading accepts exactly the well-formed documents and builds exactly the described graph**,
whatever the order of its checks. Identifiers that differ in the case of letters only collide. -/
theorem loads_iff_wellFormed (r : NodeRegistry) (d : Document) :
    ((∃ g, ofDocument r d = .ok g) ↔ d.WellFormed r)
      ∧ (∀ g, ofDocument r d = .ok g ↔ d.WellFormed r ∧ g.Depicts r d)
      ∧ (d.WellFormed r → ∃ g : Graph, g.Depicts r d ∧ ∀ g' : Graph, g'.Depicts r d → g' = g)
      ∧ (∀ (i j : Nat) (n m : NodeRecord), d.nodes[i]? = some n → d.nodes[j]? = some m → i ≠ j →
          lowered n.id = lowered m.id → ∀ g, ofDocument r d ≠ .ok g) := by
  refine ⟨⟨fun ⟨g, hg⟩ => (wellFormed_and_depicts hg).1, exists_ofDocument⟩,
    fun _ => ofDocument_eq_ok_iff, fun hwell => ?_, fun i j n m hn hm hne hsame g hg => ?_⟩
  · obtain ⟨g, hg⟩ := exists_ofDocument hwell
    have hdepicts := (wellFormed_and_depicts hg).2
    exact ⟨g, hdepicts, fun g' hg' => hg'.eq hwell.distinctIds hdepicts⟩
  · have hwell := (wellFormed_and_depicts hg).1
    have hndigits := hwell.nodeIds n (List.mem_of_getElem? hn)
    have hmdigits := hwell.nodeIds m (List.mem_of_getElem? hm)
    have hnames : d.Names n.id j :=
      ⟨hndigits, m, hm, ((NodeId.parse?_eq_parse?_iff hndigits hmdigits).2 hsame).symm⟩
    exact hne (Document.Names.eq hwell.distinctIds ⟨hndigits, n, hn, rfl⟩ hnames)

end Graph

end BranchingDialogue
