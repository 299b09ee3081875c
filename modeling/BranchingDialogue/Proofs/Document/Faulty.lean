import BranchingDialogue.Proofs.Document.Loading

/-!
# What an error says of a document

An error of loading names a place in the document and what is wrong there. `Document.Faulty` says
for each error what that means, of the document alone: the graph that was being built when the error
arose does not occur in it. Errors that belong to texts, not to documents, have no line there.

A check of an edge reads the graph so far. `Graph.Wired` is what ties that graph to the document: it
has all nodes, and its edges are those of the document before the one at hand. So a port that is full
is fed by an earlier edge, and a node that is not found is none of the document.

Main result: `refused_iff_faulty`. Every error is true of its document, and a document of which an
error is true is refused.
-/

namespace BranchingDialogue

/-- The place at which an end of an edge is named. -/
def IdPlace.ofSide : Direction → IdPlace
  | .input => .input
  | .output => .output

namespace Document

/-- The node at a position has an identifier. -/
def Bears (d : Document) (i : Nat) (id : NodeId) : Prop :=
  ∃ record, d.nodes[i]? = some record ∧ NodeId.parse? record.id = some id

/-- An edge names a node and a port of it on one side. -/
def EndsAt (d : Document) (edge : Nat) (side : Direction) (id : NodeId) (port : Int) : Prop :=
  ∃ e, d.edges[edge]? = some e ∧ NodeId.parse? (e.endpoint side).node = some id
    ∧ (e.endpoint side).number = port

/-- An error is true of a document. -/
inductive Faulty (r : NodeRegistry) (d : Document) : DocumentError → Prop
  | version (newer : formatVersion < d.version) : d.Faulty r (.unsupportedVersion d.version)
  | data (differ : d.data.length ≠ d.nodes.length) :
    d.Faulty r (.parallelMismatch .data d.nodes.length d.data.length)
  | positions (given : d.positions ≠ []) (differ : d.positions.length ≠ d.nodes.length) :
    d.Faulty r (.parallelMismatch .positions d.nodes.length d.positions.length)
  | propertyId {p : PropertyRecord} (mem : p ∈ d.properties) (invalid : Uuid.parse? p.id = none) :
    d.Faulty r (.invalidId p.id .property)
  | propertyValue {p : PropertyRecord} {shape : ShapeError} (mem : p ∈ d.properties)
    (holds : p.value.Holds shape) : d.Faulty r (.invalidProperty p.name shape)
  | nodeId {n : NodeRecord} (mem : n ∈ d.nodes) (invalid : ¬NodeId.IsDigits n.id) :
    d.Faulty r (.invalidId n.id .node)
  | edgeId {e : EdgeRecord} {side : Direction} (mem : e ∈ d.edges)
    (invalid : ¬NodeId.IsDigits (e.endpoint side).node) :
    d.Faulty r (.invalidId (e.endpoint side).node (.ofSide side))
  | binder {n : NodeRecord} {id : NodeId} (mem : n ∈ d.nodes) (node : NodeId.parse? n.id = some id)
    (unresolved : r.resolve? n.binder = none) : d.Faulty r (.unknownBinder id n.binder)
  /-- A payload is neither an object nor null. -/
  | payload {i : Nat} {id : NodeId} {json : Json} (node : d.Bears i id)
    (data : d.data[i]? = some json) (null : json ≠ .null)
    (object : ∀ members, json ≠ .object members) : d.Faulty r (.payloadNotObject id)
  /-- A member of a payload holds a null or an object, at some depth. -/
  | member {i : Nat} {id : NodeId} {members : List (String × Json)} {key : String} {json : Json}
    {shape : ShapeError} (node : d.Bears i id) (data : d.data[i]? = some (.object members))
    (mem : (key, json) ∈ members) (holds : json.Holds shape) :
    d.Faulty r (.invalidPayload id key shape)
  /-- An input node has no text as its name. -/
  | unnamed {i : Nat} {id : NodeId} (node : d.Bears i id) (input : d.kindAt? r i = some .input)
    (name : (d.payloadAt i).text? entryNameKey = none) : d.Faulty r (.missingEntryName id)
  | sameId {i j : Nat} {id : NodeId} (ne : i ≠ j) (node : d.Bears i id) (other : d.Bears j id) :
    d.Faulty r (.duplicateNode id)
  | sameName {i j : Nat} {name : String} (ne : i ≠ j) (node : d.entryNameAt? r i = some name)
    (other : d.entryNameAt? r j = some name) : d.Faulty r (.duplicateEntry name)
  | dangling {edge : Nat} {side : Direction} {id : NodeId} {port : Int}
    (ends : d.EndsAt edge side id port) (missing : ∀ i, ¬d.Bears i id) :
    d.Faulty r (.danglingNode edge id)
  | undeclared {edge i : Nat} {side : Direction} {id : NodeId} {port : Int} {l : PortLayout}
    (ends : d.EndsAt edge side id port) (node : d.Bears i id) (layout : d.layoutAt? r i = some l)
    (outside : l.contains side port = false) :
    d.Faulty r (.portOutOfRange edge id port side (l.declared side port))
  /-- An earlier edge feeds the same data socket or the same input of a processor. -/
  | full {edge earlier i : Nat} {id : NodeId} {port : Int} {k : NodeKind}
    (ends : d.EndsAt edge .input id port) (node : d.Bears i id) (kind : d.kindAt? r i = some k)
    (single : (PortSlot.ofNumber port).isSecondary = true ∨ k.isProcessor = true)
    (before : earlier < edge) (fed : d.EndsAt earlier .input id port) :
    d.Faulty r (.portCapacity edge id port .input)
  /-- An edge leads from a node that is no processor to a data socket. -/
  | source {edge i j : Nat} {id target : NodeId} {number port : Int} {k : NodeKind}
    (leaves : d.EndsAt edge .output id number) (enters : d.EndsAt edge .input target port)
    (node : d.Bears i id) (fed : d.Bears j target) (kind : d.kindAt? r i = some k)
    (socket : (PortSlot.ofNumber port).isSecondary = true) (flow : k.isProcessor = false) :
    d.Faulty r (.dataSource edge id k target port)

variable {r : NodeRegistry} {d : Document} {i : Nat} {id : NodeId} {text : String}

theorem names_iff_of_bears (h : d.Bears i id) : d.Names text i ↔ NodeId.parse? text = some id := by
  obtain ⟨record, hrecord, hid⟩ := h
  constructor
  · rintro ⟨-, other, hother, hsame⟩
    rw [hrecord, Option.some.injEq] at hother
    rw [← hsame, ← hother, hid]
  · intro htext
    exact ⟨NodeId.exists_parse?_iff.1 ⟨id, htext⟩, record, hrecord, hid.trans htext.symm⟩

theorem bears_of_names (h : d.Names text i) (hid : NodeId.parse? text = some id) :
    d.Bears i id := by
  obtain ⟨-, record, hrecord, hsame⟩ := h
  exact ⟨record, hrecord, hsame.trans hid⟩

end Document

namespace Node.IsAt

variable {r : NodeRegistry} {d : Document} {i : Nat} {n : Node}

theorem bears (h : n.IsAt r d i) : d.Bears i n.id := by
  obtain ⟨record, hrecord, hid, -⟩ := h.record
  exact ⟨record, hrecord, hid⟩

theorem kindAt?_eq (h : n.IsAt r d i) : d.kindAt? r i = some n.kind := by
  obtain ⟨record, hrecord, -, -, -, hkind⟩ := h.record
  rw [Document.kindAt?, hrecord, Option.bind_some, hkind]

theorem entryNameAt?_eq (h : n.IsAt r d i) : d.entryNameAt? r i = n.entryName? := by
  rw [Document.entryNameAt?, h.kindAt?_eq, Node.entryName?, h.payload]
  simp only [Option.some.injEq]

end Node.IsAt

namespace Graph

variable {r : NodeRegistry} {d : Document} {e : DocumentError}

/-! ## Properties -/

theorem faulty_of_property {record : PropertyRecord} (hmem : record ∈ d.properties)
    (h : Property.ofRecord record = .error e) : d.Faulty r e := by
  rw [Property.ofRecord] at h
  split at h
  · next hid =>
    cases h
    exact .propertyId hmem hid
  · split at h
    · next shape hvalue =>
      cases h
      exact .propertyValue hmem (Value.holds_of_ofJson hvalue)
    · cases h

/-! ## Nodes -/

section Nodes

variable {properties : List Property} {i : Nat} {id : NodeId} {record : NodeRecord} {data : Json}
  {position : Option Position} {ns : List Node} {n : Node}

theorem faulty_of_payload (hnode : d.Bears i id) (hdata : d.data[i]? = some data)
    (h : Payload.ofJson id data = .error e) : d.Faulty r e := by
  cases data with
  | null => cases h
  | object members =>
    rw [Payload.ofJson] at h
    split at h
    · cases h
    · next key shape hmembers =>
      cases h
      obtain ⟨json, hmem, hholds⟩ := Payload.exists_member_of_ofMembers hmembers
      exact .member hnode hdata hmem hholds
  | _ =>
    cases h
    exact .payload hnode hdata (by simp) (by simp)

theorem faulty_of_ofRecord (hrecord : d.nodes[i]? = some record) (hdata : d.data[i]? = some data)
    (h : Node.ofRecord r record data position = .error e) : d.Faulty r e := by
  have hmem := List.mem_of_getElem? hrecord
  rw [Node.ofRecord] at h
  split at h
  · next hid =>
    cases h
    refine .nodeId hmem fun hdigits => ?_
    obtain ⟨id, hsome⟩ := NodeId.exists_parse?_iff.2 hdigits
    rw [hid] at hsome
    cases hsome
  · next id hid =>
    split at h
    · next hbinder =>
      cases h
      exact .binder hmem hid hbinder
    · split at h
      · next hpayload =>
        cases h
        exact faulty_of_payload ⟨record, hrecord, hid⟩ hdata hpayload
      · cases h

/-- A node that is not admitted after those before it has no name, or it shares its identifier or
its name with one of them. -/
theorem faulty_of_admitNode (hns : ∀ (k : Nat) m, ns[k]? = some m → m.IsAt r d k)
    (hfits : ∀ m ∈ ns, (blank d properties).Fits m) (hpair : ns.Pairwise Node.Compatible)
    (hn : n.IsAt r d ns.length) (h : ((blank d properties).admitAll ns).admitNode n = .error e) :
    d.Faulty r e := by
  have hearlier : ∀ {k m}, ((blank d properties).admitAll ns).node? k = some m →
      m.IsAt r d k ∧ k ≠ ns.length := by
    intro k m hm
    rw [node?_admitAll_blank] at hm
    exact ⟨hns k m hm, Nat.ne_of_lt (List.getElem?_eq_some_iff.1 hm).1⟩
  rw [admitNode, entryName_eq] at h
  by_cases hmissing : n.kind = .input ∧ n.entryName? = none
  · rw [if_pos hmissing] at h
    cases h
    obtain ⟨hinput, hname⟩ := hmissing
    rw [Node.entryName?, if_pos hinput, hn.payload] at hname
    exact .unnamed hn.bears (hinput ▸ hn.kindAt?_eq) hname
  · rw [if_neg hmissing, addNode?] at h
    cases hindex : ((blank d properties).admitAll ns).indexOf? n.id with
    | some k =>
      rw [hindex] at h
      cases h
      obtain ⟨hk, hid, -⟩ := Array.findIdx?_eq_some_iff_getElem.1 hindex
      obtain ⟨hm, hne⟩ := hearlier (Array.getElem?_eq_getElem hk)
      rw [decide_eq_true_eq] at hid
      exact .sameId hne (hid ▸ hm.bears) hn.bears
    | none =>
      simp only [hindex, Option.isSome_none, Bool.false_eq_true, if_false] at h
      split at h
      · cases h
      · next name hname =>
        split at h
        · next htaken =>
          cases h
          -- The name is taken: it leads to an earlier node, which bears it.
          obtain ⟨k, hk⟩ := Option.isSome_iff_exists.1 htaken
          obtain ⟨m, hm, hown⟩ := (named_blank.admitAll hfits hpair name k).1 hk
          obtain ⟨hat, hne⟩ := hearlier hm
          exact .sameName hne (hat.entryNameAt?_eq.trans hown) (hn.entryNameAt?_eq.trans hname)
        · cases h

theorem faulty_of_admitNodes (hpos : d.positions = [] ∨ d.positions.length = d.nodes.length)
    (h : (blank d properties).admitNodes r d = .error e) : d.Faulty r e := by
  obtain ⟨before, ⟨record, data, position⟩, after, g, hrows, hbefore, hturn⟩ :=
    exists_turn_of_foldlM_error h
  replace hrows : rowsOf d = before ++ (record, data, position) :: after := hrows
  obtain ⟨ns, hns, hfits, hpair, rfl⟩ := foldlM_admitRow_eq_ok_iff.1 hbefore
  obtain ⟨hrecord, hdata, hposition⟩ := (getElem?_rowsOf (i := before.length) hpos).1
    (show (rowsOf d)[before.length]? = some (record, data, position) by simp [hrows])
  simp only at hrecord hdata hposition
  subst hposition
  cases hn : Node.ofRecord r record data d.positions[before.length]? with
  | error e' =>
    simp only [hn] at hturn
    cases hturn
    exact faulty_of_ofRecord hrecord hdata hn
  | ok n =>
    simp only [hn] at hturn
    refine faulty_of_admitNode (fun k m hm => ?_) hfits hpair ?_ hturn
    · obtain ⟨row, hrow, hread⟩ := exists_left_of_forall₂ hns hm
      have hat : (rowsOf d)[k]? = some row := by
        rw [hrows, List.getElem?_append_left (List.getElem?_eq_some_iff.1 hrow).1, hrow]
      obtain ⟨hrecord', hdata', hposition'⟩ := (getElem?_rowsOf hpos).1 hat
      rw [hposition'] at hread
      exact ((ofRecord_at_iff hrecord' hdata').1 hread).2.1
    · rw [← hns.length_eq]
      exact ((ofRecord_at_iff hrecord hdata).1 hn).2.1

end Nodes

/-! ## Edges -/

/-- A graph with all nodes of a document and its first edges, so many of them. -/
structure Wired (r : NodeRegistry) (d : Document) (count : Nat) (g : Graph) : Prop
    extends g.HasNodes r d where
  distinctIds : g.DistinctIds
  consistent : g.Consistent
  /-- An edge that enters a port does so in the document, before the ones to come. -/
  fed : ∀ {p}, g.edgesAt p ≠ [] → p.direction = .input →
    ∃ m < count, ∃ e, d.edges[m]? = some e ∧ d.Names e.input.node p.node ∧ e.input.number = p.number

theorem Stocked.wired_joinAll {g : Graph} (h : g.Stocked r d) {front rest : List EdgeRecord}
    (hedges : d.edges = front ++ rest) {ends : List (PortRef × PortRef)}
    (hall : List.Forall₂ g.ResolvesEdge front ends) :
    (g.joinAll ends).Wired r d front.length := by
  have hframe := bareNodes_joinAll g ends
  have hnodes : (g.joinAll ends).HasNodes r d := by
    refine ⟨by rw [← size_bareNodes, hframe, size_bareNodes, h.size], fun i n hn => ?_⟩
    obtain ⟨n₁, hn₁, hbare⟩ := exists_node?_of_bareNodes hframe.symm hn
    exact (h.nodes i n₁ hn₁).of_bare hbare.symm
  refine ⟨hnodes, ?_, (consistent_joinAll h.consistent h.sparse hall).1, fun {p} hne hside => ?_⟩
  · exact hnodes.distinctIds_iff.2 (h.distinctIds_iff.1 h.distinctIds)
  · -- The edges at the port are among those joined, each of which comes from its record.
    obtain ⟨number, hnumber⟩ := List.exists_mem_of_ne_nil _ hne
    obtain ⟨edge, hedge, -⟩ := List.mem_map.1 hnumber
    obtain ⟨hmem, hends⟩ := List.mem_filter.1 hedge
    rw [edges_joinAll, h.edges, List.nil_append] at hmem
    obtain ⟨m, hm, rfl⟩ := List.mem_mapIdx.1 hmem
    obtain ⟨e, he, hresolves⟩ := exists_left_of_forall₂ hall (List.getElem?_eq_getElem hm)
    obtain ⟨i, j, hleads, heq⟩ := (h.resolvesEdge_iff h.distinctIds).1 hresolves
    have hm' := (List.getElem?_eq_some_iff.1 he).1
    refine ⟨m, hm', e, by rw [hedges, List.getElem?_append_left hm', he], ?_⟩
    rw [hside, heq, decide_eq_true_eq] at hends
    rw [← hends]
    exact ⟨hleads.input, rfl⟩

section Edges

variable {g : Graph} {k : Nat} {record : EdgeRecord}

/-- Only data sockets and inputs of processors take one edge. -/
theorem single_of_capacity {kind : NodeKind} {port : Int}
    (h : kind.capacity .input port ≠ .multi) :
    (PortSlot.ofNumber port).isSecondary = true ∨ kind.isProcessor = true := by
  by_contra hnot
  rw [NodeKind.capacity, if_neg] at h
  · exact h rfl
  · rintro ⟨-, hsingle⟩
    exact hnot (by simpa using hsingle)

theorem Wired.faulty_of_resolvePort (hg : g.Wired r d k) (side : Direction)
    (hrecord : d.edges[k]? = some record)
    (h : g.resolvePort k (record.endpoint side) side = .error e) : d.Faulty r e := by
  cases hid : NodeId.parse? (record.endpoint side).node with
  | none =>
    have herror : e = .invalidId (record.endpoint side).node (.ofSide side) := by
      cases side <;> simpa [resolvePort, hid, IdPlace.ofSide] using h.symm
    rw [herror]
    refine .edgeId (List.mem_of_getElem? hrecord) fun hdigits => ?_
    obtain ⟨id, hsome⟩ := NodeId.exists_parse?_iff.2 hdigits
    rw [hid] at hsome
    cases hsome
  | some id =>
    have hends : d.EndsAt k side id (record.endpoint side).number := ⟨record, hrecord, hid, rfl⟩
    cases hi : g.indexOf? id with
    | none =>
      simp only [resolvePort, hid, hi] at h
      cases h
      refine .dangling hends fun i hbears => ?_
      obtain ⟨n, hn, hnid⟩ := hg.record_iff.1 hbears
      exact indexOf?_eq_none_iff.1 hi n (Array.mem_of_getElem? hn) hnid
    | some i =>
      obtain ⟨n, hn, hnid⟩ := (indexOf?_eq_some_iff hg.distinctIds).1 hi
      have hbears : d.Bears i id := hnid ▸ (hg.nodes i n hn).bears
      simp only [resolvePort, hid, hi, hn, any_not_accepts] at h
      split at h
      · next houtside =>
        cases h
        refine .undeclared hends hbears ?_ (by simpa using houtside)
        rw [hg.layoutAt?_eq, hn, Option.map_some]
      · split at h
        · next hfull =>
          cases h
          -- A port that takes no more edges is an input, and one of the edges so far enters it.
          have hnotfree : ¬g.Free ⟨i, side, (record.endpoint side).number⟩ := fun hfree => by
            rw [(accepts_iff_free hg.consistent (p := ⟨i, side, _⟩) hn).2 hfree] at hfull
            cases hfull
          cases side with
          | output => exact absurd (free_of_output rfl) hnotfree
          | input =>
            simp only [Free, TakesMany, not_forall] at hnotfree
            obtain ⟨hne, m, hm, hsingle⟩ := hnotfree
            obtain ⟨earlier, hlt, f, hf, hnames, hnumber⟩ := hg.fed hne rfl
            refine .full hends hbears (hg.nodes i m hm).kindAt?_eq (single_of_capacity hsingle) hlt
              ⟨f, hf, (Document.names_iff_of_bears hbears).1 hnames, hnumber⟩
        · cases h

theorem Wired.faulty_of_admitEdge (hg : g.Wired r d k) (hrecord : d.edges[k]? = some record)
    (h : g.admitEdge record k = .error e) : d.Faulty r e := by
  rw [admitEdge] at h
  split at h
  · next houtput =>
    cases h
    exact hg.faulty_of_resolvePort .output hrecord houtput
  · next output source houtput =>
    split at h
    · next hinput =>
      cases h
      exact hg.faulty_of_resolvePort .input hrecord hinput
    · next input target hinput =>
      obtain ⟨hro, hno, -⟩ := (resolvePort_eq_ok_iff hg.consistent).1 houtput
      obtain ⟨hri, hni, -⟩ := (resolvePort_eq_ok_iff hg.consistent).1 hinput
      split at h
      · next hflow =>
        cases h
        obtain ⟨-, -, honame, -⟩ := (hg.resolves_iff hg.distinctIds).1 hro
        obtain ⟨-, hinumber, hiname, -⟩ := (hg.resolves_iff hg.distinctIds).1 hri
        have hsource := hg.nodes _ _ hno
        have htarget := hg.nodes _ _ hni
        exact .source
          ⟨record, hrecord, (Document.names_iff_of_bears hsource.bears).1 honame, rfl⟩
          ⟨record, hrecord, (Document.names_iff_of_bears htarget.bears).1 hiname, hinumber.symm⟩
          hsource.bears htarget.bears hsource.kindAt?_eq hflow.1 (by simpa using hflow.2)
      · -- Ports that have been found are connected.
        rw [connect?_eq_join hro.faces hri.faces hno hni] at h
        cases h

end Edges

theorem Stocked.faulty_of_admitEdges {g : Graph} (hg : g.Stocked r d)
    (h : g.admitEdges d = .error e) : d.Faulty r e := by
  obtain ⟨before, ⟨record, k⟩, after, g', hedges, hbefore, hturn⟩ := exists_turn_of_foldlM_error h
  obtain ⟨ends, hall, -, -, rfl⟩ := (foldlM_admitEdge_eq_ok_iff hg.consistent).1 hbefore
  have hsplit : d.edges = before.map Prod.fst ++ record :: after.map Prod.fst := by
    have hmap := congrArg (List.map Prod.fst) hedges
    rwa [List.zipIdx_map_fst, List.map_append, List.map_cons] at hmap
  have hat := congrArg (·[before.length]?) hedges
  simp only [List.getElem?_zipIdx, List.getElem?_append_right (Nat.le_refl _), Nat.sub_self,
    List.getElem?_cons_zero, Option.map_eq_some_iff, Prod.mk.injEq, Nat.zero_add] at hat
  obtain ⟨_, hrecord, rfl, rfl⟩ := hat
  have hwired := hg.wired_joinAll hsplit (List.forall₂_map_left_iff.2 hall)
  rw [List.length_map] at hwired
  exact hwired.faulty_of_admitEdge hrecord hturn

/-! ## The whole document -/

/-- What an error says of its document is true. -/
theorem faulty_of_ofDocument (h : ofDocument r d = .error e) : d.Faulty r e := by
  rw [ofDocument] at h
  split at h
  · next hversion =>
    cases h
    exact .version (by simpa [isSupported] using hversion)
  · split at h
    · next e' hmismatch =>
      cases h
      rw [mismatch?] at hmismatch
      split at hmismatch
      · next hdata =>
        cases hmismatch
        exact .data hdata
      · split at hmismatch
        · next hpositions =>
          cases hmismatch
          exact .positions (by simpa using hpositions.1) hpositions.2
        · cases hmismatch
    · next hmismatch =>
      obtain ⟨hdata, hpos⟩ := mismatch?_eq_none_iff.1 hmismatch
      split at h
      · next hproperties =>
        cases h
        obtain ⟨record, hmem, hfails⟩ := exists_mem_of_mapM_error hproperties
        exact faulty_of_property hmem hfails
      · next properties hproperties =>
        split at h
        · next hnodes =>
          cases h
          replace hnodes : (blank d properties).admitNodes r d = .error _ := hnodes
          exact faulty_of_admitNodes hpos hnodes
        · next g hnodes =>
          obtain ⟨ns, hns, hfits, hpair, rfl⟩ := admitNodes_eq_ok_iff.1 hnodes
          obtain ⟨-, hlen, hat⟩ := (forall₂_ofRecord_iff hdata hpos).1 hns
          have hstocked : ((blank d properties).admitAll ns).Stocked r d :=
            stocked_admitAll_blank hlen hat hfits hpair
          exact hstocked.faulty_of_admitEdges h

end Graph

namespace Document

variable {r : NodeRegistry} {d : Document} {e : DocumentError}

theorem Bears.unique (h : (d.nodes.map fun n => NodeId.parse? n.id).Nodup) {i j : Nat}
    {id : NodeId} (hi : d.Bears i id) (hj : d.Bears j id) : i = j := by
  obtain ⟨record, hrecord, hid⟩ := hj
  exact Names.eq h ((names_iff_of_bears hi).2 hid)
    ((names_iff_of_bears ⟨record, hrecord, hid⟩).2 hid)

/-- In a well-formed document an edge ends at a port that a node of the document declares. -/
theorem WellFormed.declares (h : d.WellFormed r) {edge : Nat} {side : Direction} {id : NodeId}
    {port : Int} (hends : d.EndsAt edge side id port) :
    ∃ i l, d.Bears i id ∧ d.layoutAt? r i = some l ∧ l.contains side port = true := by
  obtain ⟨e, he, hid, rfl⟩ := hends
  obtain ⟨i, j, hleads⟩ := h.edges e (List.mem_of_getElem? he)
  cases side with
  | output =>
    obtain ⟨l, hl, hcontains⟩ := hleads.declaredOutput
    exact ⟨i, l, bears_of_names hleads.output hid, hl, hcontains⟩
  | input =>
    obtain ⟨l, hl, hcontains⟩ := hleads.declaredInput
    exact ⟨j, l, bears_of_names hleads.input hid, hl, hcontains⟩

/-- A document of which an error is true breaks a rule. -/
theorem Faulty.not_wellFormed (h : d.Faulty r e) : ¬d.WellFormed r := by
  intro hwell
  have hpayload : ∀ {i : Nat} {j : Json}, d.data[i]? = some j → j.IsPayload := fun hj =>
    hwell.payloads _ (List.mem_of_getElem? hj)
  have hdigits : ∀ f ∈ d.edges, ∀ side, NodeId.IsDigits (EdgeRecord.endpoint f side).node := by
    intro f hf side
    obtain ⟨i, j, hleads⟩ := hwell.edges f hf
    cases side with
    | output => exact hleads.output.1
    | input => exact hleads.input.1
  cases h with
  | version newer => exact absurd hwell.version (Int.not_le.2 newer)
  | data differ => exact differ hwell.data
  | positions given differ => exact differ (hwell.positions.resolve_left given)
  | propertyId mem invalid =>
    obtain ⟨id, hid⟩ := hwell.propertyIds _ mem
    rw [invalid] at hid
    cases hid
  | propertyValue mem holds => exact holds.not_isPlain (hwell.propertyValues _ mem)
  | nodeId mem invalid => exact invalid (hwell.nodeIds _ mem)
  | edgeId mem invalid => exact invalid (hdigits _ mem _)
  | binder mem _ unresolved =>
    obtain ⟨kind, hkind⟩ := hwell.binders _ mem
    rw [unresolved] at hkind
    cases hkind
  | payload _ data null object =>
    rcases hpayload data with hnull | ⟨members, hmembers, -⟩
    · exact null hnull
    · exact object members hmembers
  | member _ data mem holds =>
    rcases hpayload data with hnull | ⟨members, hmembers, hplain⟩
    · cases hnull
    · cases hmembers
      exact holds.not_isPlain (hplain _ mem)
  | unnamed _ input name =>
    obtain ⟨own, hown⟩ := hwell.entryNames _ input
    rw [entryNameAt?, if_pos input, name] at hown
    cases hown
  | sameId ne node other => exact ne (node.unique hwell.distinctIds other)
  | sameName ne node other => exact ne (hwell.distinctEntries _ _ _ node other)
  | dangling ends missing =>
    obtain ⟨i, -, hbears, -⟩ := hwell.declares ends
    exact missing i hbears
  | undeclared ends node layout outside =>
    obtain ⟨i, l, hbears, hl, hcontains⟩ := hwell.declares ends
    rw [hbears.unique hwell.distinctIds node, layout, Option.some.injEq] at hl
    rw [← hl, outside] at hcontains
    cases hcontains
  | @full edge earlier i id port k ends node kind single before fed =>
    obtain ⟨f, hf, hfid, rfl⟩ := ends
    obtain ⟨f', hf', hfid', hsame⟩ := fed
    have hmulti := (List.pairwise_iff_getElem.1 hwell.capacity) earlier edge
      (List.getElem?_eq_some_iff.1 hf').1 (List.getElem?_eq_some_iff.1 hf).1 before
    rw [(List.getElem?_eq_some_iff.1 hf').2, (List.getElem?_eq_some_iff.1 hf).2] at hmulti
    have hcapacity := hmulti .input i k ⟨(names_iff_of_bears node).2 hfid',
      (names_iff_of_bears node).2 hfid, hsame⟩ kind
    rw [hsame, NodeKind.capacity, if_pos ⟨rfl, by simpa using single⟩] at hcapacity
    cases hcapacity
  | source leaves enters node _ kind socket flow =>
    obtain ⟨f, hf, hid, -⟩ := leaves
    obtain ⟨f', hf', -, rfl⟩ := enters
    rw [hf, Option.some.injEq] at hf'
    subst hf'
    obtain ⟨i, j, hleads⟩ := hwell.edges _ (List.mem_of_getElem? hf)
    obtain ⟨kind', hkind', hprocessor⟩ := hleads.source socket
    rw [(bears_of_names hleads.output hid).unique hwell.distinctIds node, kind,
      Option.some.injEq] at hkind'
    rw [← hkind', flow] at hprocessor
    cases hprocessor

end Document

namespace Graph

/-- **Every error tells the truth about its document.** Where loading fails, what the error says is
true of the document, and it is no error of a text. A document of which an error is true is refused,
so the errors say no more than what is wrong. -/
theorem refused_iff_faulty (r : NodeRegistry) (d : Document) :
    (∀ e, ofDocument r d = .error e → d.Faulty r e)
      ∧ ((∃ e, ofDocument r d = .error e) ↔ ∃ e, d.Faulty r e) := by
  have htells : ∀ e, ofDocument r d = .error e → d.Faulty r e := fun _ h => faulty_of_ofDocument h
  refine ⟨htells, fun ⟨e, he⟩ => ⟨e, htells e he⟩, fun ⟨e, hfaulty⟩ => ?_⟩
  cases hload : ofDocument r d with
  | error e' => exact ⟨e', rfl⟩
  | ok g => exact absurd (wellFormed_and_depicts hload).1 hfaulty.not_wellFormed

/-- A condition with two constants for its value. -/
def crowded : Document where
  version := 1
  objectId := "crowded"
  properties := []
  nodes :=
    [⟨"000000000000000000000000000000a1", "ValueNode", "Value"⟩,
      ⟨"000000000000000000000000000000a2", "ValueNode", "Value"⟩,
      ⟨"000000000000000000000000000000A3", "ConditionNode", "Condition"⟩]
  edges :=
    [⟨⟨"000000000000000000000000000000a1", 0⟩, ⟨"000000000000000000000000000000a3", -1⟩⟩,
      ⟨⟨"000000000000000000000000000000a2", 0⟩, ⟨"000000000000000000000000000000A3", -1⟩⟩]
  positions := []
  data := [.object [("value", .bool true)], .object [("value", .bool false)], .null]

theorem refused_iff_faulty_crowded :
    ofDocument .builtin crowded = .error (.portCapacity 1 ⟨0xa3⟩ (-1) .input)
      ∧ crowded.Faulty .builtin (.portCapacity 1 ⟨0xa3⟩ (-1) .input) := by
  have hrefused : ofDocument .builtin crowded = .error (.portCapacity 1 ⟨0xa3⟩ (-1) .input) := by
    decide +kernel
  exact ⟨hrefused, (refused_iff_faulty .builtin crowded).1 _ hrefused⟩

end Graph

end BranchingDialogue
