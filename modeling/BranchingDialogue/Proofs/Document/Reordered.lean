import BranchingDialogue.Proofs.Graph.Renumbering
import Mathlib.Data.Finset.Card

/-!
# Documents in another order

`Document.Reorders` relates a document to one that lists the same nodes, each with its payload and
its position, in another order, and the same edges so that those at one output keep theirs. What one
document says of a node the other says of the node it is moved to; so one is well-formed if the other
is (`Reorders.wellFormed`), and the graphs they load to differ in the positions of their nodes only
(`Reorders.renumbers`). The first edge at an output is the first one in both documents, since the
order there is kept; the first edge at an input that takes one is, since it is the only one.
-/

namespace BranchingDialogue

/-- Whether an edge ends, on one side, at a port of the node with an identifier. -/
def EdgeRecord.endsAt (side : Direction) (id : NodeId) (number : Int) (e : EdgeRecord) : Bool :=
  decide (NodeId.parse? (e.endpoint side).node = some id ∧ (e.endpoint side).number = number)

namespace Document

/-- A document lists what another one does in another order: at position `i` the node, payload and
position that the other has at `σ i`, and the edges anyhow, but for those at one output, whose order
is kept. -/
structure Reorders (σ : Equiv.Perm Nat) (d d' : Document) : Prop where
  version : d'.version = d.version
  objectId : d'.objectId = d.objectId
  properties : d'.properties = d.properties
  nodes : ∀ i, d'.nodes[i]? = d.nodes[σ i]?
  data : ∀ i, d'.data[i]? = d.data[σ i]?
  positions : ∀ i, d'.positions[i]? = d.positions[σ i]?
  edges : d'.edges.Perm d.edges
  leaving : ∀ id number,
    d'.edges.filter (·.endsAt .output id number) = d.edges.filter (·.endsAt .output id number)

/-! ## Lists with their positions permuted -/

section Lists

variable {β : Type} {σ : Equiv.Perm Nat} {xs ys : List β}

theorem mem_of_reordered (h : ∀ i, ys[i]? = xs[σ i]?) {y : β} (hy : y ∈ ys) : y ∈ xs := by
  obtain ⟨i, hi⟩ := List.mem_iff_getElem?.1 hy
  exact List.mem_of_getElem? ((h i).symm.trans hi)

theorem length_of_reordered (h : ∀ i, ys[i]? = xs[σ i]?) : ys.length = xs.length := by
  -- The permutation takes the positions of the one list to those of the other.
  have hlt : ∀ i, i < ys.length ↔ σ i < xs.length := by
    intro i
    rw [← not_le, ← not_le, ← List.getElem?_eq_none_iff, ← List.getElem?_eq_none_iff, h]
  have himage : (Finset.range ys.length).image σ = Finset.range xs.length := by
    ext j
    simp only [Finset.mem_image, Finset.mem_range, hlt]
    exact ⟨fun ⟨i, hi, hij⟩ => hij ▸ hi, fun hj => ⟨σ.symm j, by simpa using hj, by simp⟩⟩
  have hcard := Finset.card_image_of_injective (Finset.range ys.length) σ.injective
  rw [himage, Finset.card_range, Finset.card_range] at hcard
  exact hcard.symm

end Lists

namespace Reorders

variable {σ : Equiv.Perm Nat} {r : NodeRegistry} {d d' : Document}

theorem symm (h : d.Reorders σ d') : d'.Reorders σ.symm d where
  version := h.version.symm
  objectId := h.objectId.symm
  properties := h.properties.symm
  nodes i := by rw [h.nodes, σ.apply_symm_apply]
  data i := by rw [h.data, σ.apply_symm_apply]
  positions i := by rw [h.positions, σ.apply_symm_apply]
  edges := h.edges.symm
  leaving id number := (h.leaving id number).symm

/-! ## What the documents say of a node -/

theorem kindAt?_eq (h : d.Reorders σ d') (i : Nat) : d'.kindAt? r i = d.kindAt? r (σ i) := by
  rw [kindAt?, kindAt?, h.nodes]

theorem payloadAt_eq (h : d.Reorders σ d') (i : Nat) : d'.payloadAt i = d.payloadAt (σ i) := by
  rw [payloadAt, payloadAt, h.data]

theorem layoutAt?_eq (h : d.Reorders σ d') (i : Nat) :
    d'.layoutAt? r i = d.layoutAt? r (σ i) := by
  rw [layoutAt?, layoutAt?, h.kindAt?_eq, h.payloadAt_eq]

theorem entryNameAt?_eq (h : d.Reorders σ d') (i : Nat) :
    d'.entryNameAt? r i = d.entryNameAt? r (σ i) := by
  rw [entryNameAt?, entryNameAt?, h.kindAt?_eq, h.payloadAt_eq]

theorem names_iff (h : d.Reorders σ d') {text : String} {i : Nat} :
    d'.Names text i ↔ d.Names text (σ i) := by
  rw [Names, Names, h.nodes]

theorem leads_iff (h : d.Reorders σ d') {e : EdgeRecord} {i j : Nat} :
    d'.Leads r e i j ↔ d.Leads r e (σ i) (σ j) := by
  constructor
  · rintro ⟨hi, hj, hout, hin, hsource⟩
    rw [h.layoutAt?_eq] at hout hin
    rw [h.kindAt?_eq] at hsource
    exact ⟨h.names_iff.1 hi, h.names_iff.1 hj, hout, hin, hsource⟩
  · rintro ⟨hi, hj, hout, hin, hsource⟩
    rw [← h.layoutAt?_eq] at hout hin
    rw [← h.kindAt?_eq] at hsource
    exact ⟨h.names_iff.2 hi, h.names_iff.2 hj, hout, hin, hsource⟩

theorem meet_iff (h : d.Reorders σ d') {e f : EdgeRecord} {side : Direction} {i : Nat} :
    d'.Meet e f side i ↔ d.Meet e f side (σ i) := by
  rw [Meet, Meet, h.names_iff, h.names_iff]

/-! ## What they say as a whole -/

/-- A document in another order is well-formed if it is in one. -/
theorem wellFormed (h : d.Reorders σ d') (hd : d.WellFormed r) : d'.WellFormed r where
  version := h.version ▸ hd.version
  data := by rw [length_of_reordered h.data, length_of_reordered h.nodes, hd.data]
  positions := by
    rw [← List.length_eq_zero_iff, length_of_reordered h.positions, length_of_reordered h.nodes,
      List.length_eq_zero_iff]
    exact hd.positions
  propertyIds := h.properties ▸ hd.propertyIds
  propertyValues := h.properties ▸ hd.propertyValues
  nodeIds n hn := hd.nodeIds n (mem_of_reordered h.nodes hn)
  distinctIds := by
    have hids := hd.distinctIds
    rw [List.Nodup, List.pairwise_map, pairwise_iff_getElem?_ne fun hne => Ne.symm hne] at hids ⊢
    intro i j n m hne hn hm
    rw [h.nodes] at hn hm
    exact hids (σ i) (σ j) n m (σ.injective.ne hne) hn hm
  binders n hn := hd.binders n (mem_of_reordered h.nodes hn)
  payloads j hj := hd.payloads j (mem_of_reordered h.data hj)
  entryNames i := by
    rw [h.kindAt?_eq, h.entryNameAt?_eq]
    exact hd.entryNames (σ i)
  distinctEntries i j name := by
    rw [h.entryNameAt?_eq, h.entryNameAt?_eq]
    exact fun hi hj => σ.injective (hd.distinctEntries (σ i) (σ j) name hi hj)
  edges e he := by
    obtain ⟨i, j, hleads⟩ := hd.edges e (h.edges.mem_iff.1 he)
    exact ⟨σ.symm i, σ.symm j, h.leads_iff.2 (by simpa using hleads)⟩
  capacity := by
    refine (h.edges.symm.pairwise hd.capacity ?_).imp ?_
    · rintro e f hef side i kind ⟨he, hf, hnumber⟩ hkind
      rw [hnumber]
      exact hef side i kind ⟨hf, he, hnumber.symm⟩ hkind
    · intro e f hef side i kind hmeet hkind
      exact hef side (σ i) kind (h.meet_iff.1 hmeet) (h.kindAt?_eq i ▸ hkind)

/-- The order of a document has no influence on whether it loads. -/
theorem exists_ofDocument_iff (h : d.Reorders σ d') :
    (∃ g, Graph.ofDocument r d = .ok g) ↔ ∃ g, Graph.ofDocument r d' = .ok g :=
  ⟨fun ⟨_, hg⟩ => Graph.exists_ofDocument (h.wellFormed (Graph.wellFormed_and_depicts hg).1),
    fun ⟨_, hg⟩ => Graph.exists_ofDocument (h.symm.wellFormed (Graph.wellFormed_and_depicts hg).1)⟩

/-! ## The graphs they load to -/

variable {g g' : Graph}

/-- A node is at the position to which it is moved. -/
theorem isAt_iff (h : d.Reorders σ d') {i : Nat} {n : Node} :
    n.IsAt r d' i ↔ n.IsAt r d (σ i) := by
  have hrecord := h.nodes i
  constructor
  · rintro ⟨hn, hpayload, hposition⟩
    rw [hrecord] at hn
    exact ⟨hn, hpayload.trans (h.payloadAt_eq i), hposition.trans (h.positions i)⟩
  · rintro ⟨hn, hpayload, hposition⟩
    rw [← hrecord] at hn
    exact ⟨hn, hpayload.trans (h.payloadAt_eq i).symm, hposition.trans (h.positions i).symm⟩

theorem map_bare_node? (h : d.Reorders σ d') (hg : g.Depicts r d) (hg' : g'.Depicts r d') (i : Nat) :
    (g'.node? i).map Node.bare = (g.node? (σ i)).map Node.bare := by
  have hrecord := h.nodes i
  cases hn' : g'.node? i with
  | none =>
    rw [hg'.hasNodes.node?_eq_none hn', eq_comm, List.getElem?_eq_none_iff, ← hg.size] at hrecord
    rw [Graph.node?, Array.getElem?_eq_none hrecord]
  | some n' =>
    obtain ⟨⟨record, hat, -⟩, -⟩ := hg'.nodes i n' hn'
    obtain ⟨hlt, -⟩ := List.getElem?_eq_some_iff.1 (hrecord.symm.trans hat)
    obtain ⟨n, hn⟩ := hg.hasNodes.exists_node? hlt
    rw [hn, Option.map_some, Option.map_some,
      (h.isAt_iff.1 (hg'.nodes i n' hn')).bare_eq (hg.nodes (σ i) n hn)]

/-- The edges for one record end at the same nodes. -/
theorem endpoint_eq (h : d.Reorders σ d') (hd : (d.nodes.map fun n => NodeId.parse? n.id).Nodup)
    {record : EdgeRecord} {e e' : Edge} (he : e.IsOf d record) (he' : e'.IsOf d' record)
    (side : Direction) : (e'.endpoint side).renumber σ = e.endpoint side := by
  obtain ⟨i, hi, hend⟩ := he side
  obtain ⟨i', hi', hend'⟩ := he' side
  have hsame : σ i' = i := (h.names_iff.1 hi').eq hd hi
  rw [hend, hend', PortRef.renumber, hsame]

end Reorders

end Document

/-! ## The first edge at a port -/

/-- An edge ends at a port of a node if its record names the node's identifier and the port. -/
theorem Edge.IsOf.endpoint_iff {r : NodeRegistry} {d : Document} {g : Graph} (hg : g.Depicts r d)
    (hd : (d.nodes.map fun n => NodeId.parse? n.id).Nodup) {record : EdgeRecord} {e : Edge}
    (he : e.IsOf d record) {i : Nat} {n : Node} (hn : g.node? i = some n) (side : Direction)
    (number : Int) :
    record.endsAt side n.id number = decide (e.endpoint side = ⟨i, side, number⟩) := by
  obtain ⟨k, hk, hend⟩ := he side
  rw [EdgeRecord.endsAt, hend, decide_eq_decide, PortRef.mk.injEq]
  obtain ⟨id, hid, m, hm, hmid⟩ := hg.hasNodes.names_iff.1 hk
  constructor
  · rintro ⟨hparse, hnumber⟩
    have hi : d.Names (record.endpoint side).node i :=
      hg.hasNodes.names_iff.2 ⟨n.id, hparse, n, hn, rfl⟩
    exact ⟨hk.eq hd hi, rfl, hnumber⟩
  · rintro ⟨rfl, -, hnumber⟩
    rw [hm, Option.some.injEq] at hn
    subst hn
    exact ⟨hmid ▸ hid, hnumber⟩

namespace Document.Reorders

variable {σ : Equiv.Perm Nat} {r : NodeRegistry} {d d' : Document} {g g' : Graph}

/-- An entry is at the position to which its node is moved. -/
theorem map_entry? (h : d.Reorders σ d') (hg : g.Depicts r d) (hg' : g'.Depicts r d')
    (name : String) : (g'.entry? name).map σ = g.entry? name := by
  apply Option.ext
  intro j
  rw [hg.entries, Option.map_eq_some_iff]
  constructor
  · rintro ⟨i, hi, rfl⟩
    rwa [hg'.entries, h.entryNameAt?_eq] at hi
  · intro hj
    refine ⟨σ.symm j, ?_, σ.apply_symm_apply j⟩
    rwa [hg'.entries, h.entryNameAt?_eq, σ.apply_symm_apply]

/-- Where the same record is the first one at a port in both documents, the edges for it lead to the
same nodes. -/
theorem map_endpoint_find? (h : d.Reorders σ d') (hwell : d.WellFormed r) (hg : g.Depicts r d)
    (hg' : g'.Depicts r d') {i : Nat} {n : Node} (hn : g'.node? i = some n) {side : Direction}
    {number : Int}
    (hfirst : d'.edges.find? (·.endsAt side n.id number)
      = d.edges.find? (·.endsAt side n.id number)) (other : Direction) :
    ((g'.edges.toList.find? fun e => e.endpoint side = ⟨i, side, number⟩).map
        fun e => (e.endpoint other).renumber σ)
      = (g.edges.toList.find? fun e => e.endpoint side = ⟨σ i, side, number⟩).map
          (·.endpoint other) := by
  obtain ⟨m, hm, hbare⟩ := Graph.exists_of_map_bare (h.map_bare_node? hg hg' i) hn
  have hid : n.id = m.id := congrArg (·.id) hbare
  have hrel := rel_find?_of_forall₂ hg.forall₂_edges fun he =>
    he.endpoint_iff hg hwell.distinctIds hm side number
  have hrel' := rel_find?_of_forall₂ hg'.forall₂_edges fun he =>
    he.endpoint_iff hg' (h.wellFormed hwell).distinctIds hn side number
  rw [hfirst, hid] at hrel'
  exact map_eq_of_rel hrel' hrel fun he' he => h.endpoint_eq hwell.distinctIds he he' other

/-- At an output the first edge is the same, as its edges keep their order. -/
theorem first_leaving_eq (h : d.Reorders σ d') (id : NodeId) (number : Int) :
    d'.edges.find? (·.endsAt .output id number) = d.edges.find? (·.endsAt .output id number) := by
  rw [← List.head?_filter, ← List.head?_filter, h.leaving]

/-- At an input that takes a single edge the first edge is the same, as there is no other. -/
theorem first_entering_eq (h : d.Reorders σ d') (hwell : d.WellFormed r) (hg' : g'.Depicts r d')
    {i : Nat} {n : Node} (hn : g'.node? i = some n) {number : Int}
    (hsingle : n.kind.capacity .input number = .single) :
    d'.edges.find? (·.endsAt .input n.id number) = d.edges.find? (·.endsAt .input n.id number) := by
  refine find?_eq_of_perm h.edges ((h.wellFormed hwell).capacity.imp ?_)
  rintro e f hef ⟨he, hf⟩
  rw [EdgeRecord.endsAt, decide_eq_true_eq] at he hf
  have hnames : ∀ {text}, NodeId.parse? text = some n.id → d'.Names text i := fun hparse =>
    hg'.hasNodes.names_iff.2 ⟨n.id, hparse, n, hn, rfl⟩
  have hmulti := hef .input i n.kind ⟨hnames he.1, hnames hf.1, he.2.trans hf.2.symm⟩
    (by rw [hg'.hasNodes.kindAt?_eq, hn, Option.map_some])
  rw [he.2, hsingle] at hmulti
  cases hmulti

/-- **Documents in different orders load to graphs that differ in the positions of nodes only.** -/
theorem renumbers (h : d.Reorders σ d') (hg : Graph.ofDocument r d = .ok g)
    (hg' : Graph.ofDocument r d' = .ok g') : g.Renumbers σ g' := by
  obtain ⟨hwell, hdepicts⟩ := Graph.wellFormed_and_depicts hg
  obtain ⟨-, hdepicts'⟩ := Graph.wellFormed_and_depicts hg'
  have htables := Graph.tablesAgree_of_ofDocument hg
  have htables' := Graph.tablesAgree_of_ofDocument hg'
  refine ⟨?_, h.map_bare_node? hdepicts hdepicts', h.map_entry? hdepicts hdepicts', ?_, ?_, ?_⟩
  · rw [hdepicts'.size, hdepicts.size, length_of_reordered h.nodes]
  · intro i n number hn
    have hfind := congrArg (Option.map PortRef.node) <|
      h.map_endpoint_find? hwell hdepicts hdepicts' hn (h.first_leaving_eq n.id number) .input
    rw [Option.map_map, Option.map_map] at hfind
    rw [htables.follow, htables'.follow, Option.map_map]
    exact hfind
  · intro i n number hn hsingle
    have hfind := h.map_endpoint_find? hwell hdepicts hdepicts' hn
      (h.first_entering_eq hwell hdepicts' hn hsingle) .output
    rw [htables.source, htables'.source, Option.map_map]
    exact hfind
  · intro i n m hn hm
    have hfind := congrArg Option.isSome <| h.map_endpoint_find? hwell hdepicts hdepicts' hn
      (h.first_entering_eq hwell hdepicts' hn (Graph.capacity_eq_single (Or.inr rfl))) .input
    rw [Option.isSome_map, Option.isSome_map] at hfind
    rw [hdepicts'.isConnected_eq hn, hdepicts.isConnected_eq hm]
    exact hfind

end Document.Reorders

end BranchingDialogue
