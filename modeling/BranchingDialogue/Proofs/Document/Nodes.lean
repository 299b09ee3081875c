import BranchingDialogue.Proofs.Graph.Adjacency
import BranchingDialogue.Proofs.Loops
import BranchingDialogue.Proofs.Value

/-!
# Which nodes are admitted

Nodes are admitted in order, each against those before it. `foldlM_admitNode_eq_ok_iff` says what
this comes to for the whole list: identifiers differ, every input node has a name, and the names
differ. `Graph.Named` is what the table of entries says on the way: each name leads to the node
that bears it.
-/

namespace BranchingDialogue

/-- The name of the entry that a node is; none if it is no entry or has no name. -/
def Node.entryName? (n : Node) : Option String :=
  if n.kind = .input then n.payload.text? entryNameKey else none

/-- **A node is read from its record** exactly when its identifier, its binder and its payload can
be, and then it is made of them and has no ports. -/
theorem Node.ofRecord_eq_ok_iff {r : NodeRegistry} {record : NodeRecord} {data : Json}
    {position : Option Position} {n : Node} :
    Node.ofRecord r record data position = .ok n
      ↔ data.IsPayload ∧ ∃ id kind, NodeId.parse? record.id = some id
          ∧ r.resolve? record.binder = some kind
          ∧ n = ⟨id, record.binder, record.viewType, kind, data.payload, position, {}, {}⟩ := by
  rw [Node.ofRecord]
  cases hid : NodeId.parse? record.id with
  | none => simp
  | some id =>
    cases hkind : r.resolve? record.binder with
    | none => simp
    | some kind =>
      simp only
      constructor
      · intro h
        split at h
        · cases h
        · next payload hpayload =>
          cases h
          obtain ⟨hdata, rfl⟩ := Payload.ofJson_eq_ok_iff.1 hpayload
          exact ⟨hdata, id, kind, rfl, rfl, rfl⟩
      · rintro ⟨hdata, _, _, ⟨⟩, ⟨⟩, rfl⟩
        rw [Payload.ofJson_eq_ok_iff.2 ⟨hdata, rfl⟩]
        rfl

/-- Two nodes can be in one graph: they have different identifiers and no name in common. -/
structure Node.Compatible (a b : Node) : Prop where
  id : a.id ≠ b.id
  name : ∀ name, a.entryName? = some name → b.entryName? ≠ some name

theorem Node.Compatible.symm {a b : Node} (h : a.Compatible b) : b.Compatible a :=
  ⟨h.id.symm, fun name hb ha => h.name name ha hb⟩

namespace Graph

/-! ## Looking up identifiers -/

/-- No two nodes have the same identifier. -/
def DistinctIds (g : Graph) : Prop :=
  ∀ i j n m, g.node? i = some n → g.node? j = some m → n.id = m.id → i = j

theorem indexOf?_eq_none_iff {g : Graph} {id : NodeId} :
    g.indexOf? id = none ↔ ∀ n ∈ g.nodes, n.id ≠ id := by
  rw [indexOf?, Array.findIdx?_eq_none_iff]
  simp only [decide_eq_false_iff_not, ne_eq]

/-- Where identifiers differ, the position found for one is that of the node that has it. -/
theorem indexOf?_eq_some_iff {g : Graph} (h : g.DistinctIds) {id : NodeId} {i : Nat} :
    g.indexOf? id = some i ↔ ∃ n, g.node? i = some n ∧ n.id = id := by
  constructor
  · intro hi
    rw [indexOf?, Array.findIdx?_eq_some_iff_getElem] at hi
    obtain ⟨hlt, hid, -⟩ := hi
    exact ⟨g.nodes[i], Array.getElem?_eq_getElem hlt, by simpa using hid⟩
  · rintro ⟨n, hn, hid⟩
    cases hj : g.indexOf? id with
    | none =>
      exact absurd hid (indexOf?_eq_none_iff.1 hj n (Array.mem_of_getElem? hn))
    | some j =>
      rw [indexOf?, Array.findIdx?_eq_some_iff_getElem] at hj
      obtain ⟨hlt, hid', -⟩ := hj
      have hid' : g.nodes[j].id = id := by simpa using hid'
      rw [h j i _ n (Array.getElem?_eq_getElem hlt) hn (hid'.trans hid.symm)]

/-! ## One node -/

/-- The graph with one more node, named as an entry if it is one. -/
def admitted (g : Graph) (n : Node) : Graph :=
  { g with
    nodes := g.nodes.push n
    entries :=
      match n.entryName? with
      | none => g.entries
      | some name => g.entries.insert name g.nodes.size }

/-- A node can be admitted: its identifier is new, and an input node has a name, a new one. -/
structure Fits (g : Graph) (n : Node) : Prop where
  fresh : g.indexOf? n.id = none
  named : n.kind = .input → n.entryName? ≠ none
  free : ∀ name, n.entryName? = some name → g.entry? name = none

theorem entryName_eq (n : Node) :
    entryName n
      = if n.kind = .input ∧ n.entryName? = none then .error (.missingEntryName n.id)
        else .ok n.entryName? := by
  rw [entryName, Node.entryName?]
  by_cases hk : n.kind = .input
  · cases n.payload.text? entryNameKey <;> simp [hk]
  · simp [hk]

theorem admitNode_eq_ok_iff {g g' : Graph} {n : Node} :
    g.admitNode n = .ok g' ↔ g.Fits n ∧ g' = g.admitted n := by
  rw [admitNode, entryName_eq]
  by_cases hmissing : n.kind = .input ∧ n.entryName? = none
  · rw [if_pos hmissing]
    exact ⟨fun h => (by cases h), fun h => absurd hmissing.2 (h.1.named hmissing.1)⟩
  · rw [if_neg hmissing, addNode?]
    have hnamed : n.kind = .input → n.entryName? ≠ none := fun hk hn => hmissing ⟨hk, hn⟩
    cases hindex : g.indexOf? n.id with
    | some i =>
      refine ⟨fun h => (by cases h), fun h => ?_⟩
      rw [h.1.fresh] at hindex
      cases hindex
    | none =>
      simp only [Option.isSome_none, Bool.false_eq_true, if_false]
      cases hname : n.entryName? with
      | none =>
        rw [admitted, hname]
        constructor
        · intro h
          cases h
          exact ⟨⟨hindex, hnamed, fun name h => by rw [hname] at h; cases h⟩, rfl⟩
        · rintro ⟨-, rfl⟩
          rfl
      | some name =>
        -- The name is looked up after the node is in, but the node has not changed the names.
        have hlookup : Graph.entry? { g with nodes := g.nodes.push n } name = g.entry? name := rfl
        rw [admitted, hname]
        simp only [hlookup]
        constructor
        · intro h
          split at h
          · cases h
          · next hfree =>
            cases h
            refine ⟨⟨hindex, hnamed, fun own hown => ?_⟩, rfl⟩
            rw [hname] at hown
            cases hown
            simpa using hfree
        · rintro ⟨hfits, rfl⟩
          rw [hfits.free name hname]
          rfl

/-- Every name leads to the node that bears it. -/
def Named (g : Graph) : Prop :=
  ∀ name i, g.entry? name = some i ↔ ∃ n, g.node? i = some n ∧ n.entryName? = some name

theorem node?_admitted (g : Graph) (n : Node) (i : Nat) :
    (g.admitted n).node? i = if i = g.nodes.size then some n else g.node? i := by
  rw [node?, admitted, Array.getElem?_push]
  rfl

theorem entry?_admitted (g : Graph) (n : Node) (name : String) :
    Graph.entry? (g.admitted n) name
      = if n.entryName? = some name then some g.nodes.size else g.entry? name := by
  rw [ entry?, entry?, admitted]
  cases n.entryName? with
  | none => rw [if_neg (by nofun)]
  | some own => simp only [Dictionary.get?_insert, Option.some.injEq]

theorem Named.admitted {g : Graph} (hg : g.Named) {n : Node}
    (hfree : ∀ name, n.entryName? = some name → g.entry? name = none) : (g.admitted n).Named := by
  intro name i
  rw [entry?_admitted, node?_admitted]
  by_cases hi : i = g.nodes.size
  · -- The new node: no name has led to its position before.
    subst hi
    rw [if_pos rfl]
    split
    · next hname => exact ⟨fun _ => ⟨n, rfl, hname⟩, fun _ => rfl⟩
    · next hname =>
      constructor
      · intro h
        obtain ⟨m, hm, -⟩ := (hg name _).1 h
        rw [node?, Array.getElem?_size] at hm
        cases hm
      · rintro ⟨m, ⟨⟩, hm⟩
        exact absurd hm hname
  · rw [if_neg hi]
    split
    · next hname =>
      have hnone := hfree name hname
      refine ⟨fun h => absurd (Option.some.inj h).symm hi, fun h => ?_⟩
      rw [(hg name i).2 h] at hnone
      cases hnone
    · exact hg name i

/-! ## All nodes -/

/-- Admits nodes in order. -/
def admitAll (g : Graph) (ns : List Node) : Graph := ns.foldl admitted g

theorem nodes_admitAll (g : Graph) (ns : List Node) :
    (g.admitAll ns).nodes = g.nodes ++ ns.toArray := by
  induction ns generalizing g with
  | nil => simp [admitAll]
  | cons n ns ih =>
    show ((g.admitted n).admitAll ns).nodes = _
    rw [ih, admitted]
    simp

theorem fits_admitted_iff {g : Graph} {n m : Node} :
    (g.admitted n).Fits m ↔ g.Fits m ∧ n.Compatible m := by
  -- Both tests look through what there was before and then at the new node.
  have hindex : (g.admitted n).indexOf? m.id = none ↔ g.indexOf? m.id = none ∧ n.id ≠ m.id := by
    rw [indexOf?_eq_none_iff, indexOf?_eq_none_iff]
    simp only [admitted, Array.mem_push]
    constructor
    · exact fun h => ⟨fun k hk => h k (Or.inl hk), h n (Or.inr rfl)⟩
    · rintro ⟨hold, hnew⟩ k (hk | rfl)
      · exact hold k hk
      · exact hnew
  have hentry : ∀ name, Graph.entry? (g.admitted n) name = none
      ↔ g.entry? name = none ∧ n.entryName? ≠ some name := by
    intro name
    rw [entry?_admitted]
    split
    · next hname => simp [hname]
    · next hname => simp [hname]
  constructor
  · rintro ⟨hfresh, hnamed, hfree⟩
    refine ⟨⟨(hindex.1 hfresh).1, hnamed, fun name h => ((hentry name).1 (hfree name h)).1⟩,
      (hindex.1 hfresh).2, fun name hn hm => ((hentry name).1 (hfree name hm)).2 hn⟩
  · rintro ⟨⟨hfresh, hnamed, hfree⟩, hid, hdiffer⟩
    exact ⟨hindex.2 ⟨hfresh, hid⟩, hnamed,
      fun name h => (hentry name).2 ⟨hfree name h, fun hn => hdiffer name hn h⟩⟩

theorem foldlM_admitNode_eq_ok_iff {g g' : Graph} {ns : List Node} :
    ns.foldlM admitNode g = .ok g'
      ↔ (∀ n ∈ ns, g.Fits n) ∧ ns.Pairwise Node.Compatible ∧ g' = g.admitAll ns := by
  induction ns generalizing g with
  | nil =>
    rw [List.foldlM_nil]
    constructor
    · intro h
      cases h
      exact ⟨fun _ h => absurd h List.not_mem_nil, .nil, rfl⟩
    · rintro ⟨-, -, rfl⟩
      rfl
  | cons n ns ih =>
    rw [foldlM_cons_eq_ok_iff, List.forall_mem_cons, List.pairwise_cons]
    constructor
    · rintro ⟨g₁, hadmit, h⟩
      obtain ⟨hfits, rfl⟩ := admitNode_eq_ok_iff.1 hadmit
      obtain ⟨hall, hpair, rfl⟩ := ih.1 h
      exact ⟨⟨hfits, fun m hm => (fits_admitted_iff.1 (hall m hm)).1⟩,
        ⟨fun m hm => (fits_admitted_iff.1 (hall m hm)).2, hpair⟩, rfl⟩
    · rintro ⟨⟨hfits, hall⟩, ⟨hhead, hpair⟩, rfl⟩
      refine ⟨_, admitNode_eq_ok_iff.2 ⟨hfits, rfl⟩, ih.2 ⟨fun m hm => ?_, hpair, rfl⟩⟩
      exact fits_admitted_iff.2 ⟨hall m hm, hhead m hm⟩

theorem Named.admitAll {g : Graph} (hg : g.Named) {ns : List Node} (hfits : ∀ n ∈ ns, g.Fits n)
    (hpair : ns.Pairwise Node.Compatible) : (g.admitAll ns).Named := by
  induction ns generalizing g with
  | nil => exact hg
  | cons n ns ih =>
    rw [List.forall_mem_cons] at hfits
    rw [List.pairwise_cons] at hpair
    refine ih (hg.admitted hfits.1.free) (fun m hm => ?_) hpair.2
    exact fits_admitted_iff.2 ⟨hfits.2 m hm, hpair.1 m hm⟩

end Graph

end BranchingDialogue
