import BranchingDialogue.Document.Load
import BranchingDialogue.Proofs.Graph.Adjacency
import BranchingDialogue.Proofs.Loops

/-!
# Which edges are admitted

Edges are admitted one after the other, each against the graph with those before it: its ends have
to name declared ports, a data socket has to be fed by a processor, and a port that takes one edge
has to be free. `foldlM_admitEdge_eq_ok_iff` says what this comes to for the whole list: every
record names its ports in the graph without edges, and of two edges at one port that port takes
many. The graph that results is the one in which the pairs of ports are joined in order.
-/

namespace BranchingDialogue.Graph

/-- An end of an edge, as stored, names a port that its node declares. -/
structure Resolves (g : Graph) (record : PortRecord) (direction : Direction) (p : PortRef) :
    Prop where
  node : ∃ id, NodeId.parse? record.node = some id ∧ g.indexOf? id = some p.node
  faces : p.direction = direction
  number : p.number = record.number
  declared : ∃ n, g.node? p.node = some n ∧ n.layout.contains direction record.number = true

/-- An edge, as stored, leads from a declared output to a declared input, and from a processor if
the input is a data socket. -/
structure ResolvesEdge (g : Graph) (record : EdgeRecord) (ends : PortRef × PortRef) : Prop where
  output : g.Resolves record.output .output ends.1
  input : g.Resolves record.input .input ends.2
  source : (PortSlot.ofNumber ends.2.number).isSecondary = true →
    ∃ n, g.node? ends.1.node = some n ∧ n.kind.isProcessor = true

/-- A port takes any number of edges. -/
def TakesMany (g : Graph) (p : PortRef) : Prop :=
  ∀ n, g.node? p.node = some n → n.kind.capacity p.direction p.number = .multi

/-- A port takes one more edge. -/
def Free (g : Graph) (p : PortRef) : Prop := g.edgesAt p ≠ [] → g.TakesMany p

/-! ## The nodes do not change -/

theorem Resolves.of_bareNodes {g g' : Graph} (h : g'.bareNodes = g.bareNodes) {record : PortRecord}
    {direction : Direction} {p : PortRef} (hr : g.Resolves record direction p) :
    g'.Resolves record direction p := by
  obtain ⟨⟨id, hid, hindex⟩, hd, hn, ⟨n, hnode, hcontains⟩⟩ := hr
  obtain ⟨n', hnode', hbare⟩ := exists_node?_of_bareNodes h hnode
  refine ⟨⟨id, hid, ?_⟩, hd, hn, ⟨n', hnode', ?_⟩⟩
  · rw [indexOf?_of_bareNodes h, hindex]
  · rw [Node.layout_of_bare hbare, hcontains]

theorem ResolvesEdge.of_bareNodes {g g' : Graph} (h : g'.bareNodes = g.bareNodes)
    {record : EdgeRecord} {ends : PortRef × PortRef} (hr : g.ResolvesEdge record ends) :
    g'.ResolvesEdge record ends := by
  refine ⟨hr.output.of_bareNodes h, hr.input.of_bareNodes h, fun hsecondary => ?_⟩
  obtain ⟨n, hnode, hprocessor⟩ := hr.source hsecondary
  obtain ⟨n', hnode', hbare⟩ := exists_node?_of_bareNodes h hnode
  exact ⟨n', hnode', by rw [Node.kind_of_bare hbare, hprocessor]⟩

theorem TakesMany.of_bareNodes {g g' : Graph} (h : g'.bareNodes = g.bareNodes) {p : PortRef}
    (hm : g.TakesMany p) : g'.TakesMany p := by
  intro n' hn'
  obtain ⟨n, hn, hbare⟩ := exists_node?_of_bareNodes h.symm hn'
  rw [← Node.kind_of_bare hbare]
  exact hm n hn

/-! ## One end -/

theorem capacity_output (kind : NodeKind) (number : Int) :
    kind.capacity .output number = .multi := by
  simp [NodeKind.capacity]

theorem free_of_output {g : Graph} {p : PortRef} (h : p.direction = .output) : g.Free p := by
  intro _ n _
  rw [h, capacity_output]

theorem any_not_accepts (n : Node) (direction : Direction) (number : Int) :
    (n.port? direction number).any (!·.accepts) = !(n.portOrNew direction number).accepts := by
  rw [Node.portOrNew]
  cases n.port? direction number with
  | none => simp [Port.new, Port.accepts]
  | some port => simp

/-- The test of a port's own list of edges is a statement about the edges of the graph. -/
theorem accepts_iff_free {g : Graph} (hc : g.Consistent) {p : PortRef} {n : Node}
    (hn : g.node? p.node = some n) :
    (n.portOrNew p.direction p.number).accepts = true ↔ g.Free p := by
  rw [hc.ports p n hn, Port.accepts, Free, TakesMany, Bool.or_eq_true, beq_iff_eq,
    List.isEmpty_iff]
  constructor
  · rintro (hcap | hempty) hne m hm
    · rw [hn] at hm
      cases hm
      exact hcap
    · exact absurd hempty hne
  · intro h
    by_cases hempty : g.edgesAt p = []
    · exact Or.inr hempty
    · exact Or.inl (h hempty n hn)

theorem resolvePort_eq_ok_iff {g : Graph} (hc : g.Consistent) {edge : Nat} {record : PortRecord}
    {direction : Direction} {p : PortRef} {n : Node} :
    g.resolvePort edge record direction = .ok (p, n)
      ↔ g.Resolves record direction p ∧ g.node? p.node = some n ∧ g.Free p := by
  constructor
  · intro h
    cases hid : NodeId.parse? record.node with
    | none => simp [resolvePort, hid] at h
    | some id =>
      cases hi : g.indexOf? id with
      | none => simp [resolvePort, hid, hi] at h
      | some i =>
        cases hm : g.node? i with
        | none => simp [resolvePort, hid, hi, hm] at h
        | some m =>
          simp only [resolvePort, hid, hi, hm, any_not_accepts] at h
          split at h
          · cases h
          · next hcontains =>
            split at h
            · cases h
            · next haccepts =>
              cases h
              refine ⟨⟨⟨id, hid, hi⟩, rfl, rfl, n, hm, by simpa using hcontains⟩, hm, ?_⟩
              exact (accepts_iff_free hc (p := ⟨i, direction, record.number⟩) hm).1
                (by simpa using haccepts)
  · rintro ⟨⟨⟨id, hid, hi⟩, hdir, hnum, m, hm, hcontains⟩, hn, hfree⟩
    obtain ⟨i, side, number⟩ := p
    simp only at hi hdir hnum hm hn
    subst hdir hnum
    -- The node that declares the port and the one that is given are both the one found there.
    rw [hn] at hm
    cases hm
    have haccepts := (accepts_iff_free hc hn).2 hfree
    simp only [resolvePort, hid, hi, hn, hcontains, any_not_accepts, haccepts, Bool.not_true,
      Bool.false_eq_true, if_false]

/-! ## One edge -/

theorem admitEdge_eq_ok_iff {g g' : Graph} (hc : g.Consistent) {record : EdgeRecord} {edge : Nat} :
    g.admitEdge record edge = .ok g'
      ↔ ∃ ends, g.ResolvesEdge record ends ∧ g.Free ends.2 ∧ g' = g.join ends.1 ends.2 := by
  constructor
  · intro h
    rw [admitEdge] at h
    split at h
    · cases h
    · next output source houtput =>
      split at h
      · cases h
      · next input target hinput =>
        obtain ⟨hro, hno, -⟩ := (resolvePort_eq_ok_iff hc).1 houtput
        obtain ⟨hri, hni, hfree⟩ := (resolvePort_eq_ok_iff hc).1 hinput
        split at h
        · cases h
        · next hsource =>
          rw [connect?_eq_join hro.faces hri.faces hno hni] at h
          cases h
          refine ⟨(output, input), ⟨hro, hri, fun hsecondary => ⟨source, hno, ?_⟩⟩, hfree, rfl⟩
          simpa [hsecondary] using hsource
  · rintro ⟨⟨output, input⟩, ⟨hro, hri, hsource⟩, hfree, rfl⟩
    obtain ⟨n, hn, -⟩ := hro.declared
    obtain ⟨m, hm, -⟩ := hri.declared
    have houtput : g.resolvePort edge record.output .output = .ok (output, n) :=
      (resolvePort_eq_ok_iff hc).2 ⟨hro, hn, free_of_output hro.faces⟩
    have hinput : g.resolvePort edge record.input .input = .ok (input, m) :=
      (resolvePort_eq_ok_iff hc).2 ⟨hri, hm, hfree⟩
    -- The source is checked last, as the negation of what the record demands.
    have hfed : ¬((PortSlot.ofNumber input.number).isSecondary = true
        ∧ (!n.kind.isProcessor) = true) := by
      rintro ⟨hsecondary, hno⟩
      obtain ⟨n', hn', hprocessor⟩ := hsource hsecondary
      rw [hn] at hn'
      cases hn'
      rw [hprocessor] at hno
      cases hno
    rw [admitEdge, houtput]
    simp only [hinput, if_neg hfed]
    rw [connect?_eq_join hro.faces hri.faces hn hm]

/-! ## All edges -/

/-- Joins pairs of ports in order. -/
def joinAll (g : Graph) (ends : List (PortRef × PortRef)) : Graph :=
  ends.foldl (fun g e => g.join e.1 e.2) g

theorem joinAll_cons (g : Graph) (e : PortRef × PortRef) (ends : List (PortRef × PortRef)) :
    g.joinAll (e :: ends) = (g.join e.1 e.2).joinAll ends := rfl

/-- After a join a port is free if it was before and is not the one that was joined. -/
theorem free_join_iff {g : Graph} {output input p : PortRef} (ho : output.direction = .output)
    (hi : input.direction = .input) (hp : p.direction = .input) :
    (g.join output input).Free p ↔ g.Free p ∧ (input = p → g.TakesMany p) := by
  have hmany : (g.join output input).TakesMany p ↔ g.TakesMany p :=
    ⟨fun h => h.of_bareNodes (bareNodes_join g output input).symm,
      fun h => h.of_bareNodes (bareNodes_join g output input)⟩
  have hpo : p ≠ output := fun h => by
    rw [h, ho] at hp
    cases hp
  -- The new edge counts at `p` only if it ends there; else the list at `p` is the old one.
  rw [Free, Free, hmany, edgesAt_join g ho hi]
  by_cases h : input = p
  · subst h
    simp only [hpo, or_true, if_true, ne_eq, List.append_eq_nil_iff, List.cons_ne_self, and_false,
      not_false_eq_true, true_implies]
    exact ⟨fun h => ⟨fun _ => h, h⟩, fun h => h.2⟩
  · simp [h, hpo, Ne.symm h]

theorem foldlM_admitEdge_eq_ok_iff {g g' : Graph} (hc : g.Consistent)
    {records : List (EdgeRecord × Nat)} :
    records.foldlM (fun g (record, edge) => g.admitEdge record edge) g = .ok g'
      ↔ ∃ ends, List.Forall₂ (fun r e => g.ResolvesEdge r.1 e) records ends
          ∧ (∀ e ∈ ends, g.Free e.2)
          ∧ ends.Pairwise (fun a b => a.2 = b.2 → g.TakesMany b.2)
          ∧ g' = g.joinAll ends := by
  induction records generalizing g with
  | nil =>
    simp only [List.foldlM_nil, List.forall₂_nil_left_iff]
    constructor
    · intro h
      cases h
      exact ⟨[], rfl, by simp, .nil, rfl⟩
    · rintro ⟨ends, rfl, -, -, rfl⟩
      rfl
  | cons r records ih =>
    obtain ⟨record, edge⟩ := r
    rw [foldlM_cons_eq_ok_iff]
    constructor
    · rintro ⟨g₁, hadmit, h⟩
      obtain ⟨e, hr, hfree, rfl⟩ := (admitEdge_eq_ok_iff hc).1 hadmit
      obtain ⟨n, hn, -⟩ := hr.output.declared
      obtain ⟨m, hm, -⟩ := hr.input.declared
      have ho := hr.output.faces
      have hi := hr.input.faces
      obtain ⟨ends, hall, hfrees, hpair, rfl⟩ := (ih (hc.join ho hi hn hm)).1 h
      -- What the later records name does not depend on this edge; only what is free does.
      have hframe := (bareNodes_join g e.1 e.2).symm
      have hinput : ∀ e' ∈ ends, e'.2.direction = .input := fun e' he' => by
        obtain ⟨_, -, hr'⟩ := exists_mem_of_forall₂ hall he'
        exact hr'.input.faces
      refine ⟨e :: ends, .cons hr (hall.imp fun _ _ h => h.of_bareNodes hframe), ?_, ?_, rfl⟩
      · intro e' he'
        rcases List.mem_cons.1 he' with rfl | he'
        · exact hfree
        · exact ((free_join_iff ho hi (hinput e' he')).1 (hfrees e' he')).1
      · refine .cons (fun e' he' => ?_) (hpair.imp fun h heq => (h heq).of_bareNodes hframe)
        exact ((free_join_iff ho hi (hinput e' he')).1 (hfrees e' he')).2
    · rintro ⟨ends, hall, hfrees, hpair, rfl⟩
      obtain ⟨e, rest, hr, hrest, rfl⟩ := List.forall₂_cons_left_iff.1 hall
      obtain ⟨n, hn, -⟩ := hr.output.declared
      obtain ⟨m, hm, -⟩ := hr.input.declared
      have ho := hr.output.faces
      have hi := hr.input.faces
      have hframe := bareNodes_join g e.1 e.2
      have hadmit : g.admitEdge record edge = .ok (g.join e.1 e.2) :=
        (admitEdge_eq_ok_iff hc).2 ⟨e, hr, hfrees e List.mem_cons_self, rfl⟩
      refine ⟨_, hadmit, (ih (hc.join ho hi hn hm)).2 ?_⟩
      refine ⟨rest, hrest.imp fun _ _ h => h.of_bareNodes hframe, ?_, ?_, rfl⟩
      · intro e' he'
        obtain ⟨_, -, hr'⟩ := exists_mem_of_forall₂ hrest he'
        exact (free_join_iff ho hi hr'.input.faces).2 ⟨hfrees _ (List.mem_cons_of_mem _ he'),
          List.rel_of_pairwise_cons hpair he'⟩
      · exact hpair.of_cons.imp fun h heq => (h heq).of_bareNodes hframe

/-! ## The graph with all edges -/

theorem bareNodes_joinAll (g : Graph) (ends : List (PortRef × PortRef)) :
    (g.joinAll ends).bareNodes = g.bareNodes := by
  induction ends generalizing g with
  | nil => rfl
  | cons e ends ih => rw [joinAll_cons, ih, bareNodes_join]

theorem edges_joinAll (g : Graph) (ends : List (PortRef × PortRef)) :
    (g.joinAll ends).edges.toList
      = g.edges.toList ++ ends.mapIdx fun k e => ⟨g.edges.size + k, e.1, e.2⟩ := by
  induction ends generalizing g with
  | nil => simp [joinAll]
  | cons e ends ih =>
    rw [joinAll_cons, ih, edges_join, Array.toList_push, List.mapIdx_cons, Array.size_push,
      List.append_assoc]
    simp only [Nat.add_zero, List.singleton_append, Nat.add_assoc, Nat.add_comm 1]

/-- Joining touches nothing but nodes and edges. -/
theorem joinAll_frame (g : Graph) (ends : List (PortRef × PortRef)) :
    (g.joinAll ends).version = g.version ∧ (g.joinAll ends).objectId = g.objectId
      ∧ (g.joinAll ends).properties = g.properties ∧ (g.joinAll ends).entries = g.entries := by
  induction ends generalizing g with
  | nil => exact ⟨rfl, rfl, rfl, rfl⟩
  | cons e ends ih => exact ih (g.join e.1 e.2)

/-- Edges that resolve keep ports and edges in agreement. -/
theorem consistent_joinAll {g : Graph} (hc : g.Consistent) (hs : g.Sparse)
    {records : List EdgeRecord} {ends : List (PortRef × PortRef)}
    (hall : List.Forall₂ g.ResolvesEdge records ends) :
    (g.joinAll ends).Consistent ∧ (g.joinAll ends).Sparse := by
  induction records generalizing g ends with
  | nil =>
    rw [List.forall₂_nil_left_iff.1 hall]
    exact ⟨hc, hs⟩
  | cons record records ih =>
    obtain ⟨e, rest, hr, hrest, rfl⟩ := List.forall₂_cons_left_iff.1 hall
    obtain ⟨n, hn, -⟩ := hr.output.declared
    obtain ⟨m, hm, -⟩ := hr.input.declared
    have hframe := bareNodes_join g e.1 e.2
    exact ih (hc.join hr.output.faces hr.input.faces hn hm)
      (hs.join hr.output.faces hr.input.faces hm) (hrest.imp fun _ _ h => h.of_bareNodes hframe)

end BranchingDialogue.Graph
