import BranchingDialogue.Proofs.Document.Loaded
import BranchingDialogue.Proofs.Graph.Closure

/-!
# The counts of a graph

How many nodes cannot be reached is counted as a difference: the number of nodes less the number of what
can be reached. The nodes that cannot be reached are listed by going through the nodes. The two agree as
long as all that can be reached is a node.

Edges lead to nodes only, but an entry can be given any number (`Graph.strays`). A stray is reached and
is not a node, so each of them makes the difference too small by one
(`Consistent.length_reachable_add`), and below zero where there are more of them than nodes that cannot
be reached. Without strays the counts add up (`Consistent.addsUp_iff`); entries of loaded graphs do not
stray (`addsUp_of_ofDocument`).

Main result: `addsUp_iff_of_build`.
-/

namespace BranchingDialogue.Graph

variable {g : Graph} {i : Nat}

theorem exists_node?_iff : (∃ n, g.node? i = some n) ↔ i < g.nodes.size :=
  ⟨fun ⟨_, hn⟩ => (Array.getElem?_eq_some_iff.1 hn).1, fun h => ⟨_, Array.getElem?_eq_getElem h⟩⟩

/-- The numbers that entries have been given though the graph has no such node. -/
def strays (g : Graph) : List Nat :=
  g.entries.values.eraseDups.filter fun i => (g.node? i).isNone

theorem mem_strays_iff : i ∈ g.strays
    ↔ (∃ name, g.entry? name = some i) ∧ ¬∃ n, g.node? i = some n := by
  rw [strays, List.mem_filter, List.mem_eraseDups, mem_values_iff, Option.isNone_iff_eq_none,
    Option.eq_none_iff_forall_ne_some, not_exists]

theorem strays_eq_nil_iff : g.strays = []
    ↔ ∀ name i, g.entry? name = some i → ∃ n, g.node? i = some n := by
  rw [List.eq_nil_iff_forall_not_mem]
  constructor
  · intro h name i hentry
    by_contra hnot
    exact h i (mem_strays_iff.2 ⟨⟨name, hentry⟩, hnot⟩)
  · rintro h i hi
    obtain ⟨⟨name, hentry⟩, hnot⟩ := mem_strays_iff.1 hi
    exact hnot (h name i hentry)

/-! ## What is listed -/

/-- What cannot be reached is a node. -/
theorem exists_node_of_mem_unreachable (h : i ∈ g.unreachable) : ∃ n, g.node? i = some n :=
  exists_node?_iff.2 (List.mem_range.1 (List.mem_filter.1 h).1)

/-- Edges lead from nodes to nodes, so what can be reached is a node or what an entry has been given. -/
theorem Consistent.mem_reachable (hc : g.Consistent) (h : i ∈ g.reachable) :
    (∃ n, g.node? i = some n) ∨ i ∈ g.strays := by
  by_cases hnode : ∃ n, g.node? i = some n
  · exact .inl hnode
  · refine .inr (mem_strays_iff.2 ⟨?_, hnode⟩)
    obtain ⟨j, ⟨name, start, hentry, hflows⟩, hfeeds⟩ := mem_reachable_iff.1 h
    -- It is at the end of no step, so none has been taken.
    rcases hfeeds.cases_tail with rfl | ⟨_, -, e, he, -, rfl, -⟩
    · rcases hflows.cases_tail with rfl | ⟨_, -, e, he, -, rfl⟩
      · exact ⟨name, hentry⟩
      · exact absurd (hc.inputs e he).2 hnode
    · exact absurd (hc.outputs e he).2 hnode

theorem strays_subset : g.strays ⊆ g.reachable := by
  intro i hi
  obtain ⟨⟨name, hentry⟩, -⟩ := mem_strays_iff.1 hi
  exact reachable_of_ahead ⟨name, i, hentry, .refl⟩

theorem nodup_reachable (g : Graph) : g.reachable.Nodup :=
  (pairwise_reachable g).imp Nat.ne_of_lt

theorem Consistent.length_strays (hc : g.Consistent) :
    (g.reachable.filter fun i => !decide (i < g.nodes.size)).length = g.strays.length := by
  have hstrays : g.strays.Nodup := (nodup_eraseDups _).filter _
  refine ((List.perm_ext_iff_of_nodup ((nodup_reachable g).filter _) hstrays).2 fun i => ?_).length_eq
  rw [List.mem_filter, Bool.not_eq_true', decide_eq_false_iff_not, ← exists_node?_iff]
  constructor
  · rintro ⟨hmem, hnot⟩
    exact (hc.mem_reachable hmem).resolve_left hnot
  · intro hi
    exact ⟨strays_subset hi, (mem_strays_iff.1 hi).2⟩

theorem length_reachable_nodes (g : Graph) :
    (g.reachable.filter fun i => decide (i < g.nodes.size)).length
      = ((List.range g.nodes.size).filter fun i => g.reachable.contains i).length := by
  refine ((List.perm_ext_iff_of_nodup ((nodup_reachable g).filter _)
    (List.nodup_range.filter _)).2 fun i => ?_).length_eq
  rw [List.mem_filter, List.mem_filter, decide_eq_true_iff, List.mem_range, List.contains_iff_mem,
    and_comm]

/-- **What can be reached and what cannot be make up the nodes and the strays.** -/
theorem Consistent.length_reachable_add (hc : g.Consistent) :
    g.reachable.length + g.unreachable.length = g.nodes.size + g.strays.length := by
  have hreachable :=
    List.length_eq_length_filter_add (l := g.reachable) fun i => decide (i < g.nodes.size)
  have hnodes :=
    List.length_eq_length_filter_add (l := List.range g.nodes.size) fun i => g.reachable.contains i
  rw [hc.length_strays, length_reachable_nodes] at hreachable
  rw [List.length_range] at hnodes
  show _ + ((List.range g.nodes.size).filter fun i => !g.reachable.contains i).length = _
  omega

/-! ## What is counted -/

/-- The counts agree with each other and with the lists, and the lists are of nodes. -/
structure AddsUp (g : Graph) : Prop where
  /-- The difference that is counted is not below zero. -/
  bound : g.reachable.length ≤ g.nodes.size
  total : g.stats.reachableNodes + g.stats.unreachableNodes = g.stats.totalNodes
  listed : g.stats.unreachableNodes = g.unreachable.length
  nodes : ∀ i, i ∈ g.reachable ∨ i ∈ g.unreachable → ∃ n, g.node? i = some n

/-- A difference of counts that is not below zero is that of the numbers. -/
theorem unreachableNodes_eq (hsize : g.nodes.size < 2 ^ 64)
    (hbound : g.reachable.length ≤ g.nodes.size) :
    g.stats.unreachableNodes = g.nodes.size - g.reachable.length := by
  have hcount : ∀ {k : Nat}, k < 2 ^ 64 → k.toUInt64.toNat = k := Nat.mod_eq_of_lt
  have hle : g.reachable.length.toUInt64 ≤ g.nodes.size.toUInt64 := by
    rw [UInt64.le_iff_toNat_le, hcount hsize, hcount (hbound.trans_lt hsize)]
    exact hbound
  show (g.nodes.size.toUInt64 - g.reachable.length.toUInt64).toNat = _
  rw [UInt64.toNat_sub_of_le _ _ hle, hcount hsize, hcount (hbound.trans_lt hsize)]

/-- **The counts add up exactly where no entry strays.** -/
theorem Consistent.addsUp_iff (hc : g.Consistent) (hsize : g.nodes.size < 2 ^ 64) :
    g.AddsUp ↔ g.strays = [] := by
  constructor
  · intro h
    refine List.eq_nil_iff_forall_not_mem.2 fun i hi => ?_
    exact (mem_strays_iff.1 hi).2 (h.nodes i (.inl (strays_subset hi)))
  · intro h
    have hlength := hc.length_reachable_add
    rw [h, List.length_nil, Nat.add_zero] at hlength
    have hbound : g.reachable.length ≤ g.nodes.size := by omega
    have hcount := unreachableNodes_eq hsize hbound
    have hrest : g.nodes.size - g.reachable.length = g.unreachable.length := by omega
    refine ⟨hbound, ?_, hcount.trans hrest, fun i hi => ?_⟩
    · rw [hcount]
      exact Nat.add_sub_cancel' hbound
    · rcases hi with hi | hi
      · refine (hc.mem_reachable hi).resolve_right fun hstray => ?_
        rw [h] at hstray
        exact List.not_mem_nil hstray
      · exact exists_node_of_mem_unreachable hi

/-- The counts of a loaded graph add up. -/
theorem addsUp_of_ofDocument {r : NodeRegistry} {d : Document} (h : ofDocument r d = .ok g)
    (hsize : g.nodes.size < 2 ^ 64) : g.AddsUp :=
  ((consistent_of_ofDocument h).addsUp_iff hsize).2
    (strays_eq_nil_iff.2 fun _ _ => (closed_of_ofDocument h).entry)

/-- **The counts of a graph that is built by calls add up exactly where every entry has been given a
node**, whatever the calls, in whatever order and whether accepted or refused. What cannot be reached is
a node in any case, and what can be reached is one or a stray; each stray is counted as if it was one
more node, and missing where those that cannot be reached are counted. -/
theorem addsUp_iff_of_build (objectId : String) (calls : List BuildCall)
    (hsize : (build objectId calls).nodes.size < 2 ^ 64) :
    let g := build objectId calls
    (g.AddsUp ↔ ∀ name i, g.entry? name = some i → ∃ n, g.node? i = some n)
      ∧ (∀ i ∈ g.unreachable, ∃ n, g.node? i = some n)
      ∧ (∀ i ∈ g.reachable, (∃ n, g.node? i = some n) ∨ i ∈ g.strays)
      ∧ g.reachable.length + g.unreachable.length = g.nodes.size + g.strays.length := by
  intro g
  have hc : g.Consistent := consistent_build objectId calls
  exact ⟨(hc.addsUp_iff hsize).trans strays_eq_nil_iff, fun _ => exists_node_of_mem_unreachable,
    fun _ => hc.mem_reachable, hc.length_reachable_add⟩

/-- An entry may be given its node before the graph has it. One that is given a node that never comes
spoils the counts. -/
theorem addsUp_iff_of_build_ghost :
    let input := Node.new ⟨1⟩ .input {}
    let line := Node.new ⟨2⟩ .dialogue {}
    let calls : List BuildCall :=
      [.registerEntry "start" 0, .addNode input (Node.unconnected_new _ _ _),
        .addNode line (Node.unconnected_new _ _ _), .connect (.input 1 0) (.output 0 0)]
    let g := build "story" calls
    let more := calls ++ [.registerEntry "ghost" 42]
    let haunted := build "story" more
    (g.nodes.size < 2 ^ 64 ∧ g.AddsUp)
      ∧ haunted.nodes.size < 2 ^ 64 ∧ haunted.reachable.length + haunted.unreachable.length = 3
        ∧ ¬haunted.AddsUp := by
  intro input line calls g more haunted
  have hsize : g.nodes.size < 2 ^ 64 := by decide +kernel
  have hsize' : haunted.nodes.size < 2 ^ 64 := by decide +kernel
  have hstrays : g.strays = [] := by decide +kernel
  have hstrays' : haunted.strays = [42] := by decide +kernel
  have hbuild := addsUp_iff_of_build "story" calls hsize
  have hbuild' := addsUp_iff_of_build "story" more hsize'
  have hsum : haunted.nodes.size + haunted.strays.length = 3 := by
    rw [hstrays']
    decide +kernel
  have hspoilt : ¬haunted.AddsUp := by
    intro h
    have hnil := strays_eq_nil_iff.2 (hbuild'.1.1 h)
    rw [hstrays'] at hnil
    cases hnil
  exact ⟨⟨hsize, hbuild.1.2 (strays_eq_nil_iff.1 hstrays)⟩, hsize', hbuild'.2.2.2.trans hsum,
    hspoilt⟩

end BranchingDialogue.Graph
