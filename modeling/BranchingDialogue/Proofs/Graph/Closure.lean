import BranchingDialogue.Proofs.Graph.Reaching
import Mathlib.Order.Bounds.Basic

/-!
# What a graph can reach is a least closure

`Graph.spread` stops after so many rounds. `Settles` is the same loop without a bound: it goes on until
no node waits. The bound is never what ends a spread through a graph (`settles_spread`), so the loop
ends, also where edges lead round in a circle.

What has been seen at the end of the first loop is the least set with the entries that edges do not lead
out of (`isLeast_flow`); at the end of the second one it is the least set around that one that the
processors that feed it are part of (`isLeast_reachable`). A least set is only one, so the order in which
nodes begin to wait makes no difference, nor does that of entries and edges.

Main result: `reachable_least`.
-/

namespace BranchingDialogue.Graph

open Relation (ReflTransGen)

/-! ## Spreading until no node waits -/

section Settles

variable {step : Nat → List Nat} {fuel : Nat} {seen waiting : List Nat}

/-- Spreading as long as nodes wait: the first one is taken, and those of its neighbours that have not
been seen begin to wait. -/
inductive Settles (step : Nat → List Nat) : List Nat → List Nat → List Nat → Prop
  | done (seen : List Nat) : Settles step seen [] seen
  | round {seen waiting reached : List Nat} {i : Nat}
      (rest : Settles step (seen ++ fresh step seen i) (waiting ++ fresh step seen i) reached) :
      Settles step seen (i :: waiting) reached

/-- Each round is determined by what has been seen and what waits, and so is the end. -/
theorem Settles.unique {reached reached' : List Nat} (h : Settles step seen waiting reached)
    (h' : Settles step seen waiting reached') : reached = reached' := by
  induction h with
  | done =>
    cases h'
    rfl
  | round _ ih =>
    cases h' with
    | round rest => exact ih rest

/-- With as many rounds as nodes wait or have yet to be seen, a spread ends because no node waits. -/
theorem settles_spread {nodes : Finset Nat} (hstep : ∀ i, ∀ j ∈ step i, j ∈ nodes)
    (hfuel : waiting.length + (nodes \ seen.toFinset).card ≤ fuel) :
    Settles step seen waiting (spread step fuel seen waiting) := by
  induction fuel generalizing seen waiting with
  | zero =>
    have hempty : waiting = [] := List.length_eq_zero_iff.1 (by omega)
    rw [hempty]
    exact .done seen
  | succ fuel ih =>
    cases waiting with
    | nil => exact .done seen
    | cons i waiting => exact .round (ih (rounds_left hstep hfuel))

end Settles

/-! ## Ascending lists -/

theorem pairwise_mergeSort {nodes : List Nat} (h : nodes.Nodup) :
    nodes.mergeSort.Pairwise (· < ·) := by
  have hle : nodes.mergeSort.Pairwise (· ≤ ·) := List.pairwise_mergeSort' (· ≤ ·) nodes
  have hnodup : nodes.mergeSort.Nodup := (List.mergeSort_perm nodes _).nodup_iff.2 h
  exact hle.imp₂ (fun _ _ hle hne => lt_of_le_of_ne hle hne) hnodup

variable {g g' : Graph} {i j : Nat} {start reached : List Nat}

/-- What a graph can reach is listed in ascending order, each node once. -/
theorem pairwise_reachable (g : Graph) : g.reachable.Pairwise (· < ·) := by
  rw [reachable_eq]
  exact pairwise_mergeSort (nodup_spread nodup_flow)

/-- A set of nodes is listed in ascending order in one way. -/
theorem eq_of_ascending {xs ys : List Nat} (hxs : xs.Pairwise (· < ·)) (hys : ys.Pairwise (· < ·))
    (hmem : ∀ i, i ∈ xs ↔ i ∈ ys) : xs = ys :=
  List.Pairwise.eq_of_mem_iff hxs hys hmem

/-! ## The least closures -/

/-- Sets with the nodes of all entries that edges do not lead out of. -/
structure FlowClosed (g : Graph) (S : Set Nat) : Prop where
  entries : ∀ name i, g.entry? name = some i → i ∈ S
  edges : ∀ e ∈ g.edges, e.output.node ∈ S → e.input.node ∈ S

/-- Sets around a given one that have, with the node that an edge leads to, the node that it comes from
if that is a processor. -/
structure FeedClosed (g : Graph) (F S : Set Nat) : Prop where
  start : F ⊆ S
  edges : ∀ e ∈ g.edges, e.input.node ∈ S →
    (∃ n, g.node? e.output.node = some n ∧ n.kind.isProcessor = true) → e.output.node ∈ S

/-- **What lies ahead of the entries is the least set with them that edges do not lead out of.** -/
theorem isLeast_flow (g : Graph) : IsLeast {S | g.FlowClosed S} {i | i ∈ g.flow} := by
  refine ⟨⟨fun name i hentry => mem_flow_iff.2 ⟨name, i, hentry, .refl⟩, fun e he hahead => ?_⟩, ?_⟩
  · exact mem_flow_iff.2 ((mem_flow_iff.1 hahead).flows ⟨e, he, rfl, rfl⟩)
  · intro S hS j hj
    obtain ⟨name, i, hentry, hsteps⟩ := mem_flow_iff.1 hj
    induction hsteps with
    | refl => exact hS.entries name i hentry
    | tail hsteps hstep ih =>
      obtain ⟨e, he, rfl, rfl⟩ := hstep
      exact hS.edges e he (ih (mem_flow_iff.2 ⟨name, i, hentry, hsteps⟩))

/-- **What a graph can reach is the least set around what lies ahead of the entries that the processors
that feed it are part of.** -/
theorem isLeast_reachable (g : Graph) :
    IsLeast {S | g.FeedClosed {i | i ∈ g.flow} S} {i | i ∈ g.reachable} := by
  refine ⟨⟨fun i hi => reachable_of_ahead (mem_flow_iff.1 hi), fun e he hmem hkind => ?_⟩, ?_⟩
  · exact reachable_of_fedBy hmem ⟨e, he, rfl, rfl, hkind⟩
  · intro S hS j hj
    obtain ⟨i, hahead, hsteps⟩ := mem_reachable_iff.1 hj
    clear hj
    induction hsteps with
    | refl => exact hS.start (mem_flow_iff.2 hahead)
    | tail _ hstep ih =>
      obtain ⟨e, he, rfl, rfl, hkind⟩ := hstep
      exact hS.edges e he ih hkind

/-! ## The order in which nodes are listed -/

/-- From the entries in any order the first loop ends, and with what lies ahead of them. -/
theorem exists_settles_forward (hstart : start.Perm g.entries.values.eraseDups) :
    ∃ flow, Settles (g.neighbours forward) start start flow ∧ flow.Nodup
      ∧ ∀ i, i ∈ flow ↔ i ∈ g.flow := by
  have hnodup : start.Nodup := hstart.nodup_iff.2 (nodup_eraseDups _)
  have hmem : ∀ i ∈ start, i ∈ g.endpoints.toFinset := fun i hi =>
    entries_mem_endpoints i (hstart.mem_iff.1 hi)
  have hfuel := card_endpoints_lt (g := g).le
  refine ⟨spread (g.neighbours forward) g.spreadFuel start start,
    settles_spread forward_mem_endpoints (rounds_of_start hmem hnodup hfuel), nodup_spread hnodup,
    fun i => ?_⟩
  rw [flow, mem_spread_iff forward_mem_endpoints hmem hnodup hfuel,
    mem_spread_iff forward_mem_endpoints entries_mem_endpoints (nodup_eraseDups _) hfuel]
  simp only [hstart.mem_iff]

/-- From these nodes in any order the second loop ends, and with what the graph can reach. -/
theorem exists_settles_backward {queue : List Nat} (hnodup : queue.Nodup)
    (hqueue : ∀ i, i ∈ queue ↔ i ∈ g.flow) :
    ∃ reached, Settles (g.neighbours g.backward) queue queue reached
      ∧ reached.mergeSort = g.reachable := by
  have hmem : ∀ i ∈ queue, i ∈ g.endpoints.toFinset := fun i hi =>
    flow_mem_endpoints i ((hqueue i).1 hi)
  have hfuel := card_endpoints_lt (g := g).le
  refine ⟨spread (g.neighbours g.backward) g.spreadFuel queue queue,
    settles_spread backward_mem_endpoints (rounds_of_start hmem hnodup hfuel), ?_⟩
  refine eq_of_ascending (pairwise_mergeSort (nodup_spread hnodup)) (pairwise_reachable g) fun i => ?_
  rw [List.mem_mergeSort, mem_spread_iff backward_mem_endpoints hmem hnodup hfuel, mem_reachable_iff]
  simp only [hqueue, mem_flow_iff, mem_neighbours_backward]

/-! ## The order of entries and edges -/

/-- Graphs whose entries have the same nodes, whose edges lead from and to the same nodes and whose nodes
are of the same kinds. Entries may have other names, and edges be in another order. -/
structure SameShape (g g' : Graph) : Prop where
  entries : ∀ i, (∃ name, g.entry? name = some i) ↔ ∃ name, g'.entry? name = some i
  edges : ∀ i j, g.Flows i j ↔ g'.Flows i j
  kinds : ∀ i, (g.node? i).map (·.kind) = (g'.node? i).map (·.kind)

theorem fedBy_iff : g.FedBy i j
    ↔ g.Flows j i ∧ ∃ kind, (g.node? j).map (·.kind) = some kind ∧ kind.isProcessor = true := by
  simp only [FedBy, Flows, Option.map_eq_some_iff]
  constructor
  · rintro ⟨e, he, hi, hj, n, hn, hkind⟩
    exact ⟨⟨e, he, hj, hi⟩, n.kind, ⟨n, hn, rfl⟩, hkind⟩
  · rintro ⟨⟨e, he, hj, hi⟩, _, ⟨n, hn, rfl⟩, hkind⟩
    exact ⟨e, he, hi, hj, n, hn, hkind⟩

theorem ahead_iff : g.Ahead j
    ↔ ∃ i, (∃ name, g.entry? name = some i) ∧ ReflTransGen g.Flows i j := by
  constructor
  · rintro ⟨name, i, hentry, hsteps⟩
    exact ⟨i, ⟨name, hentry⟩, hsteps⟩
  · rintro ⟨i, ⟨name, hentry⟩, hsteps⟩
    exact ⟨name, i, hentry, hsteps⟩

theorem SameShape.reachable_eq (h : g.SameShape g') : g.reachable = g'.reachable := by
  have hflows : g.Flows = g'.Flows := funext₂ fun i j => propext (h.edges i j)
  have hfedBy : g.FedBy = g'.FedBy := funext₂ fun i j => propext (by
    rw [fedBy_iff, fedBy_iff, hflows, h.kinds])
  refine eq_of_ascending (pairwise_reachable g) (pairwise_reachable g') fun j => ?_
  simp only [mem_reachable_iff, ahead_iff, hflows, hfedBy, h.entries]

/-- **What a graph can reach is the intended closure**: the least set around the least one with the
entries that edges do not lead out of, that the processors that feed it are part of. Both loops end, in
whatever order the nodes that they begin with are listed, and always with this set; nor does the order of
entries and edges make a difference. -/
theorem reachable_least (g : Graph) :
    (∃ F, IsLeast {S | g.FlowClosed S} F
        ∧ IsLeast {S | g.FeedClosed F S} {i | i ∈ g.reachable})
      ∧ g.reachable.Pairwise (· < ·)
      ∧ (∀ start : List Nat, start.Perm g.entries.values.eraseDups →
          (∃ flow, Settles (g.neighbours forward) start start flow)
            ∧ ∀ flow, Settles (g.neighbours forward) start start flow →
              ∀ queue : List Nat, queue.Perm flow →
                (∃ reached, Settles (g.neighbours g.backward) queue queue reached)
                  ∧ ∀ reached, Settles (g.neighbours g.backward) queue queue reached →
                    reached.mergeSort = g.reachable)
      ∧ ∀ g', g.SameShape g' → g.reachable = g'.reachable := by
  refine ⟨⟨_, isLeast_flow g, isLeast_reachable g⟩, pairwise_reachable g, fun start hstart => ?_,
    fun g' h => h.reachable_eq⟩
  obtain ⟨flow, hflow, hnodup, hmem⟩ := exists_settles_forward hstart
  refine ⟨⟨flow, hflow⟩, fun flow' hflow' queue hqueue => ?_⟩
  obtain rfl := hflow.unique hflow'
  obtain ⟨reached, hreached, hsorted⟩ :=
    exists_settles_backward (hqueue.nodup_iff.2 hnodup) fun i => hqueue.mem_iff.trans (hmem i)
  exact ⟨⟨reached, hreached⟩, fun reached' hreached' => hreached.unique hreached' ▸ hsorted⟩

end BranchingDialogue.Graph
