import BranchingDialogue.Graph.Reachable
import BranchingDialogue.Proofs.Dictionary
import Mathlib.Data.Finset.Card
import Mathlib.Data.List.Nodup
import Mathlib.Logic.Relation

/-!
# What a graph can reach

`Graph.spread` takes nodes that wait, one a round, and has the new nodes among their neighbours wait
in turn. A node that no longer waits has all its neighbours among the nodes seen, and a round takes
one away from the nodes that wait or have yet to be seen; so with enough rounds none is left
waiting, and what has been seen is closed under steps (`spread_closed`).

Main results:
- `mem_spread_iff`: a spread comes to what can be reached by steps, and to nothing else;
- `mem_reachable_iff`: the two spreads of `Graph.reachable` come to what lies ahead of an entry, and
  then to the processors that feed it;
- `reachable_of_flows`, `reachable_of_fedBy`: what that says of a single edge.
-/

namespace BranchingDialogue.Graph

open Relation (ReflTransGen)

/-! ## Spreading by steps -/

section Spread

variable {step : Nat → List Nat} {fuel i j : Nat} {seen waiting start : List Nat}

theorem nodup_eraseDups : ∀ nodes : List Nat, nodes.eraseDups.Nodup
  | [] => List.nodup_nil
  | i :: nodes => by
    rw [List.eraseDups_cons]
    refine List.nodup_cons.2 ⟨fun hi => ?_, nodup_eraseDups _⟩
    simp [List.mem_eraseDups] at hi
termination_by nodes => nodes.length
decreasing_by exact Nat.lt_succ_of_le (List.length_filter_le _ _)

/-- The neighbours of a node that have not been seen yet. -/
def fresh (step : Nat → List Nat) (seen : List Nat) (i : Nat) : List Nat :=
  (step i).eraseDups.filter fun j => !seen.contains j

theorem mem_fresh : j ∈ fresh step seen i ↔ j ∈ step i ∧ j ∉ seen := by
  simp [fresh, List.mem_eraseDups]

theorem nodup_fresh : (fresh step seen i).Nodup := (nodup_eraseDups _).filter _

theorem spread_cons :
    spread step (fuel + 1) seen (i :: waiting)
      = spread step fuel (seen ++ fresh step seen i) (waiting ++ fresh step seen i) := rfl

/-- Nothing that has been seen is lost. -/
theorem subset_spread : seen ⊆ spread step fuel seen waiting := by
  induction fuel generalizing seen waiting with
  | zero => exact List.Subset.refl _
  | succ fuel ih =>
    cases waiting with
    | nil => exact List.Subset.refl _
    | cons i waiting =>
      rw [spread_cons]
      exact List.Subset.trans (List.subset_append_left _ _) ih

theorem nodup_spread (h : seen.Nodup) : (spread step fuel seen waiting).Nodup := by
  induction fuel generalizing seen waiting with
  | zero => exact h
  | succ fuel ih =>
    cases waiting with
    | nil => exact h
    | cons i waiting =>
      rw [spread_cons]
      refine ih (h.append nodup_fresh fun j hj hfresh => ?_)
      exact (mem_fresh.1 hfresh).2 hj

/-- What is seen has been reached by steps. -/
theorem exists_of_mem_spread (hwaiting : waiting ⊆ seen)
    (h : j ∈ spread step fuel seen waiting) :
    ∃ i ∈ seen, ReflTransGen (fun a b => b ∈ step a) i j := by
  induction fuel generalizing seen waiting with
  | zero => exact ⟨j, h, .refl⟩
  | succ fuel ih =>
    cases waiting with
    | nil => exact ⟨j, h, .refl⟩
    | cons i waiting =>
      rw [spread_cons] at h
      have hsub : waiting ++ fresh step seen i ⊆ seen ++ fresh step seen i :=
        List.append_subset.2
          ⟨fun k hk => List.mem_append_left _ (hwaiting (List.mem_cons_of_mem i hk)),
            List.subset_append_right _ _⟩
      obtain ⟨k, hk, hsteps⟩ := ih hsub h
      rcases List.mem_append.1 hk with hk | hk
      · exact ⟨k, hk, hsteps⟩
      · exact ⟨i, hwaiting List.mem_cons_self, hsteps.head (mem_fresh.1 hk).1⟩

theorem spread_subset {nodes : Finset Nat} (hstep : ∀ i, ∀ j ∈ step i, j ∈ nodes)
    (hseen : ∀ j ∈ seen, j ∈ nodes) (h : j ∈ spread step fuel seen waiting) : j ∈ nodes := by
  induction fuel generalizing seen waiting with
  | zero => exact hseen j h
  | succ fuel ih =>
    cases waiting with
    | nil => exact hseen j h
    | cons i waiting =>
      rw [spread_cons] at h
      refine ih (fun k hk => ?_) h
      rcases List.mem_append.1 hk with hk | hk
      · exact hseen k hk
      · exact hstep i k (mem_fresh.1 hk).1

/-- A round takes one away from the nodes that wait or have yet to be seen. -/
theorem rounds_left {nodes : Finset Nat} (hstep : ∀ i, ∀ j ∈ step i, j ∈ nodes)
    (hfuel : (i :: waiting).length + (nodes \ seen.toFinset).card ≤ fuel + 1) :
    (waiting ++ fresh step seen i).length
      + (nodes \ (seen ++ fresh step seen i).toFinset).card ≤ fuel := by
  -- The new nodes wait from now on, but they are no longer among those to be seen.
  have hnew : (fresh step seen i).toFinset ⊆ nodes \ seen.toFinset := by
    intro b hb
    rw [List.mem_toFinset, mem_fresh] at hb
    rw [Finset.mem_sdiff, List.mem_toFinset]
    exact ⟨hstep i b hb.1, hb.2⟩
  have hcard := Finset.card_sdiff_add_card_eq_card hnew
  rw [List.toFinset_card_of_nodup nodup_fresh, sdiff_sdiff_left] at hcard
  rw [List.length_cons] at hfuel
  rw [List.toFinset_append, List.length_append, ← Finset.sup_eq_union]
  omega

/-- With as many rounds as nodes wait or have yet to be seen, what is seen is closed under steps. -/
theorem spread_closed {nodes : Finset Nat} (hstep : ∀ i, ∀ j ∈ step i, j ∈ nodes)
    (hclosed : ∀ i ∈ seen, i ∉ waiting → step i ⊆ seen)
    (hfuel : waiting.length + (nodes \ seen.toFinset).card ≤ fuel)
    (h : i ∈ spread step fuel seen waiting) : step i ⊆ spread step fuel seen waiting := by
  induction fuel generalizing seen waiting with
  | zero =>
    have hempty : waiting = [] := List.length_eq_zero_iff.1 (by omega)
    rw [hempty] at hclosed
    exact hclosed i h List.not_mem_nil
  | succ fuel ih =>
    cases waiting with
    | nil => exact hclosed i h List.not_mem_nil
    | cons k waiting =>
      rw [spread_cons] at h ⊢
      refine ih ?_ (rounds_left hstep hfuel) h
      intro a ha hwaits b hb
      rw [List.mem_append, not_or] at hwaits
      rcases List.mem_append.1 ha with ha | ha
      · by_cases hak : a = k
        · subst hak
          by_cases hbs : b ∈ seen
          · exact List.mem_append_left _ hbs
          · exact List.mem_append_right _ (mem_fresh.2 ⟨hb, hbs⟩)
        · refine List.mem_append_left _ (hclosed a ha (fun hmem => ?_) hb)
          exact hwaits.1 ((List.mem_cons.1 hmem).resolve_left hak)
      · exact absurd ha hwaits.2

/-- Where all nodes seen wait, as many rounds as there are nodes are enough. -/
theorem rounds_of_start {nodes : Finset Nat} (hstart : ∀ i ∈ start, i ∈ nodes)
    (hnodup : start.Nodup) (hfuel : nodes.card ≤ fuel) :
    start.length + (nodes \ start.toFinset).card ≤ fuel := by
  have hsub : start.toFinset ⊆ nodes := fun k hk => hstart k (List.mem_toFinset.1 hk)
  have hcard := Finset.card_sdiff_add_card_eq_card hsub
  rw [List.toFinset_card_of_nodup hnodup] at hcard
  omega

/-- A spread with enough rounds comes to what can be reached by steps, and to nothing else. -/
theorem mem_spread_iff {nodes : Finset Nat} (hstep : ∀ i, ∀ j ∈ step i, j ∈ nodes)
    (hstart : ∀ i ∈ start, i ∈ nodes) (hnodup : start.Nodup) (hfuel : nodes.card ≤ fuel) :
    j ∈ spread step fuel start start
      ↔ ∃ i ∈ start, ReflTransGen (fun a b => b ∈ step a) i j := by
  refine ⟨exists_of_mem_spread (List.Subset.refl _), ?_⟩
  rintro ⟨i, hi, hsteps⟩
  induction hsteps with
  | refl => exact subset_spread hi
  | tail _ hstep' ih =>
    exact spread_closed hstep (fun a ha hwaits => absurd ha hwaits)
      (rounds_of_start hstart hnodup hfuel) ih hstep'

end Spread

/-! ## Steps along edges -/

/-- A step along an edge. -/
def Flows (g : Graph) (i j : Nat) : Prop := ∃ e ∈ g.edges, e.output.node = i ∧ e.input.node = j

/-- A step back along an edge to a processor. -/
def FedBy (g : Graph) (i j : Nat) : Prop :=
  ∃ e ∈ g.edges, e.input.node = i ∧ e.output.node = j
    ∧ ∃ n, g.node? j = some n ∧ n.kind.isProcessor = true

/-- Being the node of an entry or lying ahead of one. -/
def Ahead (g : Graph) (j : Nat) : Prop :=
  ∃ name i, g.entry? name = some i ∧ ReflTransGen g.Flows i j

variable {g : Graph} {i j : Nat}

theorem mem_neighbours_iff {next : Edge → Option (Nat × Nat)} :
    j ∈ g.neighbours next i ↔ ∃ e ∈ g.edges, next e = some (i, j) := by
  rw [neighbours, List.mem_filterMap]
  refine exists_congr fun e => ?_
  rw [Array.mem_toList_iff]
  refine and_congr_right fun _ => ?_
  cases next e with
  | none => simp
  | some ends => simp [Prod.ext_iff]

theorem mem_neighbours_forward : j ∈ g.neighbours forward i ↔ g.Flows i j := by
  rw [mem_neighbours_iff]
  simp [forward, Flows]

theorem mem_neighbours_backward : j ∈ g.neighbours g.backward i ↔ g.FedBy i j := by
  rw [mem_neighbours_iff]
  refine exists_congr fun e => and_congr_right fun _ => ?_
  rw [backward]
  constructor
  · intro h
    split at h
    · next n hn =>
      split at h
      · next hkind =>
        cases h
        exact ⟨rfl, rfl, n, hn, hkind⟩
      · cases h
    · cases h
  · rintro ⟨rfl, rfl, n, hn, hkind⟩
    simp only [hn, hkind, if_true]

/-- The nodes of entries and the ends of edges. -/
def endpoints (g : Graph) : List Nat :=
  g.entries.values ++ g.edges.toList.flatMap fun e => [e.output.node, e.input.node]

theorem card_endpoints_lt : g.endpoints.toFinset.card < g.spreadFuel := by
  have hlength : g.endpoints.length = g.entries.size + 2 * g.edges.size := by
    simp [endpoints, Dictionary.values, Dictionary.size, List.length_flatMap, Nat.mul_comm]
  have hcard := List.toFinset_card_le g.endpoints
  rw [spreadFuel]
  omega

theorem ends_mem_endpoints {e : Edge} (he : e ∈ g.edges) :
    e.output.node ∈ g.endpoints.toFinset ∧ e.input.node ∈ g.endpoints.toFinset := by
  simp only [List.mem_toFinset, endpoints, List.mem_append, List.mem_flatMap, Array.mem_toList_iff]
  exact ⟨Or.inr ⟨e, he, by simp⟩, Or.inr ⟨e, he, by simp⟩⟩

theorem mem_values_iff : i ∈ g.entries.values ↔ ∃ name, g.entry? name = some i := by
  simp only [Dictionary.values, List.mem_map, entry?, Dictionary.get?_eq_some_iff]
  constructor
  · rintro ⟨⟨name, _⟩, hmem, rfl⟩
    exact ⟨name, hmem⟩
  · rintro ⟨name, hmem⟩
    exact ⟨(name, i), hmem, rfl⟩

/-! ## What can be reached -/

/-- What lies ahead of an entry, as far as the first spread comes. -/
def flow (g : Graph) : List Nat :=
  spread (g.neighbours forward) g.spreadFuel g.entries.values.eraseDups g.entries.values.eraseDups

theorem reachable_eq :
    g.reachable = (spread (g.neighbours g.backward) g.spreadFuel g.flow g.flow).mergeSort := rfl

theorem forward_mem_endpoints (i : Nat) :
    ∀ j ∈ g.neighbours forward i, j ∈ g.endpoints.toFinset := by
  intro j hj
  obtain ⟨e, he, -, rfl⟩ := mem_neighbours_forward.1 hj
  exact (ends_mem_endpoints he).2

theorem backward_mem_endpoints (i : Nat) :
    ∀ j ∈ g.neighbours g.backward i, j ∈ g.endpoints.toFinset := by
  intro j hj
  obtain ⟨e, he, -, rfl, -⟩ := mem_neighbours_backward.1 hj
  exact (ends_mem_endpoints he).1

theorem entries_mem_endpoints : ∀ i ∈ g.entries.values.eraseDups, i ∈ g.endpoints.toFinset := by
  intro i hi
  rw [List.mem_eraseDups] at hi
  exact List.mem_toFinset.2 (List.mem_append_left _ hi)

theorem flow_mem_endpoints : ∀ i ∈ g.flow, i ∈ g.endpoints.toFinset :=
  fun _ => spread_subset forward_mem_endpoints entries_mem_endpoints

theorem nodup_flow : g.flow.Nodup := nodup_spread (nodup_eraseDups _)

theorem mem_flow_iff : j ∈ g.flow ↔ g.Ahead j := by
  rw [flow, mem_spread_iff forward_mem_endpoints entries_mem_endpoints (nodup_eraseDups _)
    card_endpoints_lt.le]
  simp only [mem_neighbours_forward, List.mem_eraseDups, mem_values_iff, Ahead]
  constructor
  · rintro ⟨i, ⟨name, hentry⟩, hsteps⟩
    exact ⟨name, i, hentry, hsteps⟩
  · rintro ⟨name, i, hentry, hsteps⟩
    exact ⟨i, ⟨name, hentry⟩, hsteps⟩

/-- What a graph can reach lies ahead of an entry, or feeds what does through processors alone. -/
theorem mem_reachable_iff : j ∈ g.reachable ↔ ∃ i, g.Ahead i ∧ ReflTransGen g.FedBy i j := by
  rw [reachable_eq, List.mem_mergeSort, mem_spread_iff backward_mem_endpoints flow_mem_endpoints
    nodup_flow card_endpoints_lt.le]
  simp only [mem_neighbours_backward, mem_flow_iff]

theorem reachable_of_ahead (h : g.Ahead i) : i ∈ g.reachable := mem_reachable_iff.2 ⟨i, h, .refl⟩

theorem Ahead.flows (h : g.Ahead i) (hstep : g.Flows i j) : g.Ahead j := by
  obtain ⟨name, start, hentry, hsteps⟩ := h
  exact ⟨name, start, hentry, hsteps.tail hstep⟩

theorem reachable_of_fedBy (h : i ∈ g.reachable) (hstep : g.FedBy i j) : j ∈ g.reachable := by
  obtain ⟨start, hahead, hsteps⟩ := mem_reachable_iff.1 h
  exact mem_reachable_iff.2 ⟨start, hahead, hsteps.tail hstep⟩

/-- No node is both reachable and unreachable. -/
theorem not_mem_unreachable (h : i ∈ g.reachable) : i ∉ g.unreachable := by
  rw [unreachable, List.mem_filter]
  rintro ⟨-, hnot⟩
  rw [List.contains_iff_mem.2 h] at hnot
  cases hnot

end BranchingDialogue.Graph
