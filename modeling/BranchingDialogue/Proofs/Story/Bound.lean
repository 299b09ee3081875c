import BranchingDialogue.Proofs.Dictionary
import BranchingDialogue.Proofs.Orbit
import BranchingDialogue.Proofs.Story.Turn
import Mathlib.Data.Finset.Option
import Mathlib.Data.Fintype.BigOperators

/-!
# A stretch ends within its bound or never

How a stretch goes on depends on the node it comes to and on the variables alone; `advance?` is the
step from one such place to the next. The variables stay within a finite set of names and values,
those that the stretch starts with and those that nodes bring in (`Confined`). So there are at most
`Walker.stretchBound` places, and a stretch that visits more of them has come back to one
(`orbit_total_of_bound`).
-/

namespace BranchingDialogue

/-! ## Where variables come from -/

/-- The names that variables can have: those they have, and those that nodes write. -/
def Graph.names (g : Graph) (v : Variables) : Finset String :=
  v.keys.toFinset ∪ (g.nodes.toList.filterMap fun n => n.payload.text? "property").toFinset

/-- The values that variables can take: those they have, truth values, and those that nodes hold. -/
def Graph.values (g : Graph) (v : Variables) : Finset Value :=
  v.values.toFinset
    ∪ ({.bool true, .bool false}
      ∪ (g.nodes.toList.filterMap fun n => n.payload.get? "value").toFinset)

/-- Variables have their names and values from given sets. -/
def Confined (names : Finset String) (values : Finset Value) (v : Variables) : Prop :=
  ∀ name value, v.get? name = some value → name ∈ names ∧ value ∈ values

theorem Node.mem_of_process {n : Node} {inputs : List Value} {port : Int} {v : Variables}
    {value : Value} (h : n.process inputs port v = .ok value) :
    (∃ b, value = .bool b) ∨ n.payload.get? "value" = some value
      ∨ ∃ name, v.get? name = some value := by
  rw [process] at h
  split at h
  · cases h
  · -- One case a kind of processor; comparisons and logic give truth values, whatever comes in.
    split at h
    · rw [payloadValue] at h
      split at h
      · next hvalue =>
        cases h
        exact Or.inr (Or.inl hvalue)
      · cases h
    · rw [compareInputs] at h
      repeat' split at h
      all_goals cases h
      exact Or.inl ⟨_, rfl⟩
    · rw [readProperty] at h
      repeat' split at h
      all_goals cases h
      next hvalue => exact Or.inr (Or.inr ⟨_, hvalue⟩)
    · cases hb : n.boolInput inputs 0 <;> rw [hb] at h <;> cases h
      exact Or.inl ⟨_, rfl⟩
    · cases hb : n.bothInputs inputs <;> rw [hb] at h <;> cases h
      exact Or.inl ⟨_, rfl⟩
    · cases hb : n.bothInputs inputs <;> rw [hb] at h <;> cases h
      exact Or.inl ⟨_, rfl⟩
    · cases h

namespace Graph

variable {g : Graph} {v : Variables}

theorem process_of_valueWithin {limit room index : Nat} {port : Int} {value : Value}
    (h : g.valueWithin v limit room index port = .ok value) :
    ∃ n inputs, g.node? index = some n ∧ n.process inputs port v = .ok value := by
  cases room with
  | zero =>
    rw [valueWithin] at h
    split at h <;> cases h
  | succ room =>
    rw [valueWithin] at h
    split at h
    · cases h
    · next n hn =>
      simp only at h
      split at h
      · split at h
        · cases h
        · exact ⟨n, _, hn, h⟩
      · cases h

theorem process_of_pullInput {limit : Option Nat} {index : Nat} {port : Int} {value : Value}
    (h : g.pullInput v limit index port = .ok value) :
    ∃ n ∈ g.nodes, ∃ inputs output, n.process inputs output v = .ok value := by
  rw [pullInput, inputFrom] at h
  split at h
  · cases h
  · split at h
    · cases h
    · obtain ⟨n, inputs, hn, hprocess⟩ := process_of_valueWithin h
      exact ⟨n, Array.mem_of_getElem? hn, inputs, _, hprocess⟩

/-- Writing what a node computes keeps variables within their names and values. -/
theorem confined_insert {v₀ : Variables} (h : Confined (g.names v₀) (g.values v₀) v) {n : Node}
    (hn : n ∈ g.nodes) {name : String} (hname : n.payload.text? "property" = some name)
    {limit : Option Nat} {index : Nat} {port : Int} {value : Value}
    (hvalue : g.pullInput v limit index port = .ok value) :
    Confined (g.names v₀) (g.values v₀) (v.insert name value) := by
  intro other found hfound
  rw [Dictionary.get?_insert] at hfound
  split at hfound
  · next heq =>
    cases hfound
    rw [← heq]
    constructor
    · refine Finset.mem_union_right _ (List.mem_toFinset.2 (List.mem_filterMap.2 ⟨n, ?_, hname⟩))
      exact Array.mem_toList_iff.2 hn
    · obtain ⟨m, hm, inputs, output, hprocess⟩ := process_of_pullInput hvalue
      rcases m.mem_of_process hprocess with ⟨b, rfl⟩ | hpayload | ⟨_, hget⟩
      · refine Finset.mem_union_right _ (Finset.mem_union_left _ ?_)
        cases b <;> simp
      · refine Finset.mem_union_right _ (Finset.mem_union_right _ (List.mem_toFinset.2 ?_))
        exact List.mem_filterMap.2 ⟨m, Array.mem_toList_iff.2 hm, hpayload⟩
      · exact (h _ _ hget).2
  · exact h other found hfound

theorem confined_self (g : Graph) (v : Variables) : Confined (g.names v) (g.values v) v := by
  intro name value h
  have hmem := Dictionary.get?_eq_some_iff.1 h
  exact ⟨Finset.mem_union_left _ (List.mem_toFinset.2 (List.mem_map_of_mem hmem)),
    Finset.mem_union_left _ (List.mem_toFinset.2 (List.mem_map_of_mem hmem))⟩

theorem card_names_le (g : Graph) (v : Variables) : (g.names v).card ≤ v.size + g.nodes.size := by
  refine (Finset.card_union_le _ _).trans (Nat.add_le_add ?_ ?_)
  · refine (List.toFinset_card_le _).trans ?_
    rw [Dictionary.keys, List.length_map, Dictionary.size]
  · refine (List.toFinset_card_le _).trans ((List.length_filterMap_le _ _).trans ?_)
    rw [Array.length_toList]

theorem card_values_le (g : Graph) (v : Variables) :
    (g.values v).card ≤ v.size + (2 + g.nodes.size) := by
  refine (Finset.card_union_le _ _).trans (Nat.add_le_add ?_ ?_)
  · refine (List.toFinset_card_le _).trans ?_
    rw [Dictionary.values, List.length_map, Dictionary.size]
  · refine (Finset.card_union_le _ _).trans (Nat.add_le_add Finset.card_le_two ?_)
    refine (List.toFinset_card_le _).trans ((List.length_filterMap_le _ _).trans ?_)
    rw [Array.length_toList]

/-! ## From place to place -/

variable {α : Type} [Scalar α] {r : Runtime α}

/-- The place to which a stretch goes on from a node with its variables; none if it ends there. -/
def advance? (r : Runtime α) (g : Graph) (place : Nat × Variables) : Option (Nat × Variables) :=
  (turn r g place.1 ⟨.origin, place.2⟩).place?

/-- Whenever a stretch comes to a node, it goes on to the same place. -/
theorem advance?_eq (index : Nat) (s : Situation α) :
    g.advance? r (index, s.variables) = (turn r g index s).place? :=
  (place?_turn s .origin).symm

theorem confined_of_advance? {v₀ : Variables} {index : Nat} {place : Nat × Variables}
    (hv : Confined (g.names v₀) (g.values v₀) v) (h : g.advance? r (index, v) = some place) :
    Confined (g.names v₀) (g.values v₀) place.2 := by
  rw [advance?] at h
  cases hturn : turn r g index ⟨.origin, v⟩ with
  | moves clip next s =>
    rw [hturn] at h
    cases h
    obtain ⟨n, p, output, hn, hpass, -, -, -, rfl⟩ := turn_eq_moves_iff.1 hturn
    rcases hpass.variables_eq with heq | ⟨name, value, hname, hvalue, heq⟩
    · rw [heq]
      exact hv
    · rw [heq]
      have hpull := Node.pullInput_of_dataInput hvalue
      exact confined_insert hv (Array.mem_of_getElem? hn) hname hpull
  | _ =>
    rw [hturn] at h
    cases h

/-- The places among confined variables, as far as they can be told apart. -/
def places (g : Graph) (v : Variables) : Finset (Nat × (g.names v → Option Value)) :=
  Finset.range g.nodes.size ×ˢ Fintype.piFinset fun _ => Finset.insertNone (g.values v)

theorem card_places_le (g : Graph) (v : Variables) :
    (g.places v).card ≤ Walker.stretchBound g v := by
  rw [places, Finset.card_product, Finset.card_range, Fintype.card_piFinset,
    Finset.prod_const, Finset.card_insertNone, Finset.card_univ, Fintype.card_coe,
    Walker.stretchBound]
  have hnames := card_names_le g v
  have hvalues := card_values_le g v
  refine Nat.mul_le_mul_left _ ?_
  calc ((g.values v).card + 1) ^ (g.names v).card
      ≤ (v.size + g.nodes.size + 3) ^ (g.names v).card := Nat.pow_le_pow_left (by omega) _
    _ ≤ (v.size + g.nodes.size + 3) ^ (v.size + g.nodes.size) :=
        Nat.pow_le_pow_right (by omega) hnames

/-- **A stretch that visits more nodes than its bound never ends.** -/
theorem orbit_total_of_bound {index limit : Nat} (hlimit : Walker.stretchBound g v ≤ limit)
    {place : Nat × Variables} (hplace : orbit (g.advance? r) (index, v) limit = some place)
    {n : Node} (hn : g.node? place.1 = some n) (k : Nat) :
    (orbit (g.advance? r) (index, v) k).isSome = true := by
  have hself := confined_self g v
  have hstep : ∀ t u : Nat × Variables, Confined (g.names v) (g.values v) t.2 →
      g.advance? r t = some u → Confined (g.names v) (g.values v) u.2 :=
    fun t u ht h => confined_of_advance? ht h
  refine orbit_total_of_card (P := fun t => Confined (g.names v) (g.values v) t.2) hself hstep
    (fun t => (t.1, fun name : g.names v => t.2.get? name)) ?_ (g.places v)
    ((card_places_le g v).trans hlimit) ?_ (by rw [hplace]; rfl) k
  · -- A name that is not among those listed has no value on either side.
    intro t u ht hu heq
    rw [Prod.mk.injEq] at heq
    refine Prod.ext heq.1 (Dictionary.ext_get? fun name => ?_)
    by_cases hname : name ∈ g.names v
    · exact congrFun heq.2 ⟨name, hname⟩
    · have habsent : ∀ w, Confined (g.names v) (g.values v) w → w.get? name = none := fun w hw => by
        cases hget : w.get? name with
        | none => rfl
        | some value => exact absurd (hw name value hget).1 hname
      rw [habsent _ ht, habsent _ hu]
  · -- All places up to the last one have a node, for a turn was taken there.
    intro k t hk ht
    have hnode : ∃ n, g.node? t.1 = some n := by
      rcases Nat.lt_or_eq_of_le hk with hlt | rfl
      · have hnext : (orbit (g.advance? r) (index, v) (k + 1)).isSome = true :=
          isSome_orbit_of_le hlt (by rw [hplace]; rfl)
        rw [orbit, ht, Option.bind_some] at hnext
        obtain ⟨u, hu⟩ := Option.isSome_iff_exists.1 hnext
        exact node?_of_turn hu
      · rw [hplace, Option.some.injEq] at ht
        exact ⟨n, ht ▸ hn⟩
    obtain ⟨m, hm⟩ := hnode
    have hconfined : Confined (g.names v) (g.values v) t.2 :=
      orbit_keeps (P := fun t => Confined (g.names v) (g.values v) t.2) hself hstep ht
    refine Finset.mem_product.2 ⟨?_, Fintype.mem_piFinset.2 fun name => ?_⟩
    · exact Finset.mem_range.2 (Array.getElem?_eq_some_iff.1 hm).1
    · show t.2.get? name ∈ _
      rw [Finset.mem_insertNone]
      exact fun value hvalue => (hconfined name value hvalue).2

end Graph

/-! ## Stretches -/

namespace Walker

variable {α : Type} [Scalar α] {w : Walker α}

/-- A stretch is too long exactly if it goes on to as many further places as it has room for, and
then it says at which node it was stopped. -/
theorem stretch_eq_depthExceeded_iff {limit room index : Nat} {s : Situation α}
    {clips : Array (Clip α)} {id : NodeId} {l : Nat} :
    w.stretch limit room index s clips = .error (.depthExceeded id l)
      ↔ l = limit ∧ ∃ place n,
          orbit (w.graph.advance? w.runtime) (index, s.variables) room = some place
          ∧ w.graph.node? place.1 = some n ∧ n.id = id := by
  induction room generalizing index s clips with
  | zero =>
    rw [stretch_zero, orbit]
    cases hn : w.graph.node? index with
    | none =>
      constructor
      · intro h
        cases h
      · rintro ⟨-, _, n, ⟨⟩, hplace, -⟩
        rw [hn] at hplace
        cases hplace
    | some n =>
      constructor
      · intro h
        cases h
        exact ⟨rfl, _, n, rfl, hn, rfl⟩
      · rintro ⟨rfl, _, m, ⟨⟩, hm, rfl⟩
        rw [hn, Option.some.injEq] at hm
        rw [hm]
  | succ room ih =>
    rw [stretch_succ, orbit_succ', Graph.advance?_eq]
    cases hturn : turn w.runtime w.graph index s with
    | moves clip next s' => exact ih
    | fails e =>
      -- The turn fails, but not for the length of the walk; and it leads nowhere.
      simp only [Turn.place?, Option.bind_none, reduceCtorEq, false_and, exists_false, and_false,
        iff_false]
      intro h
      cases h
      exact turn_ne_depthExceeded hturn
    | rests clip outcome s' => simp [Turn.place?]

end Walker

end BranchingDialogue
