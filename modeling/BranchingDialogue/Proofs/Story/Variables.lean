import BranchingDialogue.Proofs.Codecs
import BranchingDialogue.Proofs.Document.RoundTrip
import BranchingDialogue.Proofs.Story.Bound

/-!
# What variables hold

All values that a run meets come from its seed and from the document of its graph, but for truth
values. A document that was read holds ordinary values only (`Value.Ordinary`): finite numbers, and
sequences that are not nested without end. So variables that start with ordinary values keep to
them, in every suspension of a run (`Walker.all_of_run`).
-/

namespace BranchingDialogue

/-! ## Ordinary values -/

/-- A value whose floats are finite, and whose sequences lie at most so deep in one another. -/
inductive Value.Ordinary : Nat → Value → Prop
  | bool {depth : Nat} (b : Bool) : Ordinary depth (.bool b)
  | int {depth : Nat} (n : Int64) : Ordinary depth (.int n)
  | float {depth : Nat} {x : Float} (finite : x.isFinite = true) : Ordinary depth (.float x)
  | text {depth : Nat} (s : String) : Ordinary depth (.text s)
  | sequence {depth : Nat} {items : List Value} (items_ordinary : ∀ v ∈ items, Ordinary depth v) :
      Ordinary (depth + 1) (.sequence items)

namespace Value

theorem Ordinary.succ {depth : Nat} {v : Value} (h : v.Ordinary depth) :
    v.Ordinary (depth + 1) := by
  induction h with
  | bool b => exact .bool b
  | int n => exact .int n
  | float finite => exact .float finite
  | text s => exact .text s
  | sequence _ ih => exact .sequence ih

theorem ordinary_ofInteger {depth : Nat} (n : WideInteger) : (ofInteger n).Ordinary depth := by
  rw [ofInteger]
  split
  · exact .int _
  · exact .float (isFinite_toFloat _)

/-- What is read from JSON is ordinary, and not nested deeper. -/
theorem ordinary_of_ofJson {depth : Nat} {j : Json} {v : Value} (hj : j.Formed depth)
    (h : ofJson j = .ok v) : v.Ordinary depth := by
  induction hj generalizing v with
  | null => cases h
  | bool b =>
    cases h
    exact .bool b
  | integer n =>
    cases h
    exact ordinary_ofInteger n
  | float x =>
    cases h
    exact .float x.2
  | text s =>
    cases h
    exact .text s
  | @array depth items _ ih =>
    rw [ofJson] at h
    split at h
    · cases h
    · next vs hvs =>
      cases h
      refine .sequence fun v hv => ?_
      have hitems := ofItems_eq_ok_iff.1 hvs
      obtain ⟨i, hi, rfl⟩ := List.getElem_of_mem hv
      have hi' : i < items.length := hitems.length_eq ▸ hi
      exact ih _ (List.getElem_mem hi') (hitems.get hi' hi)
  | object _ _ _ => cases h

theorem formed_toJson {depth : Nat} {v : Value} (h : v.Ordinary depth) : v.toJson.Formed depth := by
  induction h with
  | bool b => exact .bool b
  | int n => exact .integer _
  | float finite =>
    rw [toJson, dif_pos finite]
    exact .float _
  | text s => exact .text s
  | @sequence depth items _ ih =>
    rw [toJson, toItems_eq_map]
    refine .array fun j hj => ?_
    obtain ⟨v, hv, rfl⟩ := List.mem_map.1 hj
    exact ih v hv

theorem Ordinary.isFinite {depth : Nat} {v : Value} (h : v.Ordinary depth) : v.IsFinite := by
  induction h with
  | bool b => exact .bool b
  | int n => exact .int n
  | float finite => exact .float finite
  | text s => exact .text s
  | sequence _ ih => exact .sequence ih

/-- An ordinary value is told apart from all others by trying one reading after the other. -/
theorem ofJsonByTrial?_toJson {depth : Nat} {v : Value} (h : v.Ordinary depth) :
    ofJsonByTrial? v.toJson = some v := by
  rw [ofJsonByTrial?_eq, ofJson_toJson_of_isFinite h.isFinite]
  rfl

end Value

/-! ## Payloads -/

theorem Payload.ordinary_of_payload {depth : Nat} {j : Json} (hj : j.Formed (depth + 1))
    {name : String} {v : Value} (h : j.payload.get? name = some v) : v.Ordinary depth := by
  obtain ⟨members, m, rfl, hm, hv⟩ := exists_member_of_payload h
  cases hj with
  | object _ hmembers => exact Value.ordinary_of_ofJson (hmembers m hm) hv

/-- The nodes of a graph that was read hold ordinary values. They lie three brackets deep in the
document. -/
theorem Graph.ordinary_of_loadText {α : Type} {r : Runtime α} {text : String} {g : Graph}
    (h : r.loadText text = .ok g) {n : Node} (hn : n ∈ g.nodes) {name : String} {v : Value}
    (hv : n.payload.get? name = some v) : v.Ordinary (Json.depthLimit - 3) := by
  rw [Runtime.loadText] at h
  split at h
  · cases h
  · next d hd =>
    have hformed : ∀ j ∈ d.data, j.Formed (Json.depthLimit - 2) :=
      Document.forall_data_of_read (fun _ _ _ => Json.formed_of_readValue) hd
    obtain ⟨i, hi⟩ := Array.mem_iff_getElem?.1 hn
    have hat := (wellFormed_and_depicts h).2.nodes i n hi
    rw [hat.payload, Document.payloadAt] at hv
    cases hj : d.data[i]? with
    | none =>
      rw [hj] at hv
      cases hv
    | some j =>
      rw [hj, Option.getD_some] at hv
      exact Payload.ordinary_of_payload (hformed j (List.mem_of_getElem? hj)) hv

/-! ## Runs -/

/-- All variables have a property. -/
def Variables.All (P : Value → Prop) (vars : Variables) : Prop :=
  ∀ name v, vars.get? name = some v → P v

theorem Variables.all_of_entries {P : Value → Prop} {vars : Variables}
    (h : ∀ e ∈ vars.entries, P e.2) : vars.All P :=
  fun _ _ hv => h _ (Dictionary.mem_entries_of_get? hv)

/-- Truth values have a property, and so do the values that nodes bring in. -/
structure Graph.Brings (P : Value → Prop) (g : Graph) : Prop where
  truth : ∀ b, P (.bool b)
  node : ∀ n ∈ g.nodes, ∀ v, n.payload.get? "value" = some v → P v

section Runs

variable {α : Type} [Scalar α] {P : Value → Prop} {g : Graph}

/-- A node that is passed leaves no values but those that were there and those that nodes bring
in. -/
theorem Node.Passes.all_variables {r : Runtime α} {index : Nat} {n : Node} {s : Situation α}
    {p : Passage α} (hg : g.Brings P) (h : n.Passes r g index s p)
    (hs : Variables.All P s.variables) : Variables.All P p.situation.variables := by
  rcases h.variables_eq with heq | ⟨target, value, -, hvalue, heq⟩
  · rw [heq]
    exact hs
  · rw [heq]
    intro name v hv
    rw [Dictionary.get?_insert] at hv
    split at hv
    · cases hv
      obtain ⟨m, hm, inputs, output, hprocess⟩ :=
        Graph.process_of_pullInput (Node.pullInput_of_dataInput hvalue)
      rcases m.mem_of_process hprocess with ⟨b, rfl⟩ | hpayload | ⟨other, hget⟩
      · exact hg.truth b
      · exact hg.node m hm value hpayload
      · exact hs other value hget
    · exact hs name v hv

theorem all_variables_of_moves {r : Runtime α} {index : Nat} {s s' : Situation α}
    {clip : Option (Clip α)} {next : Nat} (hg : g.Brings P)
    (h : turn r g index s = .moves clip next s') (hs : Variables.All P s.variables) :
    Variables.All P s'.variables := by
  obtain ⟨n, p, output, -, hpass, -, -, -, rfl⟩ := turn_eq_moves_iff.1 h
  exact hpass.all_variables hg hs

namespace Walker

variable {w : Walker α} {walk : Walk α}

/-- Where a stretch ends with a suspension, its variables have what the first ones had. -/
theorem all_of_stretch (hg : w.graph.Brings P) {limit room index : Nat} {s : Situation α}
    {clips : Array (Clip α)} (hs : Variables.All P s.variables)
    (h : w.stretch limit room index s clips = .ok walk) {waiting : Suspension α}
    (hwaiting : walk.outcome = .suspended waiting) : Variables.All P waiting.variables := by
  induction room generalizing index s clips with
  | zero =>
    rw [stretch_zero] at h
    split at h <;> cases h
  | succ room ih =>
    rw [stretch_succ] at h
    cases hturn : turn w.runtime w.graph index s with
    | fails e =>
      rw [hturn] at h
      cases h
    | moves clip next s' =>
      rw [hturn] at h
      exact ih (all_variables_of_moves hg hturn hs) h
    | rests clip outcome s' =>
      rw [hturn] at h
      cases h
      replace hwaiting : outcome = .suspended waiting := hwaiting
      rw [hwaiting] at hturn
      obtain ⟨n, p, -, hpass, -, rfl⟩ := exists_passes_of_rests hturn
      obtain ⟨-, -, -, hvariables⟩ := suspension_of_turn hturn
      rw [hvariables]
      exact hpass.all_variables hg hs

/-- **What holds of the values that a run starts with and of those that nodes bring in holds of all
variables of a suspension.** -/
theorem all_of_run (hg : w.graph.Brings P) (hseed : Variables.All P w.variables) {entry : String}
    {options : List Nat} (h : w.run entry options = .ok walk) {s : Suspension α}
    (hs : walk.outcome = .suspended s) : Variables.All P s.variables := by
  refine run_induction
    (P := fun walk => ∀ s, walk.outcome = .suspended s → Variables.All P s.variables) ?_ ?_ h s hs
  · intro walk hstart s hs
    rw [start] at hstart
    split at hstart
    · cases hstart
    · exact all_of_stretch hg hseed hstart hs
  · intro walk waiting option next hwalk hwaiting hresume s hs
    rw [resume] at hresume
    split at hresume
    · cases hresume
    split at hresume
    · cases hresume
    split at hresume
    · exact all_of_stretch hg (hwalk waiting hwaiting) hresume hs
    · cases hresume
      cases hs

end Walker

end Runs

end BranchingDialogue
