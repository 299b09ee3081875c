import BranchingDialogue.Processor.Pull
import BranchingDialogue.Proofs.Document.Loaded
import Mathlib.Logic.Equiv.Defs

/-!
# Graphs with their nodes renumbered

`Graph.Renumbers` relates two graphs that differ in the positions of their nodes, and in the order of
edges as far as no port shows it that is read. Walks read ports, never edges, and of an input only if
it takes a single edge. So the two graphs cannot be told apart by the values that are pulled in them:
`pullInput_renumbered`.
-/

namespace BranchingDialogue

/-- A port at the position that its node is moved to. -/
def PortRef.renumber (σ : Nat → Nat) (p : PortRef) : PortRef := { p with node := σ p.node }

namespace Graph

/-- One graph is another one, where position `i` of the one is position `σ i` of the other. -/
structure Renumbers (σ : Equiv.Perm Nat) (g g' : Graph) : Prop where
  size : g'.nodes.size = g.nodes.size
  /-- Nodes are the same, but for the edges at their ports. -/
  nodes : ∀ i, (g'.node? i).map Node.bare = (g.node? (σ i)).map Node.bare
  entries : ∀ name, (g'.entry? name).map σ = g.entry? name
  /-- Outputs lead to the same nodes. -/
  follow : ∀ {i n} number, g'.node? i = some n →
    (g'.follow? i number).map σ = g.follow? (σ i) number
  /-- Inputs that take a single edge are fed by the same outputs. -/
  source : ∀ {i n} number, g'.node? i = some n → n.kind.capacity .input number = .single →
    (g'.source? i number).map (·.renumber σ) = g.source? (σ i) number
  /-- Data inputs are connected in both graphs or in none. -/
  connected : ∀ {i n m}, g'.node? i = some n → g.node? (σ i) = some m →
    (n.port? .input dataSocket).any Port.isConnected
      = (m.port? .input dataSocket).any Port.isConnected

/-- Inputs of processors take a single edge, and so do data inputs. -/
theorem capacity_eq_single {kind : NodeKind} {number : Int}
    (h : kind.isProcessor = true ∨ number = dataSocket) :
    kind.capacity .input number = .single := by
  rw [NodeKind.capacity, if_pos]
  refine ⟨rfl, ?_⟩
  rcases h with h | rfl
  · rw [h, Bool.or_true]
  · rfl

theorem inOrder_congr {α : Type} {f f' : Nat → Except ProcessorError α} {is : List Nat}
    (h : ∀ i ∈ is, f i = f' i) : inOrder f is = inOrder f' is := by
  induction is with
  | nil => rfl
  | cons i is ih =>
    rw [inOrder, inOrder, h i List.mem_cons_self, ih fun j hj => h j (List.mem_cons_of_mem i hj)]

/-- Of two places with the same node but for its ports, both have one if one has. -/
theorem exists_of_map_bare {x y : Option Node} {n : Node} (h : x.map Node.bare = y.map Node.bare)
    (hx : x = some n) : ∃ m, y = some m ∧ n.bare = m.bare := by
  rw [hx, Option.map_some, eq_comm, Option.map_eq_some_iff] at h
  obtain ⟨m, hm, heq⟩ := h
  exact ⟨m, hm, heq.symm⟩

/-- What a processor gives does not depend on its ports. -/
theorem process_of_bare {n m : Node} (h : n.bare = m.bare) (inputs : List Value) (output : Int)
    (vars : Variables) : n.process inputs output vars = m.process inputs output vars := by
  show n.bare.process inputs output vars = m.bare.process inputs output vars
  rw [h]

namespace Renumbers

variable {σ : Equiv.Perm Nat} {g g' : Graph} {vars : Variables}

theorem exists_node (h : g.Renumbers σ g') {i : Nat} {n : Node} (hn : g'.node? i = some n) :
    ∃ m, g.node? (σ i) = some m ∧ n.bare = m.bare :=
  exists_of_map_bare (h.nodes i) hn

/-- An input that takes a single edge gets the same value, if all that may feed it does. -/
theorem inputFrom_eq (h : g.Renumbers σ g') (hclosed : g'.Closed)
    {evaluate evaluate' : Nat → Int → Except ProcessorError Value} {i : Nat} {n : Node}
    {port : Int} (hn : g'.node? i = some n) (hsingle : n.kind.capacity .input port = .single)
    (heval : ∀ j m number, g'.node? j = some m → evaluate' j number = evaluate (σ j) number) :
    g'.inputFrom evaluate' i port = g.inputFrom evaluate (σ i) port := by
  obtain ⟨m, hm, hbare⟩ := h.exists_node hn
  have hid : n.id = m.id := congrArg (·.id) hbare
  have hsource := h.source port hn hsingle
  rw [inputFrom, inputFrom, hn, hm]
  simp only
  rw [← hsource]
  cases hs : g'.source? i port with
  | none => rw [Option.map_none, hid]
  | some source =>
    obtain ⟨k, hk⟩ := hclosed.source hs
    exact heval source.node k source.number hk

/-- A processor gives the same value wherever it is. -/
theorem valueWithin_eq (h : g.Renumbers σ g') (hclosed : g'.Closed) {limit room i : Nat} {n : Node}
    {port : Int} (hn : g'.node? i = some n) :
    g'.valueWithin vars limit room i port = g.valueWithin vars limit room (σ i) port := by
  induction room generalizing i n port with
  | zero =>
    obtain ⟨m, hm, hbare⟩ := h.exists_node hn
    have hid : n.id = m.id := congrArg (·.id) hbare
    rw [valueWithin, valueWithin, hn, hm]
    simp only [hid]
  | succ room ih =>
    obtain ⟨m, hm, hbare⟩ := h.exists_node hn
    have hid : n.id = m.id := congrArg (·.id) hbare
    have hkind : n.kind = m.kind := Node.kind_of_bare hbare
    rw [valueWithin, valueWithin, hn, hm]
    simp only [hid, ← hkind, Node.layout_of_bare hbare]
    split
    · next hprocessor =>
      rw [inOrder_congr fun k _ => h.inputFrom_eq hclosed hn
        (capacity_eq_single (Or.inl hprocessor)) fun _ _ _ hj => ih hj]
      split
      · rfl
      · exact process_of_bare hbare _ _ _
    · rfl

/-- **A data input gets the same value in both graphs.** -/
theorem pullInput_renumbered (h : g.Renumbers σ g') (hclosed : g'.Closed) {limit : Option Nat}
    {i : Nat} {n : Node} (hn : g'.node? i = some n) :
    g'.pullInput vars limit i dataSocket = g.pullInput vars limit (σ i) dataSocket := by
  have hlimit : g'.pullLimit limit = g.pullLimit limit := by rw [pullLimit, pullLimit, h.size]
  rw [pullInput, pullInput, hlimit]
  exact h.inputFrom_eq hclosed hn (capacity_eq_single (Or.inr rfl)) fun _ _ _ hj =>
    h.valueWithin_eq hclosed hj

end Renumbers

end Graph

end BranchingDialogue
